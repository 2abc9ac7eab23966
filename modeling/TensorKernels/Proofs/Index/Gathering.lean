import TensorKernels.Proofs.Fallible
import TensorKernels.Proofs.Index.Strides

set_option autoImplicit false

namespace TensorKernels

theorem map_range_eq_map_some {α : Type} {f : Nat → Option α} {n : Nat} {as : List α} :
    (List.range n).map f = as.map some ↔ as.length = n ∧ ∀ i < n, as[i]? = f i := by
  constructor
  · intro h
    have hlength : as.length = n := by simpa using (congrArg List.length h).symm
    refine ⟨hlength, fun i hi => ?_⟩
    have hget := congrArg (·[i]?) h
    simp only [List.getElem?_map, List.getElem?_range hi, Option.map_some] at hget
    rw [List.getElem?_eq_getElem (hlength ▸ hi)] at hget ⊢
    exact (Option.some_inj.1 hget).symm
  · rintro ⟨rfl, hget⟩
    apply List.ext_getElem?
    intro i
    by_cases hi : i < as.length
    · simp [List.getElem?_range hi, ← hget i hi, List.getElem?_eq_getElem hi]
    · simp [hi]

theorem exists_mapM_range {α : Type} {f : Nat → Option α} {n : Nat} (hf : ∀ i < n, (f i).isSome) :
    ∃ as, (List.range n).mapM f = some as ∧ as.length = n ∧ ∀ i < n, as[i]? = f i := by
  have hs : ∃ as, (List.range n).mapM f = some as := by
    induction n with
    | zero => exact ⟨[], rfl⟩
    | succ n ih =>
      obtain ⟨as, has⟩ := ih fun i hi => hf i (Nat.lt_succ_of_lt hi)
      obtain ⟨a, ha⟩ := Option.isSome_iff_exists.1 (hf n (Nat.lt_succ_self n))
      exact ⟨as ++ [a], by simp [List.range_succ, has, ha]⟩
  obtain ⟨as, has⟩ := hs
  exact ⟨as, has, map_range_eq_map_some.1 (mapM_eq_some_iff.1 has)⟩

namespace IndexMap

variable {α : Type} {m : IndexMap} {scalars : Bindings} {input : Array α}

/-- The input element that the map gives for an output element. -/
def fetch? (m : IndexMap) (scalars : Bindings) (input : Array α) (gid : Nat) : Option α := do
  let index ← m.sourceIndex? scalars gid
  input[index]?

theorem write?_of_fetch? {out : Array (Option α)} {gid : Nat} (hout : out[gid]? = some none) :
    m.write? scalars input out gid =
      (m.fetch? scalars input gid).map fun value => out.setIfInBounds gid (some value) := by
  unfold write? fetch?
  cases hs : m.sourceIndex? scalars gid with
  | none => rfl
  | some index =>
    cases hv : input[index]? with
    | none => simp [hv]
    | some value => simp [hv, hout]

theorem gather_eq_some_iff {total : Nat} {values : List α} :
    m.gather scalars input total = some values ↔
      (List.range total).map (m.fetch? scalars input) = values.map some :=
  mapM_eq_some_iff

def filled (m : IndexMap) (scalars : Bindings) (input : Array α) (gids : List Nat)
    (out : Array (Option α)) : Array (Option α) :=
  out.mapIdx fun i old => if i ∈ gids then m.fetch? scalars input i else old

theorem getElem?_filled (gids : List Nat) (out : Array (Option α)) (i : Nat) :
    (m.filled scalars input gids out)[i]? =
      out[i]?.map fun old => if i ∈ gids then m.fetch? scalars input i else old :=
  Array.getElem?_mapIdx

theorem getElem?_filled_replicate {gids : List Nat} {total gid : Nat} (hgid : gid < total) :
    (m.filled scalars input gids (Array.replicate total none))[gid]? =
      some (if gid ∈ gids then m.fetch? scalars input gid else none) := by
  rw [getElem?_filled, Array.getElem?_replicate, if_pos hgid, Option.map_some]

theorem filled_cons {gid : Nat} {gids : List Nat} {out : Array (Option α)} {value : α}
    (hnot : gid ∉ gids) (hv : m.fetch? scalars input gid = some value) :
    m.filled scalars input gids (out.setIfInBounds gid (some value)) =
      m.filled scalars input (gid :: gids) out := by
  apply Array.ext_getElem?
  intro i
  rw [getElem?_filled, getElem?_filled, Array.getElem?_setIfInBounds]
  by_cases hi : gid = i
  · subst hi
    by_cases hsize : gid < out.size
    · simp [hsize, hnot, hv]
    · simp [hsize]
  · simp [hi, Ne.symm hi]

theorem foldlM_write? {gids : List Nat} {out : Array (Option α)} (hn : gids.Nodup)
    (hout : ∀ gid ∈ gids, out[gid]? = some none) :
    gids.foldlM (m.write? scalars input) out =
      if ∀ gid ∈ gids, (m.fetch? scalars input gid).isSome then
        some (m.filled scalars input gids out)
      else none := by
  induction gids generalizing out with
  | nil =>
    have hnil : m.filled scalars input [] out = out := by
      apply Array.ext_getElem?
      intro i
      simp [getElem?_filled]
    simp [hnil]
  | cons gid gids ih =>
    obtain ⟨hnot, hn⟩ := List.nodup_cons.1 hn
    rw [List.foldlM_cons, write?_of_fetch? (hout gid List.mem_cons_self)]
    cases hv : m.fetch? scalars input gid with
    | none => simp [hv]
    | some value =>
      have hrest : ∀ i ∈ gids, (out.setIfInBounds gid (some value))[i]? = some none := by
        intro i hi
        have hne : gid ≠ i := fun e => hnot (e ▸ hi)
        rw [Array.getElem?_setIfInBounds_ne hne]
        exact hout i (List.mem_cons_of_mem gid hi)
      rw [Option.map_some, Option.bind_eq_bind, Option.bind_some, ih hn hrest, filled_cons hnot hv]
      simp [hv]

theorem getElem?_replicate_none {gids : List Nat} {total : Nat} (h : ∀ gid ∈ gids, gid < total) :
    ∀ gid ∈ gids, (Array.replicate total (none : Option α))[gid]? = some none := by
  intro gid hgid
  rw [Array.getElem?_replicate, if_pos (h gid hgid)]

theorem runWorkers_eq_gather (m : IndexMap) (scalars : Bindings) (input : Array α)
    (total workers : Nat) :
    m.runWorkers scalars input total workers = m.gather scalars input total := by
  have hlt : ∀ gid ∈ visits workers total, gid < total := fun _ hgid => mem_visits.1 hgid
  have hout := getElem?_replicate_none (α := α) hlt
  have hlist : (m.filled scalars input (visits workers total) (Array.replicate total none)).toList =
      (List.range total).map (m.fetch? scalars input) := by
    apply List.ext_getElem?
    intro i
    rw [Array.getElem?_toList, getElem?_filled, Array.getElem?_replicate, List.getElem?_map]
    by_cases hi : i < total <;> simp [hi, mem_visits]
  rw [runWorkers, foldlM_write? (nodup_visits workers total) hout]
  split
  · rw [Option.bind_eq_bind, Option.bind_some, hlist, List.mapM_map]
    rfl
  · next hnone =>
    cases hg : m.gather scalars input total with
    | none => rfl
    | some values =>
      refine absurd (fun gid hgid => ?_) hnone
      have hmem := List.mem_map_of_mem (f := m.fetch? scalars input)
        (List.mem_range.2 (mem_visits.1 hgid))
      rw [gather_eq_some_iff.1 hg] at hmem
      obtain ⟨value, _, e⟩ := List.mem_map.1 hmem
      exact e ▸ rfl

end IndexMap

theorem mapM_bind {α β γ : Type} (f : α → Option β) (g : β → Option γ) (as : List α) :
    as.mapM (fun a => f a >>= g) = as.mapM f >>= fun bs => bs.mapM g := by
  induction as with
  | nil => rfl
  | cons a as ih =>
    rw [List.mapM_cons, List.mapM_cons, ih]
    cases ha : f a with
    | none => rfl
    | some b =>
      cases hb : as.mapM f with
      | none => cases hg : g b <;> simp [hg]
      | some bs => simp

namespace IndexMap

variable {α : Type} {m : IndexMap} {scalars : Bindings} {input : Array α} {total workers gid : Nat}

theorem sourceIndex?_eq_some_iff {index : Nat} :
    m.sourceIndex? scalars gid = some index ↔ m.eval gid scalars = some (index : Int) := by
  unfold sourceIndex?
  cases m.eval gid scalars with
  | none => simp
  | some v =>
    simp only [Option.bind_eq_bind, Option.bind_some]
    split <;> simp only [Option.some_inj, reduceCtorEq, false_iff] <;> omega

theorem fetch?_eq_some_iff {value : α} : m.fetch? scalars input gid = some value ↔
    ∃ index : Nat, m.eval gid scalars = some (index : Int) ∧ input[index]? = some value := by
  rw [fetch?, Option.bind_eq_bind, Option.bind_eq_some_iff]
  simp only [sourceIndex?_eq_some_iff]

theorem isSome_fetch?_iff : (m.fetch? scalars input gid).isSome ↔
    ∃ index : Nat, m.eval gid scalars = some (index : Int) ∧ index < input.size := by
  rw [Option.isSome_iff_exists]
  simp only [fetch?_eq_some_iff]
  constructor
  · rintro ⟨value, index, he, hv⟩
    obtain ⟨hlt, -⟩ := Array.getElem?_eq_some_iff.1 hv
    exact ⟨index, he, hlt⟩
  · rintro ⟨index, he, hlt⟩
    exact ⟨input[index], index, he, Array.getElem?_eq_getElem hlt⟩

theorem gather_eq_some_iff_get {out : List α} : m.gather scalars input total = some out ↔
    out.length = total ∧ ∀ gid < total, ∃ index : Nat, m.eval gid scalars = some (index : Int) ∧
      index < input.size ∧ out[gid]? = input[index]? := by
  rw [gather_eq_some_iff, map_range_eq_map_some]
  refine and_congr_right fun hlength => forall₂_congr fun gid hgid => ?_
  rw [List.getElem?_eq_getElem (hlength ▸ hgid), eq_comm, fetch?_eq_some_iff]
  refine exists_congr fun index => and_congr_right fun _ => ?_
  constructor
  · intro hv
    exact ⟨(Array.getElem?_eq_some_iff.1 hv).1, hv.symm⟩
  · rintro ⟨-, hv⟩
    exact hv.symm

theorem gather_succeeds_iff : (∃ out, m.gather scalars input total = some out) ↔
    ∀ gid < total, ∃ index : Nat, m.eval gid scalars = some (index : Int) ∧ index < input.size := by
  constructor
  · rintro ⟨out, h⟩ gid hgid
    obtain ⟨index, he, hlt, -⟩ := (gather_eq_some_iff_get.1 h).2 gid hgid
    exact ⟨index, he, hlt⟩
  · intro h
    obtain ⟨out, hout, -⟩ := exists_mapM_range (f := m.fetch? scalars input) fun gid hgid =>
      isSome_fetch?_iff.2 (h gid hgid)
    exact ⟨out, hout⟩

theorem gather_eq_sources : m.gather scalars input total =
    (m.sources scalars total).bind fun indices => indices.mapM (input[·]?) :=
  mapM_bind (m.sourceIndex? scalars) (input[·]?) (List.range total)

theorem foldlM_write?_eq_some {gids : List Nat} {out : Array (Option α)} (hn : gids.Nodup)
    (hlt : ∀ gid ∈ gids, gid < total)
    (h : gids.foldlM (m.write? scalars input) (Array.replicate total none) = some out) :
    (∀ gid ∈ gids, (m.fetch? scalars input gid).isSome) ∧
      out = m.filled scalars input gids (Array.replicate total none) := by
  rw [foldlM_write? hn (getElem?_replicate_none hlt)] at h
  split at h
  · next hall => exact ⟨hall, (Option.some_inj.1 h).symm⟩
  · cases h

theorem unwritten_before_visit {done rest : List Nat} {out : Array (Option α)}
    (hvisits : visits workers total = done ++ gid :: rest)
    (h : done.foldlM (m.write? scalars input) (Array.replicate total none) = some out) :
    out[gid]? = some none := by
  have hn := nodup_visits workers total
  have hlt (i : Nat) (hi : i ∈ done ++ gid :: rest) : i < total := mem_visits.1 (hvisits ▸ hi)
  rw [hvisits] at hn
  obtain ⟨hdone, -, hdisjoint⟩ := List.nodup_append'.1 hn
  obtain ⟨-, rfl⟩ := foldlM_write?_eq_some hdone (fun i hi => hlt i (List.mem_append_left _ hi)) h
  -- All visits differ, so `gid` is none of those that are done.
  have hgid : gid ∉ done := fun hi => hdisjoint hi List.mem_cons_self
  rw [getElem?_filled_replicate (hlt gid (by simp)), if_neg hgid]

theorem written_after_visits {out : Array (Option α)} (hgid : gid < total)
    (h : (visits workers total).foldlM (m.write? scalars input) (Array.replicate total none) =
      some out) : ∃ value, out[gid]? = some (some value) := by
  obtain ⟨hall, rfl⟩ := foldlM_write?_eq_some (nodup_visits workers total)
    (fun i hi => mem_visits.1 hi) h
  obtain ⟨value, hv⟩ := Option.isSome_iff_exists.1 (hall gid (mem_visits.2 hgid))
  refine ⟨value, ?_⟩
  rw [getElem?_filled_replicate hgid, if_pos (mem_visits.2 hgid), hv]

structure RunGathers (m : IndexMap) (scalars : Bindings) (input : Array α) (total workers : Nat) :
    Prop where
  succeeds_iff : (∃ out, m.runWorkers scalars input total workers = some out) ↔
    ∀ gid < total, ∃ index : Nat, m.eval gid scalars = some (index : Int) ∧ index < input.size
  eq_some_iff : ∀ out, m.runWorkers scalars input total workers = some out ↔
    out.length = total ∧ ∀ gid < total, ∃ index : Nat, m.eval gid scalars = some (index : Int) ∧
      index < input.size ∧ out[gid]? = input[index]?
  eq_gather : m.runWorkers scalars input total workers = m.gather scalars input total
  eq_sources : m.runWorkers scalars input total workers =
    (m.sources scalars total).bind fun indices => indices.mapM (input[·]?)
  independent : ∀ others, m.runWorkers scalars input total others =
    m.runWorkers scalars input total workers
  /-- No worker finds its element written. -/
  unwritten : ∀ done gid rest out, visits workers total = done ++ gid :: rest →
    done.foldlM (m.write? scalars input) (Array.replicate total none) = some out →
    out[gid]? = some none
  /-- When all workers are done, no element is unwritten. -/
  written : ∀ out,
    (visits workers total).foldlM (m.write? scalars input) (Array.replicate total none) = some out →
    ∀ gid < total, ∃ value, out[gid]? = some (some value)

theorem runWorkers_gathers (m : IndexMap) (scalars : Bindings) (input : Array α)
    (total workers : Nat) : m.RunGathers scalars input total workers where
  succeeds_iff := by rw [runWorkers_eq_gather, gather_succeeds_iff]
  eq_some_iff _ := by rw [runWorkers_eq_gather, gather_eq_some_iff_get]
  eq_gather := runWorkers_eq_gather m scalars input total workers
  eq_sources := by rw [runWorkers_eq_gather, gather_eq_sources]
  independent _ := by rw [runWorkers_eq_gather, runWorkers_eq_gather]
  unwritten _ _ _ _ hvisits h := unwritten_before_visit hvisits h
  written _ h _ hgid := written_after_visits hgid h

end IndexMap

end TensorKernels
