import TensorKernels.Proofs.Kernel.Patching

set_option autoImplicit false

namespace TensorKernels

namespace Bindings

variable {b c : Bindings} {ps qs : List (String × Int)}

def AgreeOn (labels : List String) (b c : Bindings) : Prop :=
  ∀ label ∈ labels, b.get? label = c.get? label

theorem require_congr {label : String} (h : b.get? label = c.get? label) :
    b.require label = c.require label := by
  unfold require
  rw [h]

theorem get?_ofList_eq_some_iff (hn : (ps.map Prod.fst).Nodup) {label : String} {v : Int} :
    (ofList ps).get? label = some v ↔ (label, v) ∈ ps := by
  rw [get?_ofList, List.lookup_eq_some_iff, ← List.mem_reverse]
  constructor
  · rintro ⟨later, earlier, h, -⟩
    rw [h]
    exact List.mem_append_right _ List.mem_cons_self
  · intro h
    obtain ⟨later, earlier, h⟩ := List.append_of_mem h
    refine ⟨later, earlier, h, fun p hp => bne_iff_ne.2 fun hlabel => ?_⟩
    rw [← List.nodup_reverse, ← List.map_reverse, h, List.map_append] at hn
    exact List.disjoint_of_nodup_append hn (List.mem_map_of_mem hp) (hlabel ▸ List.mem_cons_self)

theorem get?_ofList_of_perm (hn : (ps.map Prod.fst).Nodup) (h : ps.Perm qs) (label : String) :
    (ofList ps).get? label = (ofList qs).get? label := by
  have hn' : (qs.map Prod.fst).Nodup := (h.map Prod.fst).nodup_iff.1 hn
  refine Option.ext fun v => ?_
  rw [get?_ofList_eq_some_iff hn, get?_ofList_eq_some_iff hn', h.mem_iff]

end Bindings

theorem Unresolved.fill_congr {b c : Bindings} {u : Unresolved}
    (h : b.get? u.label = c.get? u.label) (cells : Cells) : u.fill b cells = u.fill c cells := by
  unfold fill
  rw [Bindings.require_congr h]

namespace Dim

def label? : Dim → Option String
  | fixed _ => none
  | preset label => some label

theorem isFixed_iff {d : Dim} : d.isFixed = true ↔ d.label? = none := by
  cases d <;> simp [isFixed, label?]

theorem resolve_congr {b c : Bindings} {d : Dim} (h : ∀ label ∈ d.label?, b.get? label = c.get? label) :
    d.resolve b = d.resolve c := by
  cases d with
  | fixed n => rfl
  | preset label =>
    rw [resolve, resolve, Bindings.require_congr (h label rfl)]

end Dim

namespace Kernel

def labels (k : Kernel) : List String :=
  k.unresolved.map Unresolved.label ++ k.launch.dims.filterMap Dim.label?

variable {k : Kernel} {b c : Bindings}

theorem patch_congr (h : b.AgreeOn k.labels c) : k.patch b = k.patch c := by
  have hcells (cells : Cells) : k.unresolved.foldlM (Unresolved.fill b) cells =
      k.unresolved.foldlM (Unresolved.fill c) cells :=
    foldlM_congr (fun u hu => Unresolved.fill_congr
      (h u.label (List.mem_append_left _ (List.mem_map_of_mem hu)))) cells
  have hdims : ∀ d ∈ k.launch.dims, d.resolve b = d.resolve c := fun d hd =>
    Dim.resolve_congr fun label hlabel =>
      h label (List.mem_append_right _ (List.mem_filterMap.2 ⟨d, hd, hlabel⟩))
  rw [Launch.dims, List.forall_mem_append] at hdims
  unfold patch LaunchSize.resolve
  rw [hcells, mapM_congr hdims.1, mapM_congr hdims.2]

theorem isReady_iff : k.isReady = true ↔ k.labels = [] := by
  simp only [isReady, labels, Bool.and_eq_true, List.isEmpty_iff, List.all_eq_true,
    List.append_eq_nil_iff, List.map_eq_nil_iff, List.filterMap_eq_nil_iff, Dim.isFixed_iff]

theorem exists_get?_of_patch {p : PatchedKernel} (h : k.patch b = .ok p) :
    ∀ label ∈ k.labels, ∃ v, b.get? label = some v := by
  obtain ⟨hcells, hdims⟩ :=
    forall_requirements_iff.1 ((k.decides_patch b).exists_ok_iff.1 ⟨p, h⟩)
  intro label hlabel
  rcases List.mem_append.1 hlabel with hlabel | hlabel
  · obtain ⟨u, hu, rfl⟩ := List.mem_map.1 hlabel
    exact (hcells u hu).1.met_bound
  · obtain ⟨d, hd, hlabel⟩ := List.mem_filterMap.1 hlabel
    cases d with
    | fixed n => cases hlabel
    | preset other =>
      cases hlabel
      exact (hdims label hd).met_bound

theorem labels_eq_nil_of_patch_empty {p : PatchedKernel} (h : k.patch .empty = .ok p) :
    k.labels = [] := by
  refine List.eq_nil_iff_forall_not_mem.2 fun label hlabel => ?_
  obtain ⟨v, hv⟩ := exists_get?_of_patch h label hlabel
  cases hv

theorem exists_patch_of_labels_eq_nil (h : k.labels = []) (b : Bindings) :
    ∃ p, k.patch b = .ok p := by
  refine (k.decides_patch b).exists_ok_iff.2 (forall_requirements_iff.2 ?_)
  rw [labels, List.append_eq_nil_iff, List.map_eq_nil_iff, List.filterMap_eq_nil_iff] at h
  refine ⟨fun u hu => ?_, fun label hlabel => ?_⟩
  · rw [h.1] at hu
    cases hu
  · cases h.2 _ hlabel

/-- Only the values of the kernel's own labels count for patching, errors included. A kernel that can
do without bindings is ready, and a kernel that is ready is patched alike whatever is bound. -/
theorem patch_reads_labels (k : Kernel) :
    (∀ b c : Bindings, b.AgreeOn k.labels c → k.patch b = k.patch c) ∧
    (∀ ps qs : List (String × Int), (ps.map Prod.fst).Nodup → ps.Perm qs →
      k.patch (.ofList ps) = k.patch (.ofList qs)) ∧
    (k.isReady = true ↔ ∃ p, k.patch .empty = .ok p) ∧
    ∀ p, k.patch .empty = .ok p → ∀ b, k.patch b = .ok p := by
  refine ⟨fun b c => patch_congr, fun ps qs hn hperm => ?_, ?_, fun p hp b => ?_⟩
  · exact patch_congr fun label _ => Bindings.get?_ofList_of_perm hn hperm label
  · rw [isReady_iff]
    constructor
    · exact fun h => exists_patch_of_labels_eq_nil h .empty
    · rintro ⟨p, hp⟩
      exact labels_eq_nil_of_patch_empty hp
  · rw [← hp]
    refine patch_congr fun label hlabel => ?_
    rw [labels_eq_nil_of_patch_empty hp] at hlabel
    cases hlabel

end Kernel

end TensorKernels
