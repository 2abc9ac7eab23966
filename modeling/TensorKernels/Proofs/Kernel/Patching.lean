import TensorKernels.Kernel.Patch
import TensorKernels.Proofs.Fallible
import TensorKernels.Proofs.Requirement

set_option autoImplicit false

namespace TensorKernels

open Requirement

namespace Bindings

variable {b : Bindings} {label : String} {v : Int}

def BoundWithin (b : Bindings) (label : String) (low high : Int) : Prop :=
  ∃ v, b.get? label = some v ∧ low ≤ v ∧ v ≤ high

def value (b : Bindings) (label : String) : Int := (b.get? label).getD 0

theorem require_eq_ok_iff : b.require label = .ok v ↔ b.get? label = some v := by
  unfold require
  split <;> simp_all

theorem value_of_get? (h : b.get? label = some v) : b.value label = v := by
  rw [value, h, Option.getD_some]

theorem boundWithin_of_get? {low high : Int} (h : b.get? label = some v) :
    b.BoundWithin label low high ↔ low ≤ v ∧ v ≤ high := by
  simp [BoundWithin, h]

def bound (b : Bindings) (label : String) : Requirement LoweringError where
  met := ∃ v, b.get? label = some v
  fault := .unboundPlaceholder label

theorem BoundWithin.met_bound {low high : Int} (h : b.BoundWithin label low high) :
    (b.bound label).met := by
  obtain ⟨v, hv, -⟩ := h
  exact ⟨v, hv⟩

theorem decides_require (b : Bindings) (label : String) :
    Decides [b.bound label] (b.require label) := by
  unfold require
  split
  · next v hv => exact .met ⟨v, hv⟩ (.ok v)
  · next hv => exact .unmet (q := b.bound label) (by simp [bound, hv]) []

end Bindings

namespace Unresolved

variable {b : Bindings} {u : Unresolved} {us : List Unresolved} {cells cells' : Cells}

def fitsWord (b : Bindings) (u : Unresolved) : Requirement LoweringError where
  met := b.BoundWithin u.label (-2147483648) 2147483647
  fault := .invalidParameter u.key (braced u.label ++ " bound to " ++ (b.value u.label).repr ++
    " which exceeds the 32-bit metadata cell")

def inside (count : Nat) (u : Unresolved) : Requirement LoweringError where
  met := u.cell < count
  fault := .invalidParameter u.key ("cell " ++ u.cell.repr ++ " is outside the metadata buffer")

def requirements (b : Bindings) (count : Nat) (u : Unresolved) : List (Requirement LoweringError) :=
  [b.bound u.label, u.fitsWord b, u.inside count]

theorem forall_requirements_iff {count : Nat} : (∀ q ∈ u.requirements b count, q.met) ↔
    b.BoundWithin u.label (-2147483648) 2147483647 ∧ u.cell < count := by
  simp only [requirements, List.forall_mem_cons, List.not_mem_nil, false_imp_iff, implies_true,
    and_true]
  exact ⟨And.right, fun h => ⟨h.1.met_bound, h⟩⟩

theorem decides_fill (b : Bindings) (cells : Cells) (u : Unresolved) :
    Decides (u.requirements b cells.length) (u.fill b cells) := by
  refine (b.decides_require u.label).step fun _ v hv => ?_
  have hget := Bindings.require_eq_ok_iff.1 hv
  have hfits : (u.fitsWord b).met ↔ (int32? v).isSome := by
    rw [isSome_int32?]
    exact Bindings.boundWithin_of_get? hget
  rw [← Bindings.value_of_get? hget] at hfits ⊢
  cases hw : int32? (b.value u.label) with
  | none => exact .unmet (q := u.fitsWord b) (by simp [hfits, hw]) [u.inside cells.length]
  | some w => exact .met (hfits.2 (by simp [hw])) .ite

theorem fill_eq_ok_iff : u.fill b cells = .ok cells' ↔ ∃ w : Int32, b.get? u.label = some w.toInt ∧
    u.cell < cells.length ∧ cells' = cells.set u.cell (Cell.ofInt32 w) := by
  constructor
  · intro h
    obtain ⟨v, hv, h⟩ := bind_eq_ok h
    split at h
    · next w hw =>
      split at h
      · next hlt =>
        cases h
        exact ⟨w, by rw [toInt_of_int32? hw, Bindings.require_eq_ok_iff.1 hv], hlt, rfl⟩
      · cases h
    · cases h
  · rintro ⟨w, hget, hlt, rfl⟩
    have hbound := Bindings.require_eq_ok_iff.2 hget
    simp only [fill, hbound, bind, Except.bind, int32?_toInt, if_pos hlt]

theorem length_fill (h : u.fill b cells = .ok cells') : cells'.length = cells.length := by
  obtain ⟨w, -, -, rfl⟩ := fill_eq_ok_iff.1 h
  exact List.length_set

theorem length_fills (h : us.foldlM (fill b) cells = .ok cells') :
    cells'.length = cells.length :=
  invariant_foldlM (I := fun s : Cells => s.length = cells.length)
    (fun _ _ _ hs hfill => (length_fill hfill).trans hs) rfl h

/-- A cell that no value names is left as it is. -/
theorem getElem?_fills {i : Nat} (hi : ∀ u ∈ us, u.cell ≠ i)
    (h : us.foldlM (fill b) cells = .ok cells') : cells'[i]? = cells[i]? := by
  induction us generalizing cells with
  | nil =>
    cases h
    rfl
  | cons u us ih =>
    rw [List.forall_mem_cons] at hi
    rw [List.foldlM_cons] at h
    obtain ⟨next, hnext, hrest⟩ := bind_eq_ok h
    obtain ⟨w, -, -, rfl⟩ := fill_eq_ok_iff.1 hnext
    rw [ih hi.2 hrest, List.getElem?_set_ne hi.1]

/-- The last value that names a cell is the one that the cell holds. -/
theorem getElem?_fills_last {before after : List Unresolved} (hlast : ∀ w ∈ after, w.cell ≠ u.cell)
    (h : (before ++ u :: after).foldlM (fill b) cells = .ok cells') :
    ∃ c : Cell, cells'[u.cell]? = some c ∧ b.get? u.label = some c.toInt := by
  rw [List.foldlM_append] at h
  obtain ⟨start, -, h⟩ := bind_eq_ok h
  rw [List.foldlM_cons] at h
  obtain ⟨written, hwritten, hrest⟩ := bind_eq_ok h
  obtain ⟨w, hget, hlt, rfl⟩ := fill_eq_ok_iff.1 hwritten
  refine ⟨Cell.ofInt32 w, ?_, by rwa [Cell.toInt_ofInt32]⟩
  rw [getElem?_fills hlast hrest, List.getElem?_set_self hlt]

end Unresolved

namespace Dim

def positive (b : Bindings) (label : String) : Requirement LoweringError where
  met := b.BoundWithin label 1 4294967295
  fault := .invalidParameter label
    ("launch dimension must be positive, got " ++ (b.value label).repr)

def requirements (b : Bindings) : Dim → List (Requirement LoweringError)
  | .fixed _ => []
  | .preset label => [b.bound label, positive b label]

theorem forall_requirements_iff {b : Bindings} {d : Dim} : (∀ q ∈ d.requirements b, q.met) ↔
    ∀ label, d = .preset label → b.BoundWithin label 1 4294967295 := by
  cases d with
  | fixed n => simp [requirements]
  | preset label =>
    simp only [requirements, List.forall_mem_cons, List.not_mem_nil, false_imp_iff, implies_true,
      and_true, preset.injEq, forall_eq']
    exact ⟨And.right, fun h => ⟨h.met_bound, h⟩⟩

inductive Takes (b : Bindings) : Dim → UInt32 → Prop
  | fixed (n : UInt32) : Takes b (.fixed n) n
  | preset {label : String} {n : UInt32} (h : b.get? label = some (n.toNat : Int)) :
      Takes b (.preset label) n

theorem isSome_filter_uint32? {v : Int} :
    ((uint32? v).filter (0 < ·)).isSome ↔ 1 ≤ v ∧ v ≤ 4294967295 := by
  cases hn : uint32? v with
  | none =>
    have hout := isSome_uint32?.not.1 (by simp [hn] : ¬ (uint32? v).isSome)
    simp only [Option.filter_none, Option.isSome_none, Bool.false_eq_true, false_iff]
    omega
  | some n =>
    have hword := toNat_of_uint32? hn
    have hbound := n.toNat_lt
    simp only [Option.isSome_filter, Option.any_some, decide_eq_true_eq, UInt32.lt_iff_toNat_lt,
      UInt32.toNat_zero]
    omega

theorem decides_resolve (b : Bindings) (d : Dim) : Decides (d.requirements b) (d.resolve b) := by
  cases d with
  | fixed n => exact .ok n
  | preset label =>
    refine (b.decides_require label).step fun _ v hv => ?_
    have hget := Bindings.require_eq_ok_iff.1 hv
    have hpos : (positive b label).met ↔ ((uint32? v).filter (0 < ·)).isSome := by
      rw [isSome_filter_uint32?]
      exact Bindings.boundWithin_of_get? hget
    rw [← Bindings.value_of_get? hget] at hpos ⊢
    cases hn : (uint32? (b.value label)).filter (0 < ·) with
    | none => exact .unmet (q := positive b label) (by simp [hpos, hn]) []
    | some n => exact .met (hpos.2 (by simp [hn])) (.ok n)

theorem takes_of_resolve {b : Bindings} {d : Dim} {n : UInt32} (h : d.resolve b = .ok n) :
    d.Takes b n := by
  cases d with
  | fixed m =>
    cases h
    exact .fixed n
  | preset label =>
    rw [resolve] at h
    obtain ⟨v, hv, h⟩ := bind_eq_ok h
    split at h
    · next m hm =>
      cases h
      have hword := (Option.filter_eq_some_iff.1 hm).1
      exact .preset (by rw [toNat_of_uint32? hword, Bindings.require_eq_ok_iff.1 hv])
    · cases h

end Dim

theorem LaunchSize.decides_resolve (b : Bindings) (s : LaunchSize) :
    Decides (s.dims.flatMap (Dim.requirements b)) (s.resolve b) :=
  .mapM (Dim.decides_resolve b) s.dims

theorem LaunchSize.takes_of_resolve {b : Bindings} {s : LaunchSize} {ns : List UInt32}
    (h : s.resolve b = .ok ns) : List.Forall₂ (Dim.Takes b) s.dims ns :=
  (mapM_eq_ok_iff_forall₂.1 h).imp fun _ _ => Dim.takes_of_resolve

namespace Kernel

/-- The cells of the first metadata buffer; without one there are no cells. -/
def metadata (k : Kernel) : Cells := k.cells?.getD []

def requirements (b : Bindings) (k : Kernel) : List (Requirement LoweringError) :=
  k.unresolved.flatMap (Unresolved.requirements b k.metadata.length) ++
    k.launch.dims.flatMap (Dim.requirements b)

theorem decides_patch (k : Kernel) (b : Bindings) : Decides (k.requirements b) (k.patch b) := by
  have hcells : Decides (k.unresolved.flatMap (Unresolved.requirements b k.metadata.length))
      (k.unresolved.foldlM (Unresolved.fill b) k.metadata) := by
    refine .foldlM (I := fun cells => cells.length = k.metadata.length) (fun cells u h => ?_)
      (fun _ _ _ h hfill => (Unresolved.length_fill hfill).trans h) rfl k.unresolved
    rw [← h]
    exact Unresolved.decides_fill b cells u
  rw [requirements, Launch.dims, List.flatMap_append]
  refine hcells.bind fun _ cells _ => ?_
  refine (k.launch.grid.decides_resolve b).bind fun _ grid _ => ?_
  exact (k.launch.threadgroup.decides_resolve b).map (PatchedKernel.mk cells grid)

theorem forall_requirements_iff {k : Kernel} {b : Bindings} : (∀ q ∈ k.requirements b, q.met) ↔
    (∀ u ∈ k.unresolved,
      b.BoundWithin u.label (-2147483648) 2147483647 ∧ u.cell < k.metadata.length) ∧
    ∀ label, .preset label ∈ k.launch.dims → b.BoundWithin label 1 4294967295 := by
  simp only [requirements, List.forall_mem_append, List.forall_mem_flatMap,
    Unresolved.forall_requirements_iff, Dim.forall_requirements_iff]
  refine and_congr_right fun _ => ⟨fun h label hmem => h _ hmem label rfl, ?_⟩
  rintro h d hmem label rfl
  exact h label hmem

end Kernel

structure PatchedKernel.Fills (p : PatchedKernel) (k : Kernel) (b : Bindings) : Prop where
  length : p.cells.length = k.metadata.length
  last : ∀ before u after, k.unresolved = before ++ u :: after → (∀ w ∈ after, w.cell ≠ u.cell) →
    ∃ c : Cell, p.cells[u.cell]? = some c ∧ b.get? u.label = some c.toInt
  rest : ∀ i, (∀ u ∈ k.unresolved, u.cell ≠ i) → p.cells[i]? = k.metadata[i]?
  grid : List.Forall₂ (Dim.Takes b) k.launch.grid.dims p.grid
  threadgroup : List.Forall₂ (Dim.Takes b) k.launch.threadgroup.dims p.threadgroup

namespace Kernel

theorem fills_of_patch {k : Kernel} {b : Bindings} {p : PatchedKernel} (h : k.patch b = .ok p) :
    p.Fills k b := by
  unfold patch at h
  obtain ⟨cells, hcells, h⟩ := bind_eq_ok h
  obtain ⟨grid, hgrid, h⟩ := bind_eq_ok h
  obtain ⟨threadgroup, hthreadgroup, h⟩ := bind_eq_ok h
  cases h
  refine ⟨Unresolved.length_fills hcells, fun before u after hsplit hlast => ?_,
    fun i hi => Unresolved.getElem?_fills hi hcells, LaunchSize.takes_of_resolve hgrid,
    LaunchSize.takes_of_resolve hthreadgroup⟩
  rw [hsplit] at hcells
  exact Unresolved.getElem?_fills_last hlast hcells

/-- A kernel is patched exactly where every label has a value that fits its place, and the first label
or cell that is at fault is reported. -/
theorem patch_verdict (k : Kernel) (b : Bindings) :
    ((∃ p, k.patch b = .ok p) ↔
      (∀ u ∈ k.unresolved,
        b.BoundWithin u.label (-2147483648) 2147483647 ∧ u.cell < k.metadata.length) ∧
      ∀ label, .preset label ∈ k.launch.dims → b.BoundWithin label 1 4294967295) ∧
    (∀ p, k.patch b = .ok p → p.Fills k b) ∧
    ∀ e, k.patch b = .error e ↔ ∃ q, FirstUnmet (k.requirements b) q ∧ q.fault = e :=
  ⟨by rw [(k.decides_patch b).exists_ok_iff, forall_requirements_iff], fun _ => fills_of_patch,
    fun _ => (k.decides_patch b).eq_error_iff⟩

/-- Of two values for one cell the later one stays; its neighbour shares a label with a dimension. -/
example :
    let k : Kernel := ⟨"k_0", "", ⟨.fixed 8 1 1, ⟨.preset "n", .fixed 2, .fixed 1⟩⟩,
      [.static, .metadata [4, 0], .metadata [7]], [⟨1, 4, "a", "n"⟩, ⟨1, 4, "b", "off"⟩]⟩
    k.patch (.ofList [("off", -1), ("n", 512)]) =
      .ok ⟨[4, 4294967295], [8, 1, 1], [512, 2, 1]⟩ := by
  decide

end Kernel

end TensorKernels
