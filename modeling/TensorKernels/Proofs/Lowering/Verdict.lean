import TensorKernels.Proofs.Lowering.Dispatch
import TensorKernels.Proofs.Metadata.Registration
import TensorKernels.Proofs.Requirement

set_option autoImplicit false

namespace TensorKernels

open Requirement

/-- The offset that a cell holds for the place, zero if none does. -/
def Allocation.dynamicOffset : Allocation → Nat
  | ⟨.dynamic, .fixed elements, _⟩ => elements.toNat
  | _ => 0

def MemoryLayout.dynamicOffset (layout : MemoryLayout) (t : Tensor) : Nat :=
  ((layout.get? t.name).map Allocation.dynamicOffset).getD 0

theorem MemoryLayout.dynamicOffset_of_lookup {layout : MemoryLayout} {t : Tensor} {a : Allocation}
    (h : layout.lookup t = .ok a) : layout.dynamicOffset t = a.dynamicOffset := by
  unfold lookup at h
  unfold dynamicOffset
  cases hget : layout.get? t.name with
  | none =>
    rw [hget] at h
    cases h
  | some b =>
    rw [hget] at h
    cases h
    rfl

namespace Operator

variable {op : Operator} {layout : MemoryLayout}

def orderNhwc (op : Operator) (t : Tensor) : Requirement LoweringError where
  met := t.order = .nhwc
  fault := .layoutMismatch op.label t.name Order.nhwc.toString t.order.toString

def indexable (t : Tensor) : Requirement LoweringError where
  met := t.size ≤ maxInt32
  fault := .invalidTensor t.name
    (t.size.repr ++ " elements overflow 32-bit kernel indices (max " ++ maxInt32.repr ++ ")")

def placed (layout : MemoryLayout) (t : Tensor) : Requirement LoweringError where
  met := ∃ a, layout.get? t.name = some a
  fault := .missingLayout t.name

def fitsCell (name what : String) (n : Nat) : Requirement LoweringError where
  met := n ≤ maxInt32
  fault := .invalidParameter name (what ++ n.repr ++ " exceeds the 32-bit metadata cell")

def nameFree (op : Operator) (taken : TakenNames) : Requirement LoweringError where
  met := op.entryName ∉ taken.names
  fault := .duplicateKernelName op.entryName

def metadataRequirements (op : Operator) (layout : MemoryLayout) :
    List (Requirement LoweringError) :=
  [op.orderNhwc op.x, op.orderNhwc op.y, indexable op.x, indexable op.y, placed layout op.x,
    placed layout op.y, fitsCell "r" "" op.block.toNat,
    fitsCell (op.kind.key "x") "offset " (layout.dynamicOffset op.x),
    fitsCell (op.kind.key "y") "offset " (layout.dynamicOffset op.y)]

def requirements (op : Operator) (layout : MemoryLayout) (taken : TakenNames) :
    List (Requirement LoweringError) :=
  op.metadataRequirements layout ++ [op.nameFree taken]

theorem decides_checkOrder (op : Operator) (t : Tensor) :
    Decides [op.orderNhwc t] (op.checkOrder t) := .ite

theorem decides_checkSize (t : Tensor) : Decides [indexable t] (checkSize t) := .ite

theorem decides_lookup (layout : MemoryLayout) (t : Tensor) :
    Decides [placed layout t] (layout.lookup t) := by
  unfold MemoryLayout.lookup
  cases h : layout.get? t.name with
  | some a => exact .met ⟨a, h⟩ (.ok a)
  | none => exact .unmet (q := placed layout t) (by simp [placed, h]) []

theorem decides_extent (name : String) (v : UInt32) :
    Decides [fitsCell name "" v.toNat] (LoadValue.extent name v) := by
  have hfault : (fitsCell name "" v.toNat).fault =
      .invalidParameter name (v.toNat.repr ++ " exceeds the 32-bit metadata cell") := by
    rw [fitsCell, String.empty_append]
  unfold LoadValue.extent
  rw [← hfault]
  exact .ite

theorem decides_loads (hc : op.Checked) (hx : op.x.count < 2 ^ 64) (hy : op.y.count < 2 ^ 64)
    (layout : MemoryLayout) :
    Decides [placed layout op.x, placed layout op.y, fitsCell "r" "" op.block.toNat]
      (op.loads layout) := by
  obtain ⟨n, h1, w1, c1, nhwc_x⟩ := Tensor.exists_isNhwc hc.order_x
  obtain ⟨n2, h2, w2, c2, nhwc_y⟩ := Tensor.exists_isNhwc hc.order_y
  have size_x := hc.size_x
  have size_y := hc.size_y
  rw [Tensor.size_eq_count hx] at size_x
  rw [Tensor.size_eq_count hy] at size_y
  unfold loads
  refine (decides_lookup layout op.x).step fun _ x _ => ?_
  refine (decides_lookup layout op.y).step fun _ y _ => ?_
  refine (decides_extent "r" op.block).step fun _ r _ => ?_
  -- an extent is no greater than the number of elements
  rw [nhwc_x.extentValue_eq size_x, nhwc_x.extentValue_eq size_x, nhwc_x.extentValue_eq size_x,
    nhwc_x.extentValue_eq size_x, nhwc_y.extentValue_eq size_y, nhwc_y.extentValue_eq size_y,
    nhwc_y.extentValue_eq size_y]
  exact .ok _

theorem decides_checkOffsets_cons {rest : Batch} {qs : List (Requirement LoweringError)}
    (key : String) (a : Allocation) (h : Decides qs (Registry.checkOffsets rest)) :
    Decides (fitsCell key "offset " a.dynamicOffset :: qs)
      (Registry.checkOffsets ((key, .allocation a) :: rest)) := by
  obtain ⟨segment, offset, size⟩ := a
  cases segment with
  | static => exact .met (Nat.zero_le _) h
  | dynamic =>
    cases offset with
    | deferred label => exact .met (Nat.zero_le _) h
    | fixed elements =>
      change Decides _ (if elements.toNat ≤ maxInt32 then _ else _)
      split
      · next hle => exact .met hle h
      · next hlarge => exact .unmet (q := fitsCell key "offset " elements.toNat) hlarge qs

theorem decides_register (op : Operator) (x y : Allocation) (scalars : Bindings) :
    Decides [fitsCell (op.kind.key "x") "offset " x.dynamicOffset,
        fitsCell (op.kind.key "y") "offset " y.dynamicOffset]
      (Registry.empty.register (op.batchOf x y scalars)) := by
  have hkeys : ¬ Registry.empty.Repeats (op.batchOf x y scalars) := by
    rw [Registry.not_repeats_iff]
    change (op.kind.key "x" :: op.kind.key "y" :: blockScalars.map op.kind.key).Nodup
    cases op.kind <;> decide
  have hscalars : Decides [] (Registry.checkOffsets
      (blockScalars.map fun s => (op.kind.key s, .int (scalars.int32 s)))) := .ok ()
  have hoffsets := decides_checkOffsets_cons (op.kind.key "x") x
    (decides_checkOffsets_cons (op.kind.key "y") y hscalars)
  unfold Registry.register
  split
  · next key hrepeat =>
    rw [Registry.firstRepeat?_eq_none_iff.2 hkeys] at hrepeat
    cases hrepeat
  · exact hoffsets.map _

theorem decides_metadata (hx : op.x.count < 2 ^ 64) (hy : op.y.count < 2 ^ 64)
    (layout : MemoryLayout) :
    Decides (op.metadataRequirements layout) (op.metadata layout) := by
  unfold metadata
  refine (decides_checkOrder op op.x).step fun order_x _ _ => ?_
  refine (decides_checkOrder op op.y).step fun order_y _ _ => ?_
  refine (decides_checkSize op.x).step fun size_x _ _ => ?_
  refine (decides_checkSize op.y).step fun size_y _ _ => ?_
  have hc : op.Checked := ⟨order_x, order_y, size_x, size_y⟩
  refine (decides_loads hc hx hy layout).bind fun _ batch hbatch => ?_
  obtain ⟨x, y, scalars, lookup_x, lookup_y, -, -, rfl⟩ := loads_ok hc hbatch
  rw [MemoryLayout.dynamicOffset_of_lookup lookup_x, MemoryLayout.dynamicOffset_of_lookup lookup_y]
  exact decides_register op x y scalars

theorem decides_claim (op : Operator) (taken : TakenNames) :
    Decides [op.nameFree taken] (taken.claim op.entryName) := by
  unfold TakenNames.claim
  split
  · next htaken => exact .unmet (q := op.nameFree taken) (not_not_intro htaken) []
  · next hfree => exact .met hfree (.ok _)

theorem decides_dispatch (hx : op.x.count < 2 ^ 64) (hy : op.y.count < 2 ^ 64) (ctx : LoweringEnv)
    (taken : TakenNames) :
    ∃ m, Decides (op.requirements ctx.layout taken) m ∧
      ((Handlers.standard.dispatch op ctx).outcome taken).1 = m.mapError (.lowering op.label) := by
  refine ⟨do
    let r ← op.metadata ctx.layout
    let _ ← taken.claim op.entryName
    return [op.kernelOf r ctx.launch], ?_, ?_⟩
  · refine (decides_metadata hx hy ctx.layout).bind fun _ r _ => ?_
    exact (op.decides_claim taken).map fun _ => [op.kernelOf r ctx.launch]
  · rw [Handlers.outcome_standard]
    cases op.metadata ctx.layout with
    | error e => rfl
    | ok r =>
      change _ = Except.mapError _ (taken.claim op.entryName >>= fun _ => _)
      cases taken.claim op.entryName with
      | error e => rfl
      | ok taken' => rfl

end Operator

/-- An error that no graph or layout brings about, but only a fault of the lowering itself. -/
def LoweringError.Internal : LoweringError → Prop
  | missingAxis .. | duplicateKey _ | unknownPlaceholder _ | malformedTemplate _ => True
  | invalidParameter name _ => name ∈ ["N", "C1", "C2", "H1", "H2", "W1", "W2"]
  | _ => False

namespace Operator

theorem not_internal_fault {op : Operator} {layout : MemoryLayout} {taken : TakenNames} :
    ∀ q ∈ op.requirements layout taken, ¬ q.fault.Internal := by
  have hkey : ∀ s ∈ ["x", "y"], op.kind.key s ∉ ["N", "C1", "C2", "H1", "H2", "W1", "W2"] := by
    cases op.kind <;> decide
  have hr : "r" ∉ ["N", "C1", "C2", "H1", "H2", "W1", "W2"] := by decide
  simp only [requirements, metadataRequirements, List.cons_append, List.nil_append,
    List.forall_mem_cons]
  exact ⟨not_false, not_false, not_false, not_false, not_false, not_false, hr,
    hkey "x" (by decide), hkey "y" (by decide), not_false, nofun⟩

/-- A dispatch succeeds where all that it asks for holds, and otherwise it reports the first thing
that does not. -/
theorem dispatch_verdict {op : Operator} (hx : op.x.count < 2 ^ 64) (hy : op.y.count < 2 ^ 64)
    (ctx : LoweringEnv) (taken : TakenNames) :
    let result := ((Handlers.standard.dispatch op ctx).outcome taken).1
    let requirements := op.requirements ctx.layout taken
    ((∃ kernels, result = .ok kernels) ↔ ∀ q ∈ requirements, q.met) ∧
      (∀ e, result = .error e ↔
        ∃ q, FirstUnmet requirements q ∧ e = .lowering op.label q.fault) ∧
      ∀ cause, result = .error (.lowering op.label cause) → ¬ cause.Internal := by
  intro result requirements
  obtain ⟨m, hm, hresult⟩ := decides_dispatch hx hy ctx taken
  have herror (e : LoweringError) : result = .error e ↔
      ∃ q, FirstUnmet requirements q ∧ e = .lowering op.label q.fault := by
    rw [← hm.mapError_eq_error_iff, ← hresult]
  refine ⟨?_, herror, ?_⟩
  · rw [← hm.mapError_exists_ok_iff (LoweringError.lowering op.label), ← hresult]
  · intro cause hcause
    obtain ⟨q, hq, hfault⟩ := (herror _).1 hcause
    cases hfault
    exact not_internal_fault q hq.mem

/-- Only the first of three faults is reported: the output is too large, the layout has no place
for it, and the block size does not fit a cell. -/
theorem dispatch_verdict_large_output : ∃ (op : Operator) (ctx : LoweringEnv),
    op.x.count < 2 ^ 64 ∧ op.y.count < 2 ^ 64 ∧
      ¬ (placed ctx.layout op.y).met ∧ ¬ (fitsCell "r" "" op.block.toNat).met ∧
      ((Handlers.standard.dispatch op ctx).outcome .empty).1 = .error (.lowering "space2depth#3"
        (.invalidTensor "y"
          "18446462598732840960 elements overflow 32-bit kernel indices (max 2147483647)")) := by
  let x : Tensor := ⟨"x", .nhwc, [1, 1, 1, 1], rfl, by simp⟩
  let y : Tensor := ⟨"y", .nhwc, [65536, 65536, 65536, 65535], rfl, by simp⟩
  let op : Operator := ⟨.space2depth, 3, x, y, 4294967295, by decide⟩
  let layout : MemoryLayout := ⟨[("x", ⟨.static, .fixed 0, 1⟩)], by decide⟩
  have hx : op.x.count < 2 ^ 64 := by decide +kernel
  have hy : op.y.count < 2 ^ 64 := by decide +kernel
  have hlarge : ¬ op.y.size ≤ maxInt32 := by decide +kernel
  obtain ⟨-, herror, -⟩ := dispatch_verdict hx hy ⟨layout, .standard⟩ .empty
  have hfirst : FirstUnmet (op.requirements layout .empty) (indexable op.y) := by
    refine ⟨[op.orderNhwc op.x, op.orderNhwc op.y, indexable op.x], _, rfl, ?_, hlarge⟩
    simp only [List.forall_mem_cons, List.not_mem_nil, false_imp_iff, implies_true, and_true]
    exact ⟨rfl, rfl, (by decide +kernel : op.x.size ≤ maxInt32)⟩
  have hfault : (indexable op.y).fault = .invalidTensor "y"
      "18446462598732840960 elements overflow 32-bit kernel indices (max 2147483647)" := by
    decide +kernel
  refine ⟨op, ⟨layout, .standard⟩, hx, hy, ?_, ?_, (herror _).2 ⟨_, hfirst, ?_⟩⟩
  · rintro ⟨a, ha⟩
    cases ha
  · exact (by decide : ¬ (4294967295 : Nat) ≤ maxInt32)
  · have hlabel : op.label = "space2depth#3" := by decide +kernel
    rw [hfault, hlabel]

end Operator

end TensorKernels
