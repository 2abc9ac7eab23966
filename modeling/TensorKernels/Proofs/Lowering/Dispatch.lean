import TensorKernels.Lowering
import TensorKernels.Proofs.Kernel.OutlineText
import TensorKernels.Proofs.Lowering.Outcome
import TensorKernels.Proofs.Metadata.Cells
import TensorKernels.Proofs.Tensor.Extents

set_option autoImplicit false

namespace TensorKernels

def Bindings.int32 (b : Bindings) (name : String) : Int32 := .ofNat ((b.get? name).getD 0).toNat

namespace LoadValue

theorem extent_of_le {name : String} {v : UInt32} (h : v.toNat ≤ maxInt32) :
    extent name v = .ok (.int (.ofNat v.toNat)) := by
  rw [extent, if_pos h, toInt32_eq]

theorem eq_of_extent {name : String} {v : UInt32} {value : LoadValue}
    (h : extent name v = .ok value) : value = .int (.ofNat v.toNat) ∧ v.toNat ≤ maxInt32 := by
  by_cases hle : v.toNat ≤ maxInt32
  · rw [extent_of_le hle] at h
    cases h
    exact ⟨rfl, hle⟩
  · rw [extent, if_neg hle] at h
    cases h

end LoadValue

theorem Bindings.get?_int32 {b : Bindings} {name : String} {n : Nat}
    (h : b.get? name = some (n : Int)) (hn : n ≤ maxInt32) :
    b.get? name = some (b.int32 name).toInt := by
  have hget : b.int32 name = .ofNat n := by
    rw [int32, h, Option.getD_some, Int.toNat_natCast]
  rw [hget, toInt_ofNat_of_le hn, h]

namespace Tensor.IsNhwc

variable {t : Tensor} {n h w c : Nat}

theorem extentValue_eq (ht : t.IsNhwc n h w c) (hs : t.count ≤ maxInt32) (name : String) (a : Axis) :
    Operator.extentValue name t a = .ok (.int (.ofNat (ofAxis n h w c a))) := by
  obtain ⟨d, hd, e⟩ := ht.extent_eq a
  have hle : d.toNat ≤ maxInt32 := by
    rw [e]
    exact Nat.le_trans (ht.le_count a) hs
  rw [Operator.extentValue, hd, ← e]
  exact LoadValue.extent_of_le hle

/-- An extent is checked on its own as well, since the count of the elements may have wrapped. -/
theorem eq_of_extentValue (ht : t.IsNhwc n h w c) {name : String} {a : Axis} {value : LoadValue}
    (hvalue : Operator.extentValue name t a = .ok value) :
    value = .int (.ofNat (ofAxis n h w c a)) ∧ ofAxis n h w c a ≤ maxInt32 := by
  obtain ⟨d, hd, e⟩ := ht.extent_eq a
  rw [Operator.extentValue, hd] at hvalue
  rw [← e]
  exact LoadValue.eq_of_extent hvalue

end Tensor.IsNhwc

namespace Operator

/-- The values of a kernel: the places of its tensors, then its scalars. -/
def batchOf (op : Operator) (x y : Allocation) (scalars : Bindings) : List (String × LoadValue) :=
  (op.kind.key "x", .allocation x) :: (op.kind.key "y", .allocation y) ::
    blockScalars.map fun s => (op.kind.key s, .int (scalars.int32 s))

theorem order_eq_of_checkOrder {op : Operator} {t : Tensor} {u : Unit}
    (h : op.checkOrder t = .ok u) : t.order = .nhwc := by
  unfold checkOrder at h
  split at h
  · assumption
  · cases h

theorem le_of_checkSize {t : Tensor} {u : Unit} (h : checkSize t = .ok u) : t.size ≤ maxInt32 := by
  unfold checkSize at h
  split at h
  · assumption
  · cases h

theorem get?_blockBindings {r n c1 c2 h1 h2 w1 w2 : Nat}
    (hle : ∀ v ∈ [r, n, c1, c2, h1, h2, w1, w2], v ≤ maxInt32) :
    ∀ s ∈ blockScalars, (blockBindings r n c1 c2 h1 h2 w1 w2).get? s =
      some ((blockBindings r n c1 c2 h1 h2 w1 w2).int32 s).toInt := by
  simp only [blockScalars, List.forall_mem_cons, List.not_mem_nil, false_imp_iff, implies_true,
    and_true] at hle ⊢
  obtain ⟨hr, hn, hc1, hc2, hh1, hh2, hw1, hw2⟩ := hle
  exact ⟨Bindings.get?_int32 rfl hr, Bindings.get?_int32 rfl hn, Bindings.get?_int32 rfl hc1,
    Bindings.get?_int32 rfl hc2, Bindings.get?_int32 rfl hh1, Bindings.get?_int32 rfl hh2,
    Bindings.get?_int32 rfl hw1, Bindings.get?_int32 rfl hw2⟩

/-- What has been checked before the metadata of an operator is registered. -/
structure Checked (op : Operator) : Prop where
  order_x : op.x.order = .nhwc
  order_y : op.y.order = .nhwc
  size_x : op.x.size ≤ maxInt32
  size_y : op.y.size ≤ maxInt32

theorem checked_of_metadata {op : Operator} {layout : MemoryLayout} {r : Registry}
    (h : op.metadata layout = .ok r) : op.Checked := by
  unfold metadata at h
  obtain ⟨_, ox, h⟩ := bind_eq_ok h
  obtain ⟨_, oy, h⟩ := bind_eq_ok h
  obtain ⟨_, sx, h⟩ := bind_eq_ok h
  obtain ⟨_, sy, -⟩ := bind_eq_ok h
  exact ⟨order_eq_of_checkOrder ox, order_eq_of_checkOrder oy, le_of_checkSize sx,
    le_of_checkSize sy⟩

theorem loads_ok {op : Operator} (hc : op.Checked) {layout : MemoryLayout}
    {batch : List (String × LoadValue)} (h : op.loads layout = .ok batch) :
    ∃ x y scalars, layout.lookup op.x = .ok x ∧ layout.lookup op.y = .ok y ∧
      op.scalars = .ok scalars ∧
      (∀ s ∈ blockScalars, scalars.get? s = some (scalars.int32 s).toInt) ∧
      batch = op.batchOf x y scalars := by
  obtain ⟨n, h1, w1, c1, hx⟩ := Tensor.exists_isNhwc hc.order_x
  obtain ⟨n2, h2, w2, c2, hy⟩ := Tensor.exists_isNhwc hc.order_y
  unfold loads at h
  obtain ⟨x, lx, h⟩ := bind_eq_ok h
  obtain ⟨y, ly, h⟩ := bind_eq_ok h
  obtain ⟨_, er, h⟩ := bind_eq_ok h
  obtain ⟨_, en, h⟩ := bind_eq_ok h
  obtain ⟨_, ec1, h⟩ := bind_eq_ok h
  obtain ⟨_, ec2, h⟩ := bind_eq_ok h
  obtain ⟨_, eh1, h⟩ := bind_eq_ok h
  obtain ⟨_, eh2, h⟩ := bind_eq_ok h
  obtain ⟨_, ew1, h⟩ := bind_eq_ok h
  obtain ⟨_, ew2, h⟩ := bind_eq_ok h
  cases h
  obtain ⟨rfl, hr⟩ := LoadValue.eq_of_extent er
  obtain ⟨rfl, hn⟩ := hx.eq_of_extentValue en
  obtain ⟨rfl, hc1⟩ := hx.eq_of_extentValue ec1
  obtain ⟨rfl, hc2⟩ := hy.eq_of_extentValue ec2
  obtain ⟨rfl, hh1⟩ := hx.eq_of_extentValue eh1
  obtain ⟨rfl, hh2⟩ := hy.eq_of_extentValue eh2
  obtain ⟨rfl, hw1⟩ := hx.eq_of_extentValue ew1
  obtain ⟨rfl, hw2⟩ := hy.eq_of_extentValue ew2
  refine ⟨x, y, _, lx, ly, scalars_eq hx hy, get?_blockBindings ?_, rfl⟩
  simp only [List.forall_mem_cons, List.not_mem_nil, false_imp_iff, implies_true, and_true]
  exact ⟨hr, hn, hc1, hc2, hh1, hh2, hw1, hw2⟩

theorem metadata_ok {op : Operator} {layout : MemoryLayout} {r : Registry}
    (h : op.metadata layout = .ok r) : ∃ x y scalars, layout.lookup op.x = .ok x ∧
      layout.lookup op.y = .ok y ∧ op.scalars = .ok scalars ∧
      (∀ s ∈ blockScalars, scalars.get? s = some (scalars.int32 s).toInt) ∧
      r.entries = op.batchOf x y scalars := by
  have hc := checked_of_metadata h
  unfold metadata at h
  obtain ⟨_, -, h⟩ := bind_eq_ok h
  obtain ⟨_, -, h⟩ := bind_eq_ok h
  obtain ⟨_, -, h⟩ := bind_eq_ok h
  obtain ⟨_, -, h⟩ := bind_eq_ok h
  obtain ⟨batch, hb, h⟩ := bind_eq_ok h
  obtain ⟨x, y, scalars, lx, ly, hscalars, hvalues, rfl⟩ := loads_ok hc hb
  exact ⟨x, y, scalars, lx, ly, hscalars, hvalues, Registry.entries_register h⟩

theorem offsets_of_metadata {op : Operator} {layout : MemoryLayout} {r : Registry}
    (h : op.metadata layout = .ok r) :
    ∀ e ∈ r.entries, ∀ elements, e.2.cellOffset? = some elements → elements.toNat ≤ maxInt32 := by
  unfold metadata at h
  obtain ⟨_, -, h⟩ := bind_eq_ok h
  obtain ⟨_, -, h⟩ := bind_eq_ok h
  obtain ⟨_, -, h⟩ := bind_eq_ok h
  obtain ⟨_, -, h⟩ := bind_eq_ok h
  obtain ⟨batch, -, h⟩ := bind_eq_ok h
  rw [Registry.entries_register h]
  exact Registry.le_of_checkOffsets (Registry.checkOffsets_of_register h)

end Operator

namespace OperatorKind

theorem decls_outline (kind : OperatorKind) (map : IndexMap) : (kind.outline map).decls =
    ⟨.input, "x", kind.key "x"⟩ :: ⟨.output, "y", kind.key "y"⟩ ::
      blockScalars.map fun s => ⟨.int, s, kind.key s⟩ := rfl

theorem isKey_key (kind : OperatorKind) :
    ∀ s ∈ "x" :: "y" :: blockScalars, Template.isKey (kind.key s).toList := by
  cases kind <;> decide

theorem loop_wellNamed (kind : OperatorKind) :
    ∀ l ∈ (kind.outline kind.indexMap).loop, l.WellNamed := by
  cases kind <;> rintro _ ⟨⟩ <;>
    exact ⟨by decide, by decide, by decide, by decide, by decide, by decide⟩

theorem outline_wellNamed (kind : OperatorKind) : (kind.outline kind.indexMap).WellNamed where
  keys := by
    have h := kind.isKey_key
    rw [decls_outline]
    simpa using h
  names := by
    have h : ∀ s ∈ "x" :: "y" :: blockScalars, Undelimited s := by decide
    rw [decls_outline]
    simpa using h
  loop := kind.loop_wellNamed

end OperatorKind

namespace Operator

/-- The kernel of an operator, once its metadata is there. -/
def kernelOf (op : Operator) (r : Registry) (launch : Launch) : Kernel :=
  ⟨op.entryName, (op.kind.outline op.kind.indexMap).written op.entryName r.loadText, launch,
    r.buffers, r.unresolved⟩

theorem keys_of_metadata {op : Operator} {layout : MemoryLayout} {r : Registry}
    (h : op.metadata layout = .ok r) :
    r.keys = (op.kind.outline op.kind.indexMap).decls.map Decl.key := by
  obtain ⟨x, y, scalars, -, -, -, -, he⟩ := metadata_ok h
  rw [Registry.keys, he]
  rfl

theorem outcome_blockKernel (op : Operator) (ctx : LoweringEnv) (taken : TakenNames) :
    (op.blockKernel ctx).outcome taken =
      match op.metadata ctx.layout with
      | .error e => (.error e, taken)
      | .ok r =>
        match taken.claim op.entryName with
        | .error e => (.error e, taken)
        | .ok taken' => (.ok [op.kernelOf r ctx.launch], taken') := by
  unfold blockKernel
  cases hm : op.metadata ctx.layout with
  | error e => exact Lowering.outcome_bind_error (Lowering.outcome_ofExcept rfl)
  | ok r =>
    rw [Lowering.outcome_bind_ok (Lowering.outcome_ofExcept rfl)]
    cases hc : taken.claim op.entryName with
    | error e => exact Lowering.outcome_bind_error (Lowering.outcome_claimName_error hc)
    | ok taken' =>
      -- every key of the outline is registered, so neither pass over its text can fail
      have hload : ∀ d ∈ (op.kind.outline op.kind.indexMap).decls,
          r.load d.key = .ok (r.loadText d.key) := by
        intro d hd
        apply r.load_eq
        rw [keys_of_metadata hm]
        exact List.mem_map_of_mem hd
      obtain ⟨text, hinject, hname⟩ := Outline.inject_text (s := ⟨r, []⟩)
        op.kind.outline_wellNamed op.entryName hload r.notMem_loadText
      rw [Lowering.outcome_bind_ok (Lowering.outcome_claimName_ok hc)]
      rw [Lowering.outcome_bind_ok (Lowering.outcome_ofExcept hinject)]
      rw [Lowering.outcome_bind_ok (Lowering.outcome_ofExcept hname)]
      rfl

end Operator

theorem Handlers.dispatch_of_get? {hs : Handlers} {op : Operator} {handler : Handler}
    (h : hs.get? op.kind = some handler) (ctx : LoweringEnv) :
    hs.dispatch op ctx = (handler op ctx).adapt (.lowering op.label) := by
  unfold dispatch
  rw [h]

theorem Handlers.get?_standard (kind : OperatorKind) : standard.get? kind = some (block kind) := by
  cases kind <;> rfl

theorem Handlers.outcome_standard (op : Operator) (ctx : LoweringEnv) (taken : TakenNames) :
    (standard.dispatch op ctx).outcome taken =
      match op.metadata ctx.layout with
      | .error e => (.error (.lowering op.label e), taken)
      | .ok r =>
        match taken.claim op.entryName with
        | .error e => (.error (.lowering op.label e), taken)
        | .ok taken' => (.ok [op.kernelOf r ctx.launch], taken') := by
  have hblock : block op.kind op ctx = op.blockKernel ctx := if_pos rfl
  rw [dispatch_of_get? (get?_standard op.kind), hblock]
  change Lowering.outcome ((op.blockKernel ctx).adapt _) taken = _
  rw [Lowering.outcome_adapt, Operator.outcome_blockKernel]
  cases op.metadata ctx.layout with
  | error e => rfl
  | ok r =>
    cases taken.claim op.entryName with
    | error e => rfl
    | ok taken' => rfl

theorem Handlers.standard_ok {op : Operator} {ctx : LoweringEnv} {taken taken' : TakenNames}
    {kernels : List Kernel}
    (h : (standard.dispatch op ctx).outcome taken = (.ok kernels, taken')) :
    ∃ r, op.metadata ctx.layout = .ok r ∧ taken.claim op.entryName = .ok taken' ∧
      kernels = [op.kernelOf r ctx.launch] := by
  rw [outcome_standard] at h
  cases hm : op.metadata ctx.layout with
  | error e => simp [hm] at h
  | ok r =>
    cases hc : taken.claim op.entryName with
    | error e => simp [hm, hc] at h
    | ok t =>
      simp only [hm, hc, Prod.mk.injEq, Except.ok.injEq] at h
      exact ⟨r, rfl, congrArg Except.ok h.2, h.1.symm⟩

theorem Handlers.exists_standard_ok (op : Operator) (ctx : LoweringEnv)
    (h : (op.metadata ctx.layout).isOk = true) : ∃ kernel taken,
      (standard.dispatch op ctx).outcome .empty = (.ok [kernel], taken) := by
  obtain ⟨r, hm⟩ := exists_ok_of_isOk h
  have hfresh : op.entryName ∉ TakenNames.empty.names := List.not_mem_nil
  obtain ⟨taken, hc, -⟩ := TakenNames.claim_fresh hfresh
  refine ⟨op.kernelOf r ctx.launch, taken, ?_⟩
  rw [outcome_standard, hm]
  simp only [hc]

end TensorKernels
