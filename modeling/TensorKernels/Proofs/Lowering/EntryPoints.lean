import Mathlib.Data.List.Forall2
import TensorKernels.Program
import TensorKernels.Proofs.Lowering.Schedule
import TensorKernels.Proofs.Lowering.Verdict

set_option autoImplicit false

namespace TensorKernels

/-- The kernel bears the name of the operator, also as its entry point and in its only source. -/
structure Kernel.BearsName (k : Kernel) (op : Operator) : Prop where
  name : k.name = op.kind.tag ++ "_" ++ op.id.toNat.repr
  entryPoint : k.entryPoint = k.name
  sources : k.sources = [(k.name, k.source)]
  head : ∃ rest, k.source = "kernel void " ++ k.name ++ "(" ++ rest

/-- The kernels of a graph bear the names of its operators, and are found by them. -/
structure Graph.Names (g : Graph) (kernels : List Kernel) : Prop where
  bears : List.Forall₂ (fun op k => k.BearsName op) g.operators kernels
  nodup : (kernels.map Kernel.name).Nodup
  found : List.Forall₂ (fun op k => (Program.mk kernels).kernel? op.entryName = some k)
    g.operators kernels
  notFound : ∀ name, (∀ op ∈ g.operators, name ≠ op.entryName) →
    (Program.mk kernels).kernel? name = none

def LoweringError.NotNameTaken (e : LoweringError) : Prop :=
  ∀ name, e.root ≠ .duplicateKernelName name

namespace Program

variable {p : Program}

theorem kernel?_of_mem (hn : (p.kernels.map Kernel.name).Nodup) {k : Kernel} (hk : k ∈ p.kernels) :
    p.kernel? k.name = some k :=
  find?_eq_some_of_nodup hn hk

theorem kernel?_eq_none {name : String} :
    p.kernel? name = none ↔ ∀ k ∈ p.kernels, k.name ≠ name := by
  simp [kernel?]

end Program

namespace Operator

theorem kernelOf_bearsName (op : Operator) (r : Registry) (launch : Launch) :
    (op.kernelOf r launch).BearsName op where
  name := rfl
  entryPoint := rfl
  sources := rfl
  head := Outline.exists_written_eq _ op.entryName r.loadText

theorem checkOrder_failsWith (op : Operator) (t : Tensor) :
    FailsWith LoweringError.NotNameTaken (op.checkOrder t) := .ite nofun

theorem checkSize_failsWith (t : Tensor) : FailsWith LoweringError.NotNameTaken (checkSize t) :=
  .ite nofun

theorem lookup_failsWith (layout : MemoryLayout) (t : Tensor) :
    FailsWith LoweringError.NotNameTaken (layout.lookup t) := by
  unfold MemoryLayout.lookup
  split
  · exact .ok _
  · exact .error nofun

theorem extent_failsWith (name : String) (v : UInt32) :
    FailsWith LoweringError.NotNameTaken (LoadValue.extent name v) := .ite nofun

theorem extentValue_failsWith (name : String) (t : Tensor) (a : Axis) :
    FailsWith LoweringError.NotNameTaken (extentValue name t a) := by
  refine FailsWith.bind ?_ fun d => extent_failsWith name d
  unfold Tensor.extent
  split
  · exact .ok _
  · exact .error nofun

theorem loads_failsWith (op : Operator) (layout : MemoryLayout) :
    FailsWith LoweringError.NotNameTaken (op.loads layout) := by
  unfold loads
  refine (lookup_failsWith layout op.x).bind fun _ => ?_
  refine (lookup_failsWith layout op.y).bind fun _ => ?_
  refine (extent_failsWith "r" op.block).bind fun _ => ?_
  refine (extentValue_failsWith "N" op.x .n).bind fun _ => ?_
  refine (extentValue_failsWith "C1" op.x .c).bind fun _ => ?_
  refine (extentValue_failsWith "C2" op.y .c).bind fun _ => ?_
  refine (extentValue_failsWith "H1" op.x .h).bind fun _ => ?_
  refine (extentValue_failsWith "H2" op.y .h).bind fun _ => ?_
  refine (extentValue_failsWith "W1" op.x .w).bind fun _ => ?_
  exact (extentValue_failsWith "W2" op.y .w).bind fun _ => .ok _

theorem checkOffsets_failsWith (batch : List (String × LoadValue)) :
    FailsWith LoweringError.NotNameTaken (Registry.checkOffsets batch) := by
  induction batch with
  | nil => exact .ok ()
  | cons e batch ih =>
    obtain ⟨key, value⟩ := e
    unfold Registry.checkOffsets
    split
    · split
      · exact ih
      · exact .error nofun
    · exact ih

theorem register_failsWith (r : Registry) (batch : List (String × LoadValue)) :
    FailsWith LoweringError.NotNameTaken (r.register batch) := by
  unfold Registry.register
  split
  · exact .error nofun
  · exact (checkOffsets_failsWith batch).bind fun _ => .ok _

theorem metadata_failsWith (op : Operator) (layout : MemoryLayout) :
    FailsWith LoweringError.NotNameTaken (op.metadata layout) := by
  unfold metadata
  refine (op.checkOrder_failsWith op.x).bind fun _ => ?_
  refine (op.checkOrder_failsWith op.y).bind fun _ => ?_
  refine (checkSize_failsWith op.x).bind fun _ => ?_
  refine (checkSize_failsWith op.y).bind fun _ => ?_
  exact (op.loads_failsWith layout).bind fun batch => register_failsWith .empty batch

end Operator

namespace Graph

variable {g : Graph} {ctx : LoweringEnv} {kernels : List Kernel}

theorem Concatenates.names (h : g.Concatenates ctx kernels) : g.Names kernels := by
  have hkernels := h.eq_kernelOf
  have hbears : List.Forall₂ (fun op k => k.BearsName op) g.operators kernels := by
    refine hkernels.imp fun op k hk => ?_
    obtain ⟨r, -, rfl⟩ := hk
    exact op.kernelOf_bearsName r ctx.launch
  have hnames : kernels.map Kernel.name = g.operators.map Operator.entryName := by
    rw [eq_comm, ← List.forall₂_eq_eq_eq, List.forall₂_map_left_iff, List.forall₂_map_right_iff]
    exact hbears.imp fun op k hk => hk.name.symm
  have hnodup : (kernels.map Kernel.name).Nodup := by
    rw [hnames]
    exact Operator.nodup_entryName g.nodup_ids
  refine ⟨hbears, hnodup, ?_, ?_⟩
  · refine forall₂_imp_of_mem hbears fun op _ k hk hop => ?_
    have hname : k.name = op.entryName := hop.name
    rw [← hname]
    exact Program.kernel?_of_mem hnodup hk
  · intro name hname
    rw [Program.kernel?_eq_none]
    intro k hk e
    have hmem : k.name ∈ g.operators.map Operator.entryName := hnames ▸ List.mem_map_of_mem hk
    obtain ⟨op, hop, he⟩ := List.mem_map.1 hmem
    exact hname op hop (e.symm.trans he.symm)

theorem MayReturn.notNameTaken {e : LoweringError} (h : g.MayReturn .standard ctx (.error e)) :
    e.NotNameTaken := by
  obtain ⟨op, cause, hm, rfl⟩ := h.exists_cause
  have hcause := op.metadata_failsWith ctx.layout cause hm
  exact hcause

/-- A graph is lowered to one kernel for each operator, in execution order, with names that tell the
operators, whether it is lowered in order or on several workers; and a name is never taken twice. -/
theorem lower_names (g : Graph) (layout : MemoryLayout) (c : Configuration)
    {result : Except LoweringError (List Kernel)}
    (h : result = g.lower layout .standard c ∨
      c.parallel = true ∧ g.MayReturn .standard ⟨layout, c.launch⟩ result) :
    (∀ kernels, result = .ok kernels → g.Names kernels) ∧
      ∀ e, result = .error e → e.NotNameTaken := by
  have hreturn : g.MayReturn .standard ⟨layout, c.launch⟩ result := by
    rcases h with rfl | ⟨-, h⟩
    · exact mayReturn_lower
    · exact h
  constructor
  · intro kernels hok
    exact ((hreturn.eq_ok_iff kernels).1 hok).names
  · rintro e rfl
    exact hreturn.notNameTaken

/-- One id ends in the digits of the other, and the two kinds share all but the name. -/
theorem lower_names_one_and_eleven : ∃ (g : Graph) (layout : MemoryLayout) (c : Configuration)
    (kernels : List Kernel), c.parallel = true ∧ g.lower layout .standard c = .ok kernels ∧
      kernels.map Kernel.name = ["depth2space_1", "space2depth_11"] ∧
      (Program.mk kernels).kernel? "depth2space_11" = none := by
  let deep : Tensor := ⟨"x", .nhwc, [1, 1, 1, 8], rfl, by simp⟩
  let wide : Tensor := ⟨"y", .nhwc, [1, 2, 2, 2], rfl, by simp⟩
  let g : Graph :=
    ⟨[⟨.depth2space, 1, deep, wide, 2, by decide⟩, ⟨.space2depth, 11, wide, deep, 2, by decide⟩],
      by decide⟩
  let layout : MemoryLayout :=
    ⟨[("x", ⟨.static, .fixed 0, 8⟩), ("y", ⟨.dynamic, .deferred "later", 8⟩)], by decide⟩
  let c : Configuration := ⟨"metal", .standard, true⟩
  have hmetadata : ∀ op ∈ g.operators, (Operator.metadata op layout).isOk = true := by
    decide +kernel
  obtain ⟨kernels, hk⟩ := exists_lower_ok hmetadata c
  obtain ⟨hbears, -, -, hnotFound⟩ :=
    (lower_names g layout c (.inl rfl)).1 kernels hk
  refine ⟨g, layout, c, kernels, rfl, hk, ?_, hnotFound "depth2space_11" (by decide +kernel)⟩
  cases hbears with | cons hfirst hrest =>
  cases hrest with | cons hsecond hnil =>
  cases hnil
  rw [List.map_cons, List.map_cons, List.map_nil, hfirst.name, hsecond.name]
  decide +kernel

end Graph

end TensorKernels
