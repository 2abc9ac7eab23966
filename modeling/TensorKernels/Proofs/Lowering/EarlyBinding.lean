import TensorKernels.Proofs.Lowering.Dispatch
import TensorKernels.Proofs.Metadata.Settling

/-! The labels of the dynamic segment can be bound before an operator is lowered, by settling the
layout, or afterwards, by patching the kernel. The two ways differ in nothing that a loader sees. -/

set_option autoImplicit false

namespace TensorKernels

variable {b : Bindings} {layout : MemoryLayout}

theorem MemoryLayout.lookup_corresponds (h : layout.BoundBy b) (t : Tensor) :
    Corresponds (fun a a' => (LoadValue.allocation a).Settles b (.allocation a'))
      (layout.lookup t) ((layout.settle b).lookup t) := by
  rw [lookup_settle]
  cases ha : layout.lookup t with
  | error e => exact .error e
  | ok a => exact .ok (LoadValue.settles_settle (h.of_lookup ha))

theorem Registry.register_corresponds {es fs : List (String × LoadValue)}
    (h : EntriesSettle b es fs) : Corresponds (fun r s => EntriesSettle b r.entries s.entries)
      (Registry.empty.register es) (Registry.empty.register fs) := by
  have hkeys := h.keys_eq
  have hoffsets := h.checkOffsets_eq
  unfold register
  split
  · next he =>
    rw [hkeys] at he
    split
    · next hf =>
      rw [hf, Option.some_inj] at he
      exact he ▸ .error _
    · next hf => cases hf ▸ he
  · next he =>
    rw [hkeys] at he
    split
    · next hf => cases hf ▸ he
    · next hf =>
      rw [hoffsets]
      exact .bind (.refl _) fun _ _ _ => .ok h

namespace Operator

variable {op : Operator}

/-- The values that do not depend on the layout. -/
def scalarLoads (op : Operator) : Except LoweringError (List (String × LoadValue)) := do
  let r ← LoadValue.extent "r" op.block
  let n ← extentValue "N" op.x .n
  let c1 ← extentValue "C1" op.x .c
  let c2 ← extentValue "C2" op.y .c
  let h1 ← extentValue "H1" op.x .h
  let h2 ← extentValue "H2" op.y .h
  let w1 ← extentValue "W1" op.x .w
  let w2 ← extentValue "W2" op.y .w
  let key := op.kind.key
  return [(key "r", r), (key "N", n), (key "C1", c1), (key "C2", c2), (key "H1", h1),
    (key "H2", h2), (key "W1", w1), (key "W2", w2)]

theorem loads_eq_bind (op : Operator) (layout : MemoryLayout) : op.loads layout = (do
    let x ← layout.lookup op.x
    let y ← layout.lookup op.y
    let scalars ← op.scalarLoads
    return (op.kind.key "x", .allocation x) :: (op.kind.key "y", .allocation y) :: scalars) := by
  unfold loads scalarLoads
  simp only [bind_assoc, pure_bind]

theorem loads_corresponds (h : layout.BoundBy b) :
    Corresponds (Registry.EntriesSettle b) (op.loads layout) (op.loads (layout.settle b)) := by
  rw [loads_eq_bind, loads_eq_bind]
  refine (layout.lookup_corresponds h op.x).bind fun x x' hx => ?_
  refine (layout.lookup_corresponds h op.y).bind fun y y' hy => ?_
  refine (Corresponds.refl op.scalarLoads).bind fun scalars _ hscalars => ?_
  subst hscalars
  refine .ok (.cons ⟨rfl, hx⟩ (.cons ⟨rfl, hy⟩ ?_))
  exact List.forall₂_same.2 fun e _ => ⟨rfl, .refl _⟩

theorem metadata_corresponds (h : layout.BoundBy b) :
    Corresponds (fun r s => Registry.EntriesSettle b r.entries s.entries)
      (op.metadata layout) (op.metadata (layout.settle b)) := by
  unfold metadata
  refine (Corresponds.refl _).bind fun _ _ _ => ?_
  refine (Corresponds.refl _).bind fun _ _ _ => ?_
  refine (Corresponds.refl _).bind fun _ _ _ => ?_
  refine (Corresponds.refl _).bind fun _ _ _ => ?_
  exact (loads_corresponds h).bind fun _ _ hbatch => Registry.register_corresponds hbatch

theorem patch_kernelOf (r : Registry) (launch : Launch) : (op.kernelOf r launch).patch b = (do
    let cells ← Registry.filled b [] r.entries
    let grid ← launch.grid.resolve b
    let threadgroup ← launch.threadgroup.resolve b
    return ⟨cells, grid, threadgroup⟩) := rfl

/-- The kernels have one text, and the loader makes one patched kernel of them or refuses both. -/
def PatchedAlike (b : Bindings) (k k' : Kernel) : Prop :=
  k.source = k'.source ∧ k.patch b = k'.patch b

theorem patchedAlike_kernelOf {r s : Registry} (h : Registry.EntriesSettle b r.entries s.entries)
    (launch : Launch) : PatchedAlike b (op.kernelOf r launch) (op.kernelOf s launch) := by
  constructor
  · unfold kernelOf
    rw [Registry.loadText_eq_of_settle h]
  · rw [patch_kernelOf, patch_kernelOf, h.filled_eq]

theorem dispatch_corresponds (h : layout.BoundBy b) (op : Operator) (launch : Launch)
    (taken : TakenNames) :
    let late := (Handlers.standard.dispatch op ⟨layout, launch⟩).outcome taken
    let early := (Handlers.standard.dispatch op ⟨layout.settle b, launch⟩).outcome taken
    late.2 = early.2 ∧
      Corresponds (fun ks ks' => ∃ k k', ks = [k] ∧ ks' = [k'] ∧ PatchedAlike b k k')
        late.1 early.1 := by
  dsimp only
  rw [Handlers.outcome_standard, Handlers.outcome_standard]
  have hmetadata : Corresponds _ (op.metadata layout) _ := metadata_corresponds h
  generalize op.metadata layout = late, op.metadata (layout.settle b) = early at hmetadata
  cases hmetadata with
  | error e => exact ⟨rfl, .error _⟩
  | ok hentries =>
    cases taken.claim op.entryName with
    | error e => exact ⟨rfl, .error _⟩
    | ok taken' => exact ⟨rfl, .ok ⟨_, _, rfl, rfl, patchedAlike_kernelOf hentries launch⟩⟩

/-- Late patching equals early binding. Labels may be shared by several tensors and launch sizes,
and those of the static segment stay in both layouts. -/
theorem patch_settle (h : layout.BoundBy b) (op : Operator) (launch : Launch) (taken : TakenNames) :
    let late := (Handlers.standard.dispatch op ⟨layout, launch⟩).outcome taken
    let early := (Handlers.standard.dispatch op ⟨layout.settle b, launch⟩).outcome taken
    ((∃ kernels, late.1 = .ok kernels) ↔ ∃ kernels, early.1 = .ok kernels) ∧
      late.2 = early.2 ∧
      ∀ kernels kernels', late.1 = .ok kernels → early.1 = .ok kernels' →
        ∃ k k', kernels = [k] ∧ kernels' = [k'] ∧ k.source = k'.source ∧ k.patch b = k'.patch b := by
  obtain ⟨htaken, hkernels⟩ := dispatch_corresponds h op launch taken
  refine ⟨hkernels.exists_ok_iff, htaken, fun kernels kernels' hlate hearly => ?_⟩
  rw [hlate, hearly] at hkernels
  cases hkernels with
  | ok hab => exact hab

/-- One label stands for the place of a dynamic tensor, that of a static tensor and a dimension of
the grid. -/
theorem patch_settle_shared_label : ∃ (op : Operator) (layout : MemoryLayout) (launch : Launch)
    (b : Bindings) (k k' : Kernel),
      layout.lookup op.x = .ok ⟨.dynamic, .deferred "shared", 8⟩ ∧
      layout.lookup op.y = .ok ⟨.static, .deferred "shared", 8⟩ ∧
      launch.grid.x = .preset "shared" ∧ layout.BoundBy b ∧
      ((Handlers.standard.dispatch op ⟨layout, launch⟩).outcome .empty).1 = .ok [k] ∧
      ((Handlers.standard.dispatch op ⟨layout.settle b, launch⟩).outcome .empty).1 = .ok [k'] ∧
      k.source = k'.source ∧ k.patch b = k'.patch b := by
  let op : Operator := ⟨.space2depth, 7, ⟨"x", .nhwc, [1, 2, 2, 2], rfl, by simp⟩,
    ⟨"y", .nhwc, [1, 1, 1, 8], rfl, by simp⟩, 2, by decide⟩
  let layout : MemoryLayout := ⟨[("x", ⟨.dynamic, .deferred "shared", 8⟩),
    ("y", ⟨.static, .deferred "shared", 8⟩)], by decide⟩
  let launch : Launch := ⟨⟨.preset "shared", .fixed 1, .fixed 1⟩, .maxThreads⟩
  let b : Bindings := ⟨[("shared", 64), (maxThreadsLabel, 256)]⟩
  have hb : layout.BoundBy b := by
    intro e he label size hlabel
    rcases List.mem_pair.1 he with rfl | rfl
    · cases hlabel
      exact ⟨64, by decide, rfl⟩
    · cases hlabel
  obtain ⟨k, taken, hlate⟩ := Handlers.exists_standard_ok op ⟨layout, launch⟩ (by decide +kernel)
  obtain ⟨k', taken', hearly⟩ :=
    Handlers.exists_standard_ok op ⟨layout.settle b, launch⟩ (by decide +kernel)
  obtain ⟨-, -, h⟩ := patch_settle hb op launch .empty
  obtain ⟨_, _, hk, hk', hsource, hpatch⟩ :=
    h [k] [k'] (congrArg Prod.fst hlate) (congrArg Prod.fst hearly)
  cases hk
  cases hk'
  exact ⟨op, layout, launch, b, k, k', rfl, rfl, rfl, hb, congrArg Prod.fst hlate,
    congrArg Prod.fst hearly, hsource, hpatch⟩

end Operator

end TensorKernels
