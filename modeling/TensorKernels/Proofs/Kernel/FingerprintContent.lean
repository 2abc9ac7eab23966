import TensorKernels.Proofs.Lowering.ProgramIdentity

set_option autoImplicit false

namespace TensorKernels

/-- What the fingerprint of a kernel stands for. -/
@[ext] structure Kernel.Content where
  source : String
  cells : Cells
  unresolved : List Deferral
  launch : Launch
  deriving DecidableEq, Repr

def Kernel.content (k : Kernel) : Content :=
  ⟨k.source, (k.buffers.filterMap Buffer.cells?).flatten, k.unresolved.map Unresolved.deferral,
    k.launch⟩

/-- Keys and labels end where they seem to, and the numbers of cells fit their words. -/
structure Kernel.Delimited (k : Kernel) : Prop where
  unresolved : ∀ u ∈ k.content.unresolved, u.Delimited (256 ^ 8)
  launch : k.launch.NulFree

/-- The parts of the two streams begin at the same places. A value left for the loader cannot be
taken for a dimension unless the number of its cell is very great. -/
structure Kernel.Aligned (k k' : Kernel) : Prop where
  source : k.source.utf8ByteSize = k'.source.utf8ByteSize
  cells : k.content.cells.length = k'.content.cells.length
  unresolved : k.content.unresolved.length = k'.content.unresolved.length ∨
    ∀ u ∈ k.content.unresolved ++ k'.content.unresolved, u.cell < 256 ^ 3

theorem Text.length_utf8 (s : String) : s.toUTF8.toList.length = s.utf8ByteSize := by
  rw [toList_eq_data]
  rfl

namespace Kernel

/-- The bytes of the content. -/
def Content.stream (c : Content) : List UInt8 :=
  c.source.toUTF8.toList ++ (c.cells.flatMap Cell.bytes ++
    (c.unresolved.flatMap Deferral.bytes ++ c.launch.dims.flatMap Dim.bytes))

theorem stream_eq (k : Kernel) : k.stream = k.content.stream := by
  have hcells : (k.buffers.filterMap Buffer.cells?).flatMap Cells.bytes =
      k.content.cells.flatMap Cell.bytes := by
    rw [content, ← List.flatMap_id, List.flatMap_assoc]
    rfl
  unfold stream Content.stream
  rw [flatMap_deferral, hcells, List.append_assoc, List.append_assoc]
  rfl

theorem content_eq_of_stream {k k' : Kernel} (hk : k.Delimited) (hk' : k'.Delimited)
    (h : k.Aligned k') (hstream : k.stream = k'.stream) : k.content = k'.content := by
  rw [stream_eq, stream_eq] at hstream
  unfold Content.stream at hstream
  obtain ⟨hsource, hrest⟩ := List.append_inj hstream (by
    rw [Text.length_utf8, Text.length_utf8]
    exact h.source)
  obtain ⟨hcells, hrest⟩ := selfDelimiting_cell.flatMap _ ⟨rfl, fun _ _ => trivial⟩
    ⟨h.cells.symm, fun _ _ => trivial⟩ hrest
  have hvalues : k.content.unresolved = k'.content.unresolved ∧
      k.content.launch.dims = k'.content.launch.dims := by
    rcases h.unresolved with hcount | hsmall
    · obtain ⟨hvalues, hdims⟩ := selfDelimiting_deferral.flatMap _ ⟨rfl, hk.unresolved⟩
        ⟨hcount.symm, hk'.unresolved⟩ hrest
      have hdims := selfDelimiting_dim.flatMap 6 ⟨rfl, hk.launch⟩ ⟨rfl, hk'.launch⟩
        (congrArg (· ++ []) hdims)
      exact ⟨hvalues, hdims.1⟩
    · rw [List.forall_mem_append] at hsmall
      exact deferrals_dims_injective
        (fun u hu => ⟨hsmall.1 u hu, (hk.unresolved u hu).key, (hk.unresolved u hu).label⟩)
        (fun u hu => ⟨hsmall.2 u hu, (hk'.unresolved u hu).key, (hk'.unresolved u hu).label⟩)
        ⟨rfl, hk.launch⟩ ⟨rfl, hk'.launch⟩ hrest
  have hlaunch := Launch.dims_injective hvalues.2
  exact Content.ext (Text.utf8_injective hsource) hcells hvalues.1 hlaunch

/-- Where keys and labels show their ends and the parts begin at the same places, the stream tells
the content, and the fingerprint tells it unless the two streams have one digest. -/
theorem stream_eq_iff_content {k k' : Kernel} (hk : k.Delimited) (hk' : k'.Delimited)
    (h : k.Aligned k') : (k.stream = k'.stream ↔ k.content = k'.content) ∧
      (Blake3.Separates [k.stream, k'.stream] →
        (k.fingerprint = k'.fingerprint ↔ k.content = k'.content)) := by
  have hstream : k.stream = k'.stream ↔ k.content = k'.content :=
    ⟨content_eq_of_stream hk hk' h, fun hc => by rw [stream_eq, stream_eq, hc]⟩
  refine ⟨hstream, fun hdigest => ?_⟩
  rw [← hstream]
  constructor
  · exact hdigest _ List.mem_cons_self _ (List.mem_cons_of_mem _ List.mem_cons_self)
  · intro hs
    rw [fingerprint, hs, fingerprint]

theorem stream_ne_of_unresolved : ∃ k k' : Kernel, k.Delimited ∧ k'.Delimited ∧ k.Aligned k' ∧
    k.content.unresolved.length = 1 ∧ k'.content.unresolved.length = 0 ∧ k.stream ≠ k'.stream := by
  let buffers : List Buffer := [.static, .dynamic, .metadata [0, 7]]
  let k : Kernel := ⟨"copy_0", "text", .standard, buffers, [⟨0, 0, "copy_x", "later"⟩]⟩
  let k' : Kernel := ⟨"copy_1", "TEXT", .standard, buffers, []⟩
  have hunresolved : ∀ u ∈ k.content.unresolved, u.Delimited (256 ^ 8) := by
    intro u hu
    rw [List.mem_singleton.1 hu]
    exact ⟨by decide, by decide, by decide⟩
  have hk : k.Delimited := ⟨hunresolved, by decide⟩
  have hk' : k'.Delimited := ⟨List.forall_mem_nil _, by decide⟩
  have h : k.Aligned k' := ⟨by decide, rfl, .inr (by decide)⟩
  have hne : k.content ≠ k'.content := by decide
  exact ⟨k, k', hk, hk', h, rfl, rfl, fun hs => hne ((stream_eq_iff_content hk hk' h).1.1 hs)⟩

/-- The end of a text can be read as a cell. And lowering makes two kernels of one operator that have
one stream: the one label of the first holds all that the stream of the second has after its first
label. -/
theorem stream_not_injective :
    (∃ k k' : Kernel, k.stream = k'.stream ∧ k.content.source ≠ k'.content.source ∧
      k.content.cells ≠ k'.content.cells) ∧
    ∃ (op : Operator) (layout layout' : MemoryLayout) (k k' : Kernel) (taken : TakenNames),
      (Handlers.standard.dispatch op ⟨layout, .standard⟩).outcome .empty = (.ok [k], taken) ∧
      (Handlers.standard.dispatch op ⟨layout', .standard⟩).outcome .empty = (.ok [k'], taken) ∧
      k.stream = k'.stream ∧ k.content.unresolved.length = 1 ∧ k'.content.unresolved.length = 2 := by
  constructor
  · refine ⟨⟨"copy", "abcd", .standard, [.metadata []], []⟩,
      ⟨"copy", "", .standard, [.metadata [1684234849]], []⟩, ?_, by decide, by decide⟩
    decide +kernel
  · let op : Operator := ⟨.depth2space, 0, ⟨"x", .nhwc, [1, 1, 1, 8], rfl, by simp⟩,
      ⟨"y", .nhwc, [1, 2, 2, 2], rfl, by simp⟩, 2, by decide⟩
    let joined : Allocation := ⟨.dynamic,
      .deferred "a\x00\x01\x00\x00\x00\x00\x00\x00\x00depth2space_y\x00b", 8⟩
    let layout : MemoryLayout := ⟨[("x", joined), ("y", ⟨.dynamic, .fixed 0, 8⟩)], by decide⟩
    let layout' : MemoryLayout :=
      ⟨[("x", ⟨.dynamic, .deferred "a", 8⟩), ("y", ⟨.dynamic, .deferred "b", 8⟩)], by decide⟩
    let scalars := blockBindings 2 1 8 2 1 2 1 2
    let r : Registry := ⟨op.batchOf joined ⟨.dynamic, .fixed 0, 8⟩ scalars, by decide⟩
    let r' : Registry :=
      ⟨op.batchOf ⟨.dynamic, .deferred "a", 8⟩ ⟨.dynamic, .deferred "b", 8⟩ scalars, by decide⟩
    have hm : op.metadata layout = .ok r := by decide +kernel
    have hm' : op.metadata layout' = .ok r' := by decide +kernel
    have hfresh : op.entryName ∉ TakenNames.empty.names := List.not_mem_nil
    obtain ⟨taken, hc, -⟩ := TakenNames.claim_fresh hfresh
    have hload : ∀ d ∈ (op.kind.outline op.kind.indexMap).decls,
        r.loadText d.key = r'.loadText d.key := by decide +kernel
    have hcells : r.cells = r'.cells := by decide +kernel
    have hunresolved : r.unresolved.flatMap Unresolved.bytes =
        r'.unresolved.flatMap Unresolved.bytes := by decide +kernel
    refine ⟨op, layout, layout', op.kernelOf r .standard, op.kernelOf r' .standard, taken,
      ?_, ?_, ?_, by decide, by decide⟩
    · rw [Handlers.outcome_standard, hm]
      simp only [hc]
    · rw [Handlers.outcome_standard, hm']
      simp only [hc]
    · rw [Operator.stream_kernelOf, Operator.stream_kernelOf, Outline.written_congr hload, hcells,
        hunresolved]

end Kernel

end TensorKernels
