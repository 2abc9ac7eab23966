import TensorKernels.Program
import TensorKernels.Proofs.Digest.Evaluation
import TensorKernels.Proofs.Lowering.KernelIdentity
import TensorKernels.Proofs.Lowering.Schedule

/-! Names of different length run into the fingerprints after them. Still no two programs that
lowering makes have one stream: if one name had more digits than the other, then the names after them
would be shifted by a few bytes, and the first bytes of a name do not come again so soon. -/

set_option autoImplicit false

namespace TensorKernels

/-- The streams that occur have different digests where they differ. -/
def Blake3.Separates (streams : List (List UInt8)) : Prop :=
  ∀ s ∈ streams, ∀ t ∈ streams, digest s = digest t → s = t

theorem Blake3.separates_self (s : List UInt8) : Separates [s, s] := by
  intro a ha b hb _
  rw [List.mem_pair, or_self] at ha hb
  rw [ha, hb]

theorem Blake3.separates_pair {s t : List UInt8} (h : digest s ≠ digest t) :
    Separates [s, t, s, t] := by
  have hmem {a : List UInt8} (ha : a ∈ [s, t, s, t]) : a = s ∨ a = t := by
    have htwice : a ∈ [s, t] ++ [s, t] := ha
    rw [List.mem_append, or_self] at htwice
    exact List.mem_pair.1 htwice
  intro a ha b hb hab
  rcases hmem ha with rfl | rfl <;> rcases hmem hb with rfl | rfl
  · rfl
  · exact absurd hab h
  · exact absurd hab.symm h
  · rfl

def OperatorKind.lead (kind : OperatorKind) : List UInt8 := (kind.tag ++ "_").toUTF8.toList

namespace OperatorKind

theorem length_lead (kind : OperatorKind) : kind.lead.length = 12 := by
  cases kind <;> decide +kernel

/-- The lead of a name does not come again within the lead of another name. -/
theorem lead_not_shifted (kind kind' : OperatorKind) :
    ∀ n < 12, 0 < n → kind.lead.drop n ≠ kind'.lead.take (12 - n) := by
  cases kind <;> cases kind' <;> decide +kernel

end OperatorKind

theorem Operator.utf8_entryName (op : Operator) :
    op.entryName.toUTF8.toList = op.kind.lead ++ op.id.toNat.repr.toUTF8.toList := by
  rw [entryName, Text.utf8_append, OperatorKind.lead]

theorem length_utf8_repr (v : UInt32) : v.toNat.repr.toUTF8.toList.length ≤ 10 := by
  have hascii : ∀ c ∈ v.toNat.repr.toList, c.toNat < 128 := by
    intro c hc
    rw [Nat.toList_repr] at hc
    have hdigit := Nat.isDigit_of_mem_toDigits (by decide) (by decide) hc
    simp only [Char.isDigit, Bool.and_eq_true, decide_eq_true_eq] at hdigit
    have hle := UInt32.le_iff_toNat_le.1 hdigit.2
    exact Nat.lt_of_le_of_lt hle (by decide)
  rw [Text.length_utf8_of_ascii hascii]
  exact (Nat.length_repr_le_iff (by decide)).2 (Nat.lt_of_lt_of_le v.toNat_lt (by decide))

namespace Program

variable {ks ks' : List Kernel}

theorem stream_cons (k : Kernel) (ks : List Kernel) :
    stream ⟨k :: ks⟩ = k.name.toUTF8.toList ++ (k.fingerprint ++ stream ⟨ks⟩) := by
  rw [stream, List.flatMap_cons, List.append_assoc]
  rfl

theorem exists_lead {k : Kernel} (h : k.Named) (ks : List Kernel) :
    ∃ kind : OperatorKind, ∃ rest, stream ⟨k :: ks⟩ = kind.lead ++ rest := by
  obtain ⟨op, hop⟩ := h
  rw [stream_cons, hop, op.utf8_entryName, List.append_assoc]
  exact ⟨_, _, rfl⟩

theorem lead_le_stream {k : Kernel} (h : k.Named) (ks : List Kernel) :
    12 ≤ (stream ⟨k :: ks⟩).length := by
  obtain ⟨kind, rest, hlead⟩ := exists_lead h ks
  rw [hlead, List.length_append, kind.length_lead]
  exact Nat.le_add_right 12 _

theorem stream_nil : stream ⟨[]⟩ = [] := rfl

/-- No stream begins a few bytes after the beginning of another one. -/
theorem stream_not_shifted (hks : ∀ k ∈ ks, k.Named) (hks' : ∀ k ∈ ks', k.Named) {w : List UInt8}
    (hw : 0 < w.length) (hw' : w.length ≤ 10) : stream ⟨ks⟩ ≠ w ++ stream ⟨ks'⟩ := by
  intro h
  cases ks with
  | nil =>
    rw [stream_nil, eq_comm, List.append_eq_nil_iff] at h
    rw [h.1] at hw
    cases hw
  | cons k ks =>
    have hk := hks k List.mem_cons_self
    cases ks' with
    | nil =>
      have hlength := lead_le_stream hk ks
      rw [h, stream_nil, List.append_nil] at hlength
      omega
    | cons k' ks' =>
      obtain ⟨kind, rest, hlead⟩ := exists_lead hk ks
      obtain ⟨kind', rest', hlead'⟩ := exists_lead (hks' k' List.mem_cons_self) ks'
      rw [hlead, hlead'] at h
      have hshift := congrArg (fun l => (l.take 12).drop w.length) h
      rw [List.take_left' kind.length_lead, List.drop_take, List.drop_left' rfl,
        List.take_append_of_le_length (by rw [kind'.length_lead]; omega)] at hshift
      exact kind.lead_not_shifted kind' w.length (by omega) hw hshift

/-- If one name had more digits than the other, the next names would be shifted. -/
theorem length_le_of_digits (hks : ∀ k ∈ ks, k.Named) (hks' : ∀ k ∈ ks', k.Named)
    {d d' f f' : List UInt8} (hf : f.length = f'.length) (hd' : d'.length ≤ 10)
    (h : d ++ (f ++ stream ⟨ks⟩) = d' ++ (f' ++ stream ⟨ks'⟩)) : d'.length ≤ d.length := by
  by_contra hlt
  have hdrop := congrArg (List.drop (d.length + f.length)) h
  rw [← List.append_assoc, ← List.append_assoc, List.drop_left' List.length_append,
    List.drop_append_of_le_length (by rw [List.length_append]; omega)] at hdrop
  have hlength : ((d' ++ f').drop (d.length + f.length)).length = d'.length - d.length := by
    rw [List.length_drop, List.length_append]
    omega
  exact stream_not_shifted hks hks' (by omega) (by omega) hdrop

theorem stream_injective (hks : ∀ k ∈ ks, k.Named) (hks' : ∀ k ∈ ks', k.Named)
    (h : stream ⟨ks⟩ = stream ⟨ks'⟩) :
    List.Forall₂ (fun k k' => k.name = k'.name ∧ k.fingerprint = k'.fingerprint) ks ks' := by
  -- names and fingerprints are read off one kernel after the other
  induction ks generalizing ks' with
  | nil =>
    cases ks' with
    | nil => exact .nil
    | cons k' ks' =>
      have hlength := lead_le_stream (hks' k' List.mem_cons_self) ks'
      rw [← h] at hlength
      cases hlength
  | cons k ks ih =>
    cases ks' with
    | nil =>
      have hlength := lead_le_stream (hks k List.mem_cons_self) ks
      rw [h] at hlength
      cases hlength
    | cons k' ks' =>
      rw [List.forall_mem_cons] at hks hks'
      obtain ⟨op, hop⟩ := hks.1
      obtain ⟨op', hop'⟩ := hks'.1
      have hf : k.fingerprint.length = k'.fingerprint.length := by
        rw [Kernel.fingerprint, Kernel.fingerprint, Blake3.length_digest, Blake3.length_digest]
      rw [stream_cons, stream_cons, hop, hop', op.utf8_entryName, op'.utf8_entryName,
        List.append_assoc, List.append_assoc] at h
      obtain ⟨hlead, hdigits⟩ := List.append_inj h (by
        rw [op.kind.length_lead, op'.kind.length_lead])
      have hle := length_le_of_digits hks.2 hks'.2 hf (length_utf8_repr op'.id) hdigits
      have hge := length_le_of_digits hks'.2 hks.2 hf.symm (length_utf8_repr op.id) hdigits.symm
      obtain ⟨hid, hrest⟩ := List.append_inj hdigits (Nat.le_antisymm hge hle)
      obtain ⟨hfingerprint, hrest⟩ := List.append_inj hrest hf
      refine .cons ⟨Text.utf8_injective ?_, hfingerprint⟩ (ih hks.2 hks'.2 hrest)
      rw [hop, hop', op.utf8_entryName, op'.utf8_entryName, hlead, hid]

end Program

theorem eq_of_streams {ks ks' : List Kernel}
    (h : List.Forall₂ (fun k k' => k.name = k'.name ∧ k.fingerprint = k'.fingerprint) ks ks')
    (hks : ∀ k ∈ ks, k.Lowered) (hks' : ∀ k ∈ ks', k.Lowered)
    (hstreams : ∀ k ∈ ks, ∀ k' ∈ ks', k.fingerprint = k'.fingerprint → k.stream = k'.stream) :
    ks = ks' := by
  induction h with
  | nil => rfl
  | @cons k k' ks ks' hk _ ih =>
    rw [List.forall_mem_cons] at hks hks'
    have hstream := hstreams k List.mem_cons_self k' List.mem_cons_self hk.2
    rw [hks.1.eq_of_stream hks'.1 hk.1 hstream]
    refine congrArg _ (ih hks.2 hks'.2 fun k hk k' hk' => ?_)
    exact hstreams k (List.mem_cons_of_mem _ hk) k' (List.mem_cons_of_mem _ hk')

theorem Graph.lowered_of_mem {g : Graph} {layout : MemoryLayout} {c : Configuration}
    {kernels : List Kernel} (h : g.lower layout .standard c = .ok kernels)
    (hlayout : layout.NulFree) (hlaunch : c.launch.NulFree) : ∀ k ∈ kernels, k.Lowered := by
  intro k hk
  obtain ⟨op, r, hm, rfl⟩ := exists_kernelOf_of_mem h hk
  obtain ⟨x, y, scalars, hx, hy, -, -, he⟩ := Operator.metadata_ok hm
  exact .intro he (hlayout.of_lookup hx) (hlayout.of_lookup hy) hlaunch

/-- The hash tells the program, unless two streams of the two programs have one digest. -/
theorem Graph.lower_eq_of_hash {g g' : Graph} {layout layout' : MemoryLayout}
    {c c' : Configuration} {p p' : Program}
    (h : g.lower layout .standard c = .ok p.kernels)
    (h' : g'.lower layout' .standard c' = .ok p'.kernels)
    (hlabels : layout.NulFree ∧ c.launch.NulFree)
    (hlabels' : layout'.NulFree ∧ c'.launch.NulFree)
    (hprograms : Blake3.Separates [p.stream, p'.stream])
    (hkernels : Blake3.Separates ((p.kernels ++ p'.kernels).map Kernel.stream))
    (hhash : p.hash = p'.hash) : p = p' := by
  have hlowered := lowered_of_mem h hlabels.1 hlabels.2
  have hlowered' := lowered_of_mem h' hlabels'.1 hlabels'.2
  have hstream : p.stream = p'.stream :=
    hprograms _ List.mem_cons_self _ (List.mem_cons_of_mem _ List.mem_cons_self) hhash
  have hpairs := Program.stream_injective (fun k hk => (hlowered k hk).named)
    (fun k hk => (hlowered' k hk).named) hstream
  have hkernel {q : Program} {k : Kernel} (hq : q = p ∨ q = p') (hk : k ∈ q.kernels) :
      k.stream ∈ (p.kernels ++ p'.kernels).map Kernel.stream := by
    rcases hq with rfl | rfl
    · exact List.mem_map_of_mem (List.mem_append_left _ hk)
    · exact List.mem_map_of_mem (List.mem_append_right _ hk)
  have heq := eq_of_streams hpairs hlowered hlowered' fun k hk k' hk' =>
    hkernels _ (hkernel (.inl rfl) hk) _ (hkernel (.inr rfl) hk')
  obtain ⟨kernels⟩ := p
  obtain ⟨kernels'⟩ := p'
  exact congrArg Program.mk heq

/-- Other names of the tensors and a place that no operator uses make no other program. The names
of its two kernels do not have the same number of digits. -/
theorem Graph.lower_eq_of_hash_renamed : ∃ (g g' : Graph) (layout layout' : MemoryLayout)
    (p p' : Program), g.lower layout .standard .standard = .ok p.kernels ∧
      g'.lower layout' .standard .standard = .ok p'.kernels ∧
      g.operators ≠ g'.operators ∧ layout.size ≠ layout'.size ∧
      p.kernels.map Kernel.name = ["space2depth_9", "space2depth_10"] ∧
      layout.NulFree ∧ layout'.NulFree ∧ Launch.standard.NulFree ∧
      Blake3.Separates [p.stream, p'.stream] ∧
      Blake3.Separates ((p.kernels ++ p'.kernels).map Kernel.stream) ∧ p.hash = p'.hash ∧ p = p' := by
  let op (id : UInt32) : Operator := ⟨.space2depth, id, ⟨"x", .nhwc, [1, 2, 2, 2], rfl, by simp⟩,
    ⟨"y", .nhwc, [1, 1, 1, 8], rfl, by simp⟩, 2, by decide⟩
  let op' (id : UInt32) : Operator := ⟨.space2depth, id,
    ⟨"image", .nhwc, [1, 2, 2, 2], rfl, by simp⟩,
    ⟨"packed", .nhwc, [1, 1, 1, 8], rfl, by simp⟩, 2, by decide⟩
  let layout : MemoryLayout :=
    ⟨[("x", ⟨.dynamic, .deferred "input", 8⟩), ("y", ⟨.static, .fixed 64, 8⟩)], by decide⟩
  let layout' : MemoryLayout := ⟨[("image", ⟨.dynamic, .deferred "input", 8⟩),
    ("packed", ⟨.static, .fixed 64, 8⟩), ("weights", ⟨.static, .fixed 0, 64⟩)], by decide⟩
  have hsame : (op 10).metadata layout = (op 9).metadata layout ∧
      (op' 9).metadata layout' = (op 9).metadata layout ∧
      (op' 10).metadata layout' = (op 9).metadata layout := by decide +kernel
  -- the two streams differ in the names alone, so that their digests have to be evaluated
  have hdigests : ∀ r ∈ ((op 9).metadata layout).toOption,
      Blake3.digest ((op 9).kernelOf r .standard).stream ≠
        Blake3.digest ((op 10).kernelOf r .standard).stream := by
    simp only [← Blake3.digestOf_eq, Kernel.stream, Text.toList_eq_data]
    decide +kernel
  obtain ⟨r, hm⟩ :=
    exists_ok_of_isOk (show ((op 9).metadata layout).isOk = true by decide +kernel)
  have hlayout : layout.NulFree := by
    intro e he label hlabel
    rcases List.mem_pair.1 he with rfl | rfl <;> cases hlabel
    decide
  have hlayout' : layout'.NulFree := by
    intro e he label hlabel
    simp only [layout', List.mem_cons, List.not_mem_nil, or_false] at he
    rcases he with rfl | rfl | rfl <;> cases hlabel
    decide
  have hlaunch : Launch.standard.NulFree := by decide
  have hlower {a b : Operator} {l : MemoryLayout} (hids : ([a, b].map Operator.id).Nodup)
      (ha : a.metadata l = .ok r) (hb : b.metadata l = .ok r) :
      Graph.lower ⟨[a, b], hids⟩ l .standard .standard =
        .ok [a.kernelOf r .standard, b.kernelOf r .standard] := by
    rw [Graph.lower_eq_collect]
    change collect [a.alone ⟨l, .standard⟩, b.alone ⟨l, .standard⟩] = _
    rw [Operator.alone_eq, Operator.alone_eq, ha, hb]
    rfl
  let p : Program := ⟨[(op 9).kernelOf r .standard, (op 10).kernelOf r .standard]⟩
  have hnames : p.kernels.map Kernel.name = ["space2depth_9", "space2depth_10"] := by
    change [(op 9).entryName, (op 10).entryName] = _
    decide +kernel
  have h : Graph.lower ⟨[op 9, op 10], by decide⟩ layout .standard .standard = .ok p.kernels :=
    hlower _ hm (hsame.1.trans hm)
  have h' : Graph.lower ⟨[op' 9, op' 10], by decide⟩ layout' .standard .standard = .ok p.kernels :=
    hlower _ (hsame.2.1.trans hm) (hsame.2.2.trans hm)
  have hprograms : Blake3.Separates [p.stream, p.stream] := Blake3.separates_self p.stream
  have hkernels : Blake3.Separates ((p.kernels ++ p.kernels).map Kernel.stream) :=
    Blake3.separates_pair (hdigests r (by rw [hm]; rfl))
  exact ⟨_, _, layout, layout', p, p, h, h', by decide, by decide, hnames, hlayout, hlayout',
    hlaunch, hprograms, hkernels, rfl, Graph.lower_eq_of_hash h h' ⟨hlayout, hlaunch⟩
      ⟨hlayout', hlaunch⟩ hprograms hkernels rfl⟩

end TensorKernels
