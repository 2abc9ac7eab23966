import TensorKernels.Configuration
import TensorKernels.Kernel.Patch
import TensorKernels.Program
import TensorKernels.Proofs.Lowering.Schedule

set_option autoImplicit false

namespace TensorKernels

/-- A preset is looked at when it is bound. -/
def Dim.Positive (d : Dim) : Prop := ∀ n, d = .fixed n → 0 < n

def LaunchSize.Positive (s : LaunchSize) : Prop := ∀ d ∈ s.dims, d.Positive

structure Launch.Positive (l : Launch) : Prop where
  grid : l.grid.Positive
  threadgroup : l.threadgroup.Positive

namespace LaunchSize

theorem positive_fixed {x y z : UInt32} (hx : 0 < x) (hy : 0 < y) (hz : 0 < z) :
    (fixed x y z).Positive := by
  intro d hd n hn
  simp only [fixed, dims, List.mem_cons, List.not_mem_nil, or_false] at hd
  rcases hd with rfl | rfl | rfl <;> cases hn <;> assumption

theorem positive_maxThreads : maxThreads.Positive := by
  intro d hd n hn
  simp only [maxThreads, dims, List.mem_cons, List.not_mem_nil, or_false] at hd
  rcases hd with rfl | rfl | rfl <;> cases hn <;> decide

end LaunchSize

theorem Launch.positive_standard : standard.Positive where
  grid := LaunchSize.positive_fixed (by decide) (by decide) (by decide)
  threadgroup := LaunchSize.positive_maxThreads

namespace Configuration

theorem dimension?_pos {cs : List Char} {n : UInt32} (h : dimension? cs = some n) : 0 < n := by
  unfold dimension? at h
  obtain ⟨m, -, h⟩ := Option.bind_eq_some_iff.1 h
  simpa using (Option.filter_eq_some_iff.1 h).2

theorem size?_positive {value : List Char} {s : LaunchSize} (h : size? value = some s) :
    s.Positive := by
  unfold size? at h
  obtain ⟨inner, -, h⟩ := Option.bind_eq_some_iff.1 h
  obtain ⟨dims, hdims, h⟩ := Option.bind_eq_some_iff.1 h
  have hpos : ∀ n ∈ dims, 0 < n := by
    intro n hn
    have hmem : some n ∈ (inner.splitOn ',').map dimension? :=
      mapM_eq_some_iff.1 hdims ▸ List.mem_map_of_mem hn
    obtain ⟨cs, -, hcs⟩ := List.mem_map.1 hmem
    exact dimension?_pos hcs
  split at h
  · cases h
    simp only [List.forall_mem_cons] at hpos
    exact LaunchSize.positive_fixed hpos.1 hpos.2.1 hpos.2.2.1
  · cases h

theorem threadgroup?_positive {value : List Char} {s : LaunchSize}
    (h : threadgroup? value = some s) : s.Positive := by
  unfold threadgroup? at h
  split at h
  · cases h
    exact LaunchSize.positive_maxThreads
  · exact size?_positive h

theorem assign_positive {c c' : Configuration} {value : List Char} {setting : Setting}
    (hc : c.launch.Positive) (h : assign c value setting = .ok c') : c'.launch.Positive := by
  cases setting with
  | target =>
    cases h
    exact hc
  | grid =>
    rw [assign] at h
    split at h
    · next s hs =>
      cases h
      exact ⟨size?_positive hs, hc.threadgroup⟩
    · cases h
  | threadgroup =>
    rw [assign] at h
    split at h
    · next s hs =>
      cases h
      exact ⟨hc.grid, threadgroup?_positive hs⟩
    · cases h
  | parallel =>
    rw [assign] at h
    split at h
    · cases h
      exact hc
    · cases h

theorem step_positive {s s' : ReadState} {line : Line} (hs : s.result.launch.Positive)
    (h : s.step line = .ok s') : s'.result.launch.Positive := by
  cases line with
  | heading name =>
    cases h
    exact hs
  | assignment key value =>
    rw [ReadState.step] at h
    split at h
    · obtain ⟨c, hc, h⟩ := bind_eq_ok h
      cases h
      exact assign_positive hs hc
    · cases h
      exact hs
  | other text => cases h

theorem positive_of_read {text : String} {c : Configuration} (h : read text = .ok c) :
    c.launch.Positive := by
  unfold read at h
  obtain ⟨s, hs, h⟩ := bind_eq_ok h
  have hpositive : s.result.launch.Positive :=
    invariant_foldlM (fun _ _ _ => step_positive) Launch.positive_standard hs
  split at h
  · cases h
    exact hpositive
  · cases h

end Configuration

theorem Dim.Positive.pos_of_resolve {d : Dim} {b : Bindings} {n : UInt32} (hd : d.Positive)
    (h : d.resolve b = .ok n) : 0 < n := by
  cases d with
  | fixed m =>
    cases h
    exact hd n rfl
  | preset label =>
    rw [Dim.resolve] at h
    obtain ⟨v, -, h⟩ := bind_eq_ok h
    split at h
    · next m hm =>
      cases h
      simpa using (Option.filter_eq_some_iff.1 hm).2
    · cases h

theorem LaunchSize.Positive.pos_of_resolve {s : LaunchSize} {b : Bindings} {ns : List UInt32}
    (hs : s.Positive) (h : s.resolve b = .ok ns) : ns.length = 3 ∧ ∀ n ∈ ns, 1 ≤ n := by
  have hmap : s.dims.map (Dim.resolve b) = ns.map .ok := mapM_eq_ok_iff.1 h
  constructor
  · have hlength := congrArg List.length hmap
    rw [List.length_map, List.length_map] at hlength
    exact hlength.symm
  · intro n hn
    have hmem : .ok n ∈ s.dims.map (Dim.resolve b) := hmap ▸ List.mem_map_of_mem hn
    obtain ⟨d, hd, hresolve⟩ := List.mem_map.1 hmem
    have hpos : 0 < n := (hs d hd).pos_of_resolve hresolve
    exact UInt32.le_iff_toNat_le.2 (UInt32.lt_iff_toNat_lt.1 hpos)

/-- The patched kernel has three sizes for the grid and three for the threadgroup, and none of them
is empty. -/
structure PatchedKernel.Launchable (k : PatchedKernel) : Prop where
  length_grid : k.grid.length = 3
  grid : ∀ n ∈ k.grid, 1 ≤ n
  length_threadgroup : k.threadgroup.length = 3
  threadgroup : ∀ n ∈ k.threadgroup, 1 ≤ n

theorem Kernel.launchable_of_patch {k : Kernel} {b : Bindings} {patched : PatchedKernel}
    (hk : k.launch.Positive) (h : k.patch b = .ok patched) : patched.Launchable := by
  unfold patch at h
  obtain ⟨cells, -, h⟩ := bind_eq_ok h
  obtain ⟨grid, hgrid, h⟩ := bind_eq_ok h
  obtain ⟨threadgroup, hthreadgroup, h⟩ := bind_eq_ok h
  cases h
  obtain ⟨hg, hgpos⟩ := hk.grid.pos_of_resolve hgrid
  obtain ⟨ht, htpos⟩ := hk.threadgroup.pos_of_resolve hthreadgroup
  exact ⟨hg, hgpos, ht, htpos⟩

def LoweringError.AboutTarget (e : LoweringError) : Prop :=
  ∃ reason, e = .invalidParameter "target" reason

section

open LoweringError

theorem Tensor.ofShape_failsWith (name : String) (order : Order) (shape : List UInt32) :
    FailsWith (¬ ·.AboutTarget) (ofShape name order shape) := by
  unfold ofShape
  split
  · split
    · exact .ok _
    · exact .error nofun
  · exact .error nofun

theorem Operator.ofBlock_failsWith (kind : OperatorKind) (id : UInt32) (x y : Tensor)
    (block : UInt32) : FailsWith (¬ ·.AboutTarget) (ofBlock kind id x y block) := by
  unfold ofBlock
  split
  · refine .error ?_
    rintro ⟨reason, h⟩
    exact absurd (invalidParameter.inj h).1 (by decide)
  · exact .ok _

namespace DescribedOperator

theorem operand_failsWith (e : DescribedOperator) (tensors : Table Tensor) (operands : Table String)
    (name : String) {missing : LoweringError} (h : ¬ missing.AboutTarget) :
    FailsWith (¬ ·.AboutTarget) (e.operand tensors operands name missing) := by
  unfold operand
  split
  · exact .error h
  · split
    · exact .error nofun
    · exact .ok _

theorem blockSize_failsWith (e : DescribedOperator) : FailsWith (¬ ·.AboutTarget) e.blockSize := by
  unfold blockSize
  split
  · exact .error nofun
  · split
    · exact .ok _
    · refine .error ?_
      rintro ⟨reason, h⟩
      exact absurd (invalidParameter.inj h).1 (by decide)

theorem resolve_failsWith (e : DescribedOperator) (tensors : Table Tensor) :
    FailsWith (¬ ·.AboutTarget) (e.resolve tensors) := by
  have hkind : FailsWith (¬ ·.AboutTarget) (OperatorKind.parse e.kind) := by
    unfold OperatorKind.parse
    split
    · exact .ok _
    · exact .error nofun
  have hinput : ¬ (missingInput e.label "x").AboutTarget := nofun
  have houtput : ¬ (missingOutput e.label "y").AboutTarget := nofun
  unfold resolve
  refine hkind.bind fun kind => ?_
  refine (e.operand_failsWith tensors e.inputs "x" hinput).bind fun x => ?_
  refine (e.operand_failsWith tensors e.outputs "y" houtput).bind fun y => ?_
  exact e.blockSize_failsWith.bind fun r => Operator.ofBlock_failsWith kind e.id x y r

end DescribedOperator

theorem Graph.ofOperators_failsWith (ops : List Operator) :
    FailsWith (¬ ·.AboutTarget) (ofOperators ops) := by
  unfold ofOperators
  split
  · exact .ok _
  · exact .error nofun

theorem Description.resolve_failsWith (d : Description) :
    FailsWith (¬ ·.AboutTarget) d.resolve := by
  have htensors : FailsWith (¬ ·.AboutTarget) d.tensorTable := by
    refine FailsWith.bind (.mapM (fun e => ?_) d.tensors) fun tensors => .ok _
    exact Tensor.ofShape_failsWith e.name e.order e.shape
  unfold resolve
  refine htensors.bind fun tensors => ?_
  refine FailsWith.bind (.mapM (fun e => ?_) d.operators) fun operators => ?_
  · exact e.resolve_failsWith tensors
  · exact (Graph.ofOperators_failsWith operators).bind fun graph => .ok _

theorem Graph.lower_failsWith (g : Graph) (layout : MemoryLayout) (c : Configuration) :
    FailsWith (¬ ·.AboutTarget) (g.lower layout .standard c) := by
  intro e he
  have hreturn : g.MayReturn .standard ⟨layout, c.launch⟩ (g.lower layout .standard c) :=
    mayReturn_lower
  rw [he] at hreturn
  obtain ⟨op, cause, -, rfl⟩ := hreturn.exists_cause
  exact nofun

end

namespace Description

theorem lower_eq (d : Description) {c : Configuration} (h : c.target ∈ Configuration.targets) :
    d.lower c = (do
      let (graph, layout) ← d.resolve
      let kernels ← graph.lower layout .standard c
      return ⟨kernels⟩) := by
  rw [lower, Backend.ofTarget?_eq_some h]
  rfl

theorem lower_eq_ok_iff {d : Description} {c : Configuration} {p : Program}
    (h : c.target ∈ Configuration.targets) : d.lower c = .ok p ↔
      ∃ g layout, d.resolve = .ok (g, layout) ∧ g.lower layout .standard c = .ok p.kernels := by
  rw [d.lower_eq h]
  constructor
  · intro hd
    obtain ⟨⟨g, layout⟩, hresolve, hd⟩ := bind_eq_ok hd
    obtain ⟨kernels, hkernels, hd⟩ := bind_eq_ok hd
    cases hd
    exact ⟨g, layout, hresolve, hkernels⟩
  · rintro ⟨g, layout, hresolve, hkernels⟩
    rw [hresolve]
    change (g.lower layout .standard c).bind _ = _
    rw [hkernels]
    rfl

/-- A configuration that can be read has a backend, so that lowering with it never fails for the lack
of one, and every kernel that is lowered with it and can be patched can be launched. -/
theorem lower_of_read {text : String} {c : Configuration} (h : Configuration.read text = .ok c) :
    (Backend.ofTarget? c.target c).isSome ∧
      (∀ (d : Description) (reason : String),
        d.lower c ≠ .error (.invalidParameter "target" reason)) ∧
      ∀ (d : Description) (p : Program), d.lower c = .ok p →
        ∀ k ∈ p.kernels, ∀ (b : Bindings) (patched : PatchedKernel),
          k.patch b = .ok patched → patched.Launchable := by
  have htarget := Configuration.target_of_read h
  refine ⟨by rw [Backend.ofTarget?_eq_some htarget]; rfl, ?_, ?_⟩
  · intro d reason hd
    have hfails : FailsWith (¬ ·.AboutTarget) (d.lower c) := by
      rw [d.lower_eq htarget]
      refine d.resolve_failsWith.bind fun parts => ?_
      exact (parts.1.lower_failsWith parts.2 c).bind fun kernels => .ok _
    exact hfails _ hd ⟨reason, rfl⟩
  · intro d p hd k hk b patched hpatch
    obtain ⟨g, layout, -, hkernels⟩ := (lower_eq_ok_iff htarget).1 hd
    obtain ⟨op, r, -, rfl⟩ := Graph.exists_kernelOf_of_mem hkernels hk
    exact Kernel.launchable_of_patch (Configuration.positive_of_read h) hpatch

/-- A target that is not known is no harm if another one takes its place later. -/
theorem lower_of_read_last_target : ∃ (text : String) (c : Configuration) (d : Description)
    (p : Program) (k : Kernel) (b : Bindings) (patched : PatchedKernel),
      Configuration.read text = .ok c ∧ d.lower c = .ok p ∧ k ∈ p.kernels ∧
        k.patch b = .ok patched ∧ patched.grid = [2, 3, 4] ∧ patched.Launchable := by
  let text := "[target]\nname = tpu\n[launch]\ngrid = [ +2, 03, 4 ] # sizes\n[target]\nname = msl\n"
  let c : Configuration := ⟨"msl", ⟨.fixed 2 3 4, .maxThreads⟩, false⟩
  let layout : MemoryLayout := .ofList
    [("x", ⟨.static, .fixed 0, 4⟩), ("y", ⟨.dynamic, .deferred "later", 4⟩)]
  let d : Description := ⟨[⟨"x", .nhwc, [1, 1, 1, 4]⟩, ⟨"y", .nhwc, [1, 2, 2, 1]⟩],
    [⟨7, "Depth2Space", .ofList [("x", "x")], .ofList [("y", "y")], .ofList [("r", 2)]⟩], layout⟩
  let op : Operator := ⟨.depth2space, 7, ⟨"x", .nhwc, [1, 1, 1, 4], rfl, by simp⟩,
    ⟨"y", .nhwc, [1, 2, 2, 1], rfl, by simp⟩, 2, by decide⟩
  let g : Graph := ⟨[op], by decide⟩
  let b : Bindings := .ofList [("later", 96), (maxThreadsLabel, 256)]
  have hread : Configuration.read text = .ok c := by decide +kernel
  have hresolve : d.resolve = .ok (g, layout) := by
    have hrun : d.resolve.toOption.map (fun parts => (parts.1.operators, parts.2.entries)) =
        some (g.operators, layout.entries) := by decide +kernel
    obtain ⟨⟨⟨operators, _⟩, ⟨entries, _⟩⟩, hparts, hentries⟩ := Option.map_eq_some_iff.1 hrun
    cases hentries
    exact eq_ok_of_toOption hparts
  have hmetadata : ∀ op ∈ g.operators, (Operator.metadata op layout).isOk = true := by
    decide +kernel
  obtain ⟨kernels, hkernels⟩ := Graph.exists_lower_ok hmetadata c
  have hlower : d.lower c = .ok ⟨kernels⟩ :=
    (lower_eq_ok_iff (by decide)).2 ⟨g, layout, hresolve, hkernels⟩
  have hall := ((Graph.mayReturn_lower.eq_ok_iff kernels).1 hkernels).eq_kernelOf
  cases hall with | @cons _ k _ _ hk hnil =>
  cases hnil
  obtain ⟨r, hm, rfl⟩ := hk
  have hpatch : ((op.metadata layout).toOption.bind fun r =>
      ((op.kernelOf r c.launch).patch b).toOption) =
        some ⟨[96, 2, 1, 4, 1, 1, 2, 1, 2], [2, 3, 4], [256, 1, 1]⟩ := by decide +kernel
  generalize op.metadata layout = m at hm hpatch
  subst hm
  have hok := eq_ok_of_toOption hpatch
  obtain ⟨-, -, hlaunchable⟩ := lower_of_read hread
  exact ⟨text, c, d, ⟨_⟩, _, b, _, hread, hlower, List.mem_cons_self, hok, rfl,
    hlaunchable d _ hlower _ List.mem_cons_self b _ hok⟩

end Description

end TensorKernels
