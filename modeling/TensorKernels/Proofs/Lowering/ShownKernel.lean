import TensorKernels.CommandLine.Run
import TensorKernels.Proofs.Lowering.EntryPoints

set_option autoImplicit false

namespace TensorKernels

/-- Two stretches that follow the last mark of one text are the same. -/
theorem cons_suffix_append_cons_iff {α : Type} {mark : α} {as bs before : List α}
    (has : mark ∉ as) (hbs : mark ∉ bs) : mark :: as <:+ before ++ mark :: bs ↔ as = bs := by
  constructor
  · intro h
    have htail : mark :: bs <:+ before ++ mark :: bs := List.suffix_append before _
    rcases List.suffix_or_suffix_of_suffix h htail with h | h
    · rcases List.suffix_cons_iff.1 h with e | h
      · exact (List.cons.inj e).2
      · exact absurd (h.subset List.mem_cons_self) hbs
    · rcases List.suffix_cons_iff.1 h with e | h
      · exact (List.cons.inj e).2.symm
      · exact absurd (h.subset List.mem_cons_self) has
  · rintro rfl
    exact List.suffix_append before _

theorem mark_notMem_repr (n : Nat) : '_' ∉ n.repr.toList := by
  rw [Nat.toList_repr]
  exact Template.notMem_digits rfl n

theorem Operator.suffix_entryName_iff (op : Operator) (id : UInt32) :
    ("_" ++ id.toNat.repr).toList <:+ op.entryName.toList ↔ op.id = id := by
  have hmark : ("_" ++ id.toNat.repr).toList = '_' :: id.toNat.repr.toList := by
    rw [String.toList_append]
    rfl
  rw [hmark, op.toList_entryName,
    cons_suffix_append_cons_iff (mark_notMem_repr _) (mark_notMem_repr _)]
  constructor
  · intro h
    exact UInt32.toNat_inj.1 (repr_injective (String.toList_injective h)).symm
  · rintro rfl
    rfl

namespace Program

variable {p : Program} {id : UInt32}

theorem exists_kernelOf? {k : Kernel} (hk : k ∈ p.kernels)
    (h : ("_" ++ id.toNat.repr).toList <:+ k.name.toList) : ∃ k', p.kernelOf? id = some k' := by
  rw [← Option.isSome_iff_exists, kernelOf?, List.find?_isSome]
  exact ⟨k, hk, List.isSuffixOf_iff_suffix.2 h⟩

theorem of_kernelOf? {k : Kernel} (h : p.kernelOf? id = some k) :
    k ∈ p.kernels ∧ ("_" ++ id.toNat.repr).toList <:+ k.name.toList :=
  ⟨List.mem_of_find?_eq_some h, by simpa using List.find?_some h⟩

end Program

/-- What a program shows for the id of an operator is the kernel that the operator gives alone, and
where no operator has the id, it shows nothing. -/
structure Graph.Shows (g : Graph) (ctx : LoweringEnv) (p : Program) : Prop where
  /-- Each kernel stands at the place of its operator. -/
  kernels : List.Forall₂ (fun op k => op.alone ctx = .ok [k] ∧ p.kernelOf? op.id = some k)
    g.operators p.kernels
  some_iff : ∀ id k, p.kernelOf? id = some k ↔
    ∃ op ∈ g.operators, op.id = id ∧ op.alone ctx = .ok [k]
  none_iff : ∀ id, p.kernelOf? id = none ↔ ∀ op ∈ g.operators, op.id ≠ id
  shown : ∀ op ∈ g.operators, ∃ k, op.alone ctx = .ok [k] ∧ ∀ metadata,
    Command.shown p op.id metadata =
      .success (k.source ++ if metadata then Command.metadataText k else "") ""
  missing : ∀ id, (∀ op ∈ g.operators, op.id ≠ id) → ∀ metadata, Command.shown p id metadata =
    .failure ("error: no kernel for operator " ++ id.toNat.repr ++ "\n")

namespace Graph

variable {g : Graph} {ctx : LoweringEnv} {kernels : List Kernel}

theorem Concatenates.forall₂_alone (h : g.Concatenates ctx kernels) : List.Forall₂
    (fun op k => op.alone ctx = .ok [k] ∧ k.name = op.entryName) g.operators kernels := by
  refine h.eq_kernelOf.imp fun op k hk => ?_
  obtain ⟨r, hm, rfl⟩ := hk
  refine ⟨?_, rfl⟩
  rw [Operator.alone_eq, hm]

theorem eq_of_id_eq (g : Graph) {op op' : Operator} (hop : op ∈ g.operators)
    (hop' : op' ∈ g.operators) (h : op.id = op'.id) : op = op' :=
  List.inj_on_of_nodup_map g.nodup_ids hop hop' h

/-- No two operators have one id, so the first kernel whose name ends in an id is the only one. -/
theorem Concatenates.kernelOf?_eq_some_iff (h : g.Concatenates ctx kernels) {id : UInt32}
    {k : Kernel} : (Program.mk kernels).kernelOf? id = some k ↔
      ∃ op ∈ g.operators, op.id = id ∧ op.alone ctx = .ok [k] := by
  have hkernels := h.forall₂_alone
  have hfound {k : Kernel} (hk : (Program.mk kernels).kernelOf? id = some k) :
      ∃ op ∈ g.operators, op.id = id ∧ op.alone ctx = .ok [k] := by
    obtain ⟨hmem, hsuffix⟩ := Program.of_kernelOf? hk
    obtain ⟨op, hop, halone, hname⟩ := exists_of_mem_right hkernels hmem
    rw [hname] at hsuffix
    exact ⟨op, hop, (op.suffix_entryName_iff id).1 hsuffix, halone⟩
  refine ⟨hfound, ?_⟩
  rintro ⟨op, hop, hid, halone⟩
  obtain ⟨k₁, hk₁, -, hname⟩ := exists_of_mem_left hkernels hop
  obtain ⟨k₂, hk₂⟩ := Program.exists_kernelOf? (p := ⟨kernels⟩) hk₁
    (hname ▸ (op.suffix_entryName_iff id).2 hid)
  obtain ⟨op', hop', hid', halone'⟩ := hfound hk₂
  obtain rfl := g.eq_of_id_eq hop hop' (hid.trans hid'.symm)
  rw [halone, Except.ok.injEq, List.cons.injEq] at halone'
  rw [hk₂, halone'.1]

theorem Concatenates.kernelOf?_eq_none_iff (h : g.Concatenates ctx kernels) {id : UInt32} :
    (Program.mk kernels).kernelOf? id = none ↔ ∀ op ∈ g.operators, op.id ≠ id := by
  rw [Option.eq_none_iff_forall_ne_some]
  constructor
  · intro hnone op hop hid
    obtain ⟨k, -, halone, -⟩ := exists_of_mem_left h.forall₂_alone hop
    exact hnone k (h.kernelOf?_eq_some_iff.2 ⟨op, hop, hid, halone⟩)
  · intro hids k hk
    obtain ⟨op, hop, hid, -⟩ := h.kernelOf?_eq_some_iff.1 hk
    exact hids op hop hid

theorem Concatenates.shows (h : g.Concatenates ctx kernels) : g.Shows ctx ⟨kernels⟩ where
  kernels := forall₂_imp_of_mem h.forall₂_alone fun op hop _ _ hk =>
    ⟨hk.1, h.kernelOf?_eq_some_iff.2 ⟨op, hop, rfl, hk.1⟩⟩
  some_iff _ _ := h.kernelOf?_eq_some_iff
  none_iff _ := h.kernelOf?_eq_none_iff
  shown op hop := by
    obtain ⟨k, -, halone, -⟩ := exists_of_mem_left h.forall₂_alone hop
    have hk := h.kernelOf?_eq_some_iff.2 ⟨op, hop, rfl, halone⟩
    refine ⟨k, halone, fun metadata => ?_⟩
    rw [Command.shown, hk]
  missing id hids metadata := by
    rw [Command.shown, h.kernelOf?_eq_none_iff.2 hids]

/-- In the program of a graph, lowered in order or on several workers, an id shows the kernel of the
operator that has it, whatever ids and kinds there are besides. -/
theorem lower_shows (g : Graph) (layout : MemoryLayout) (c : Configuration) {kernels : List Kernel}
    (h : g.lower layout .standard c = .ok kernels ∨
      c.parallel = true ∧ g.MayReturn .standard ⟨layout, c.launch⟩ (.ok kernels)) :
    g.Shows ⟨layout, c.launch⟩ ⟨kernels⟩ := by
  have hreturn : g.MayReturn .standard ⟨layout, c.launch⟩ (.ok kernels) := by
    rcases h with h | ⟨-, h⟩
    · exact h ▸ mayReturn_lower
    · exact h
  exact ((hreturn.eq_ok_iff kernels).1 rfl).shows

/-- The names of the kernels before it end in its id too, but not after a low line. -/
theorem lower_shows_third : ∃ (g : Graph) (layout : MemoryLayout) (c : Configuration)
    (first second third : Kernel), g.operators.map Operator.id = [11, 101, 1] ∧
      g.lower layout .standard c = .ok [first, second, third] ∧
      (Program.mk [first, second, third]).kernelOf? 1 = some third ∧
      (Command.shown ⟨[first, second, third]⟩ 111 true).err =
        "error: no kernel for operator 111\n" := by
  let deep : Tensor := ⟨"x", .nhwc, [1, 1, 1, 8], rfl, by simp⟩
  let wide : Tensor := ⟨"y", .nhwc, [1, 2, 2, 2], rfl, by simp⟩
  let g : Graph :=
    ⟨[⟨.depth2space, 11, deep, wide, 2, by decide⟩, ⟨.space2depth, 101, wide, deep, 2, by decide⟩,
      ⟨.depth2space, 1, deep, wide, 2, by decide⟩], by decide⟩
  let layout : MemoryLayout :=
    ⟨[("x", ⟨.static, .fixed 0, 8⟩), ("y", ⟨.dynamic, .deferred "later", 8⟩)], by decide⟩
  let c : Configuration := ⟨"metal", .standard, true⟩
  have hmetadata : ∀ op ∈ g.operators, (Operator.metadata op layout).isOk = true := by
    decide +kernel
  obtain ⟨kernels, hk⟩ := exists_lower_ok hmetadata c
  obtain ⟨hkernels, -, -, -, hmissing⟩ := lower_shows g layout c (.inl hk)
  cases hkernels with | @cons _ first _ _ _ hkernels =>
  cases hkernels with | @cons _ second _ _ _ hkernels =>
  cases hkernels with | @cons _ third _ _ hthird hkernels =>
  cases hkernels
  refine ⟨g, layout, c, first, second, third, rfl, hk, hthird.2, ?_⟩
  rw [hmissing 111 (by decide) true]
  rfl

end Graph

end TensorKernels
