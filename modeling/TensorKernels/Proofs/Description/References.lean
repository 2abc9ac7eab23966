import Mathlib.Logic.Relation
import TensorKernels.Proofs.Configuration.Usable
import TensorKernels.Proofs.Description.Resolving

/-! An operator reads its input `x`, its output `y`, its parameter `r`, the tensors that these name
and the places of those tensors. Nothing else in a description changes the program. -/

set_option autoImplicit false

namespace TensorKernels

namespace Table

variable {α : Type}

def AgreeBut (key : String) (t u : Table α) : Prop := ∀ k ≠ key, t.get? k = u.get? k

theorem agreeBut_insert (t : Table α) (key : String) (v : α) : AgreeBut key t (t.insert key v) :=
  fun k hk => by rw [get?_insert, if_neg hk]

end Table

theorem MemoryLayout.lookup_congr {layout layout' : MemoryLayout} {t : Tensor}
    (h : layout.get? t.name = layout'.get? t.name) : layout.lookup t = layout'.lookup t := by
  rw [lookup, h, lookup]

theorem Operator.metadata_congr {op : Operator} {layout layout' : MemoryLayout}
    (hx : layout.get? op.x.name = layout'.get? op.x.name)
    (hy : layout.get? op.y.name = layout'.get? op.y.name) :
    op.metadata layout = op.metadata layout' := by
  have hloads : op.loads layout = op.loads layout' := by
    rw [loads, MemoryLayout.lookup_congr hx, MemoryLayout.lookup_congr hy, loads]
  rw [metadata, hloads, metadata]

theorem Graph.lower_congr {g : Graph} {layout layout' : MemoryLayout}
    (h : ∀ op ∈ g.operators, Operator.metadata op layout = Operator.metadata op layout')
    (c : Configuration) : g.lower layout .standard c = g.lower layout' .standard c := by
  rw [lower_eq_collect, lower_eq_collect]
  refine congrArg collect (List.map_congr_left fun op hop => ?_)
  rw [Operator.alone_eq, h op hop, Operator.alone_eq]

namespace DescribedTensor.Describes

theorem unique {e : DescribedTensor} {t u : Tensor} (ht : e.Describes t) (hu : e.Describes u) :
    t = u := by
  obtain ⟨name, order, shape, _, _⟩ := t
  obtain ⟨name', order', shape', _, _⟩ := u
  cases ht.name.trans hu.name.symm
  cases ht.order.trans hu.order.symm
  cases ht.shape.trans hu.shape.symm
  rfl

end DescribedTensor.Describes

namespace DescribedOperator

structure Reading where
  kind : String
  id : UInt32
  x : Option String
  y : Option String
  block : Option Int64

def reading (e : DescribedOperator) : Reading :=
  ⟨e.kind, e.id, e.inputs.get? "x", e.outputs.get? "y", e.parameters.get? "r"⟩

def Reading.References (r : Reading) (name : String) : Prop := r.x = some name ∨ r.y = some name

/-- Changes of an entry at keys that are not looked up. -/
inductive Revises (e : DescribedOperator) : DescribedOperator → Prop
  | inputs {key : String} {inputs : Table String} (unread : key ≠ "x")
      (elsewhere : e.inputs.AgreeBut key inputs) : Revises e { e with inputs := inputs }
  | outputs {key : String} {outputs : Table String} (unread : key ≠ "y")
      (elsewhere : e.outputs.AgreeBut key outputs) : Revises e { e with outputs := outputs }
  | parameters {key : String} {parameters : Table Int64} (unread : key ≠ "r")
      (elsewhere : e.parameters.AgreeBut key parameters) :
      Revises e { e with parameters := parameters }

variable {e e' : DescribedOperator}

theorem Revises.reading_eq (h : e.Revises e') : e.reading = e'.reading := by
  cases h with
  | inputs unread elsewhere => rw [reading, elsewhere "x" unread.symm, reading]
  | outputs unread elsewhere => rw [reading, elsewhere "y" unread.symm, reading]
  | parameters unread elsewhere => rw [reading, elsewhere "r" unread.symm, reading]

theorem operand_congr {operands operands' : Table String} {key : String}
    {tensors tensors' : Table Tensor} (hlabel : e.label = e'.label)
    (hkey : operands.get? key = operands'.get? key)
    (ht : ∀ name, operands.get? key = some name → tensors.get? name = tensors'.get? name)
    (missing : LoweringError) :
    e.operand tensors operands key missing = e'.operand tensors' operands' key missing := by
  unfold operand
  rw [← hkey, ← hlabel]
  cases hname : operands.get? key with
  | none => rfl
  | some name => simp only [ht name hname]

theorem resolve_congr (h : e.reading = e'.reading) {tensors tensors' : Table Tensor}
    (ht : ∀ name, e.reading.References name → tensors.get? name = tensors'.get? name) :
    e.resolve tensors = e'.resolve tensors' := by
  obtain ⟨hkind, hid, hx, hy, hblock⟩ := Reading.mk.inj h
  have hlabel : e.label = e'.label := by rw [label, hkind, hid, label]
  have hsize : e.blockSize = e'.blockSize := by rw [blockSize, hblock, hlabel, blockSize]
  rw [resolve, resolve, hkind, hid, hlabel, hsize,
    operand_congr hlabel hx (fun name hname => ht name (.inl hname)),
    operand_congr hlabel hy (fun name hname => ht name (.inr hname))]

theorem mapM_resolve_congr {es es' : List DescribedOperator} (h : es.map reading = es'.map reading)
    {tensors tensors' : Table Tensor}
    (ht : ∀ r ∈ es.map reading, ∀ name, r.References name →
      tensors.get? name = tensors'.get? name) :
    es.mapM (·.resolve tensors) = es'.mapM (·.resolve tensors') := by
  induction es generalizing es' with
  | nil =>
    rw [List.map_eq_nil_iff.1 h.symm]
    rfl
  | cons e es ih =>
    obtain ⟨e', es', rfl, he, hes⟩ := List.map_eq_cons_iff.1 h.symm
    obtain ⟨hfirst, hrest⟩ := List.forall_mem_cons.1 ht
    rw [List.mapM_cons, List.mapM_cons, resolve_congr he.symm hfirst, ih hes.symm hrest]

end DescribedOperator

namespace Description

variable {d d' d'' : Description} {name : String}

def References (d : Description) (name : String) : Prop :=
  ∃ r ∈ d.operators.map DescribedOperator.reading, r.References name

theorem name_of_tensor? {e : DescribedTensor} (h : d.tensor? name = some e) : e.name = name := by
  simpa using List.find?_some h

theorem tensor?_eq_some_iff (hn : d.names.Nodup) {e : DescribedTensor} :
    d.tensor? name = some e ↔ e ∈ d.tensors ∧ e.name = name := by
  constructor
  · intro h
    exact ⟨List.mem_reverse.1 (List.mem_of_find?_eq_some h), name_of_tensor? h⟩
  · rintro ⟨he, rfl⟩
    have hreverse : (d.tensors.reverse.map DescribedTensor.name).Nodup := by
      rw [List.map_reverse]
      exact List.nodup_reverse.2 hn
    exact find?_eq_some_of_nodup hreverse (List.mem_reverse.2 he)

theorem tensor?_eq_of_perm (hn : d.names.Nodup) {tensors : List DescribedTensor}
    (h : tensors.Perm d.tensors) : d.tensor? name = { d with tensors := tensors }.tensor? name := by
  have hn' : { d with tensors := tensors }.names.Nodup := (h.map _).nodup_iff.2 hn
  refine Option.ext fun e => ?_
  rw [tensor?_eq_some_iff hn, tensor?_eq_some_iff hn', h.mem_iff]

theorem tensor?_insert {before after : List DescribedTensor} {e : DescribedTensor}
    (htensors : d.tensors = before ++ after) (hname : e.name ≠ name) :
    d.tensor? name = { d with tensors := before ++ e :: after }.tensor? name := by
  simp only [tensor?, htensors, List.reverse_append, List.reverse_cons, List.find?_append,
    List.find?_singleton, hname, decide_false, Bool.false_eq_true, if_false, Option.or_none]

/-- Changes of a description that do not touch what its operators look up. -/
inductive Revises (d : Description) : Description → Prop
  | order {tensors : List DescribedTensor} (reordered : tensors.Perm d.tensors) :
      Revises d { d with tensors := tensors }
  | tensor {before after : List DescribedTensor} {e : DescribedTensor}
      (tensors_eq : d.tensors = before ++ after) (sound : e.Sound) (fresh : e.name ∉ d.names)
      (unread : ¬ d.References e.name) : Revises d { d with tensors := before ++ e :: after }
  | layout {name : String} {layout : MemoryLayout} (unread : ¬ d.References name)
      (elsewhere : d.layout.AgreeBut name layout) : Revises d { d with layout := layout }
  | operator {before after : List DescribedOperator} {e e' : DescribedOperator}
      (operators_eq : d.operators = before ++ e :: after) (revised : e.Revises e') :
      Revises d { d with operators := before ++ e' :: after }

/-- The same is looked up in the same tensors and places. -/
structure ReadAlike (d d' : Description) : Prop where
  names : d.names.Nodup ↔ d'.names.Nodup
  tensors : (∀ e ∈ d.tensors, e.Sound) ↔ ∀ e ∈ d'.tensors, e.Sound
  operators : d.operators.map DescribedOperator.reading = d'.operators.map DescribedOperator.reading
  tensor? : d.names.Nodup → ∀ name, d.References name → d.tensor? name = d'.tensor? name
  place : ∀ name, d.References name → d.layout.get? name = d'.layout.get? name

namespace ReadAlike

theorem refl (d : Description) : ReadAlike d d :=
  ⟨Iff.rfl, Iff.rfl, rfl, fun _ _ _ => rfl, fun _ _ => rfl⟩

theorem references_iff (h : ReadAlike d d') (name : String) :
    d.References name ↔ d'.References name := by
  rw [References, h.operators, References]

theorem symm (h : ReadAlike d d') : ReadAlike d' d where
  names := h.names.symm
  tensors := h.tensors.symm
  operators := h.operators.symm
  tensor? hn name hname := (h.tensor? (h.names.2 hn) name ((h.references_iff name).2 hname)).symm
  place name hname := (h.place name ((h.references_iff name).2 hname)).symm

theorem trans (h : ReadAlike d d') (h' : ReadAlike d' d'') : ReadAlike d d'' where
  names := h.names.trans h'.names
  tensors := h.tensors.trans h'.tensors
  operators := h.operators.trans h'.operators
  tensor? hn name hname := by
    calc d.tensor? name
      _ = d'.tensor? name := h.tensor? hn name hname
      _ = d''.tensor? name := h'.tensor? (h.names.1 hn) name ((h.references_iff name).1 hname)
  place name hname := by
    calc d.layout.get? name
      _ = d'.layout.get? name := h.place name hname
      _ = d''.layout.get? name := h'.place name ((h.references_iff name).1 hname)

end ReadAlike

theorem Revises.readAlike (h : d.Revises d') : ReadAlike d d' := by
  cases h with
  | @order tensors reordered =>
    refine ⟨(reordered.map _).nodup_iff.symm, ?_, rfl,
      fun hn name _ => tensor?_eq_of_perm hn reordered, fun _ _ => rfl⟩
    exact forall_congr' fun e => imp_congr_left reordered.mem_iff.symm
  | @tensor before after e tensors_eq sound fresh unread =>
    have hperm : (before ++ e :: after).Perm (e :: d.tensors) := tensors_eq ▸ List.perm_middle
    refine ⟨?_, ?_, rfl, fun _ name hname => ?_, fun _ _ => rfl⟩
    · rw [names, names, (hperm.map DescribedTensor.name).nodup_iff, List.map_cons, List.nodup_cons]
      exact ⟨fun hn => ⟨fresh, hn⟩, And.right⟩
    · simp only [hperm.mem_iff, List.forall_mem_cons, sound, true_and]
    · exact tensor?_insert tensors_eq fun heq => unread (heq ▸ hname)
  | layout unread elsewhere =>
    refine ⟨Iff.rfl, Iff.rfl, rfl, fun _ _ _ => rfl, fun name hname => ?_⟩
    exact elsewhere name fun heq => unread (heq ▸ hname)
  | @operator before after e e' operators_eq revised =>
    refine ⟨Iff.rfl, Iff.rfl, ?_, fun _ _ _ => rfl, fun _ _ => rfl⟩
    rw [operators_eq, List.map_append, List.map_append, List.map_cons, List.map_cons,
      revised.reading_eq]

theorem readAlike_of_revisions (h : Relation.EqvGen Revises d d') : ReadAlike d d' := by
  induction h with
  | rel _ _ hrevises => exact hrevises.readAlike
  | refl d => exact .refl d
  | symm _ _ _ ih => exact ih.symm
  | trans _ _ _ _ _ ih ih' => exact ih.trans ih'

end Description

namespace DescribedOperator.Describes

variable {d : Description} {e : DescribedOperator} {op : Operator}

theorem get?_x (h : Describes d e op) : e.inputs.get? "x" = some op.x.name := by
  obtain ⟨name, t, hname, ht, hdescribes⟩ := h.x
  rw [hname, hdescribes.name, Description.name_of_tensor? ht]

theorem get?_y (h : Describes d e op) : e.outputs.get? "y" = some op.y.name := by
  obtain ⟨name, t, hname, ht, hdescribes⟩ := h.y
  rw [hname, hdescribes.name, Description.name_of_tensor? ht]

end DescribedOperator.Describes

namespace Description

variable {d d' : Description} {name : String}

theorem exists_tensorTable (h : ∀ e ∈ d.tensors, e.Sound) :
    ∃ tensors, d.tensorTable = .ok tensors ∧ d.Tabulates tensors := by
  have hdecides :
      Requirement.Decides (d.tensors.flatMap DescribedTensor.requirements) d.tensorTable :=
    (Requirement.Decides.mapM DescribedTensor.decides_resolve d.tensors).map _
  obtain ⟨tensors, htensors⟩ := hdecides.exists_ok_iff.2 <| List.forall_mem_flatMap.2
    fun e he => DescribedTensor.forall_requirements_iff.2 (h e he)
  exact ⟨tensors, htensors, tabulates_of_tensorTable htensors⟩

theorem Tabulates.get?_congr {tensors tensors' : Table Tensor} (h : d.Tabulates tensors)
    (h' : d'.Tabulates tensors') (hname : d.tensor? name = d'.tensor? name) :
    tensors.get? name = tensors'.get? name := by
  have ht := h name
  have ht' := h' name
  rw [← hname] at ht'
  generalize d.tensor? name = e at ht ht'
  generalize tensors.get? name = t at ht ⊢
  generalize tensors'.get? name = u at ht' ⊢
  cases ht with
  | none =>
    cases ht'
    rfl
  | some ht =>
    cases ht' with
    | some hu => rw [ht.unique hu]

theorem resolve_eq_map {tensors : Table Tensor} (h : d.tensorTable = .ok tensors) :
    d.resolve = (d.operators.mapM (·.resolve tensors) >>= Graph.ofOperators).map (·, d.layout) := by
  rw [resolve, h]
  change (d.operators.mapM (·.resolve tensors) >>= _) = _
  cases d.operators.mapM (·.resolve tensors) with
  | error e => rfl
  | ok ops =>
    change (Graph.ofOperators ops >>= _) = (Graph.ofOperators ops).map _
    cases Graph.ofOperators ops <;> rfl

theorem references_of_resolve {g : Graph} {layout : MemoryLayout}
    (h : d.resolve = .ok (g, layout)) :
    ∀ op ∈ g.operators, d.References op.x.name ∧ d.References op.y.name := by
  have hall := (describes_of_parts h).1
  unfold References
  generalize d.operators = es at hall ⊢
  generalize g.operators = ops at hall ⊢
  induction hall with
  | nil => exact List.forall_mem_nil _
  | @cons e op es ops he _ ih =>
    refine List.forall_mem_cons.2 ⟨⟨?_, ?_⟩, fun op hop => ?_⟩
    · exact ⟨e.reading, List.mem_cons_self, .inl he.get?_x⟩
    · exact ⟨e.reading, List.mem_cons_self, .inr he.get?_y⟩
    · obtain ⟨⟨r, hr, hx⟩, ⟨r', hr', hy⟩⟩ := ih op hop
      exact ⟨⟨r, List.mem_cons_of_mem _ hr, hx⟩, ⟨r', List.mem_cons_of_mem _ hr', hy⟩⟩

namespace ReadAlike

/-- One graph is made of both, each with the layout of its own, or one error. -/
theorem resolve_eq (h : ReadAlike d d') (hn : d.names.Nodup) (hsound : ∀ e ∈ d.tensors, e.Sound) :
    ∃ made : Except LoweringError Graph,
      d.resolve = made.map (·, d.layout) ∧ d'.resolve = made.map (·, d'.layout) := by
  obtain ⟨tensors, htable, ht⟩ := exists_tensorTable hsound
  obtain ⟨tensors', htable', ht'⟩ := exists_tensorTable (h.tensors.1 hsound)
  refine ⟨_, resolve_eq_map htable, ?_⟩
  rw [resolve_eq_map htable']
  refine congrArg (fun ops => (ops >>= Graph.ofOperators).map (·, d'.layout)) ?_
  exact (DescribedOperator.mapM_resolve_congr h.operators fun r hr name hname =>
    ht.get?_congr ht' (h.tensor? hn name ⟨r, hr, hname⟩)).symm

/-- Both are lowered to one program, or refused with one error. -/
theorem lower_eq (h : ReadAlike d d') (hn : d.names.Nodup) (hsound : ∀ e ∈ d.tensors, e.Sound)
    (c : Configuration) : d.lower c = d'.lower c := by
  by_cases htarget : c.target ∈ Configuration.targets
  · rw [Description.lower_eq d htarget, Description.lower_eq d' htarget]
    obtain ⟨made, hd, hd'⟩ := h.resolve_eq hn hsound
    cases made with
    | error e => rw [hd, hd']; rfl
    | ok g =>
      have hlower : g.lower d.layout .standard c = g.lower d'.layout .standard c := by
        refine Graph.lower_congr (fun op hop => ?_) c
        obtain ⟨hx, hy⟩ := references_of_resolve hd op hop
        exact Operator.metadata_congr (h.place _ hx) (h.place _ hy)
      rw [hd, hd']
      change (g.lower d.layout .standard c >>= _) = (g.lower d'.layout .standard c >>= _)
      rw [hlower]
  · rw [lower, lower, Backend.ofTarget?_eq_none htarget]

end ReadAlike

theorem sound_of_lower {c : Configuration} {p : Program} (h : d.lower c = .ok p) :
    ∀ e ∈ d.tensors, e.Sound := by
  have htarget : c.target ∈ Configuration.targets := by
    by_contra htarget
    rw [lower, Backend.ofTarget?_eq_none htarget] at h
    cases h
  obtain ⟨g, layout, hresolve, -⟩ := (lower_eq_ok_iff htarget).1 h
  exact (forall_requirements_iff.1 (d.decides_resolve.exists_ok_iff.1 ⟨_, hresolve⟩)).tensors

/-- Changes that do not touch what the operators look up leave the names different and the program
the same, with its kernels, what is unresolved in them and its hash. Where each tensor can be made,
the error of a description that is refused is the same, too. -/
theorem lower_revised {d d' : Description} (hn : d.names.Nodup)
    (h : Relation.EqvGen Revises d d') (c : Configuration) :
    d'.names.Nodup ∧ (∀ p, d.lower c = .ok p ↔ d'.lower c = .ok p) ∧
      ((∀ e ∈ d.tensors, e.Sound) → d.lower c = d'.lower c) := by
  have halike := readAlike_of_revisions h
  refine ⟨halike.names.1 hn, fun p => ⟨fun hp => ?_, fun hp => ?_⟩,
    fun hsound => halike.lower_eq hn hsound c⟩
  · rw [← halike.lower_eq hn (sound_of_lower hp), hp]
  · rw [halike.lower_eq hn (halike.tensors.2 (sound_of_lower hp)), hp]

/-- The tensors change places, and a third one is put in, given a place and named as an input which
is not read. -/
theorem lower_revised_spare : ∃ (d d' : Description) (c : Configuration) (p : Program),
    d.names = ["x", "y"] ∧ d'.names = ["y", "spare", "x"] ∧
      Relation.EqvGen Revises d d' ∧ d.lower c = .ok p ∧ d'.lower c = .ok p ∧
        p.kernels.length = 1 := by
  let x : DescribedTensor := ⟨"x", .nhwc, [1, 1, 1, 4]⟩
  let y : DescribedTensor := ⟨"y", .nhwc, [1, 2, 2, 1]⟩
  let spare : DescribedTensor := ⟨"spare", .nchw, [1, 1, 1, 2]⟩
  let e : DescribedOperator :=
    ⟨7, "Depth2Space", .ofList [("x", "x")], .ofList [("y", "y")], .ofList [("r", 2)]⟩
  let e' : DescribedOperator := { e with inputs := e.inputs.insert "mask" "spare" }
  let layout : MemoryLayout := .ofList
    [("x", ⟨.static, .fixed 0, 4⟩), ("y", ⟨.dynamic, .deferred "later", 4⟩)]
  let layout' : MemoryLayout := layout.insert "spare" ⟨.static, .fixed 4, 2⟩
  let d : Description := ⟨[x, y], [e], layout⟩
  let c : Configuration := .standard
  have hunread (tensors : List DescribedTensor) :
      ¬ References ⟨tensors, [e], layout⟩ "spare" := by
    rintro ⟨r, hr, hname⟩
    cases List.mem_singleton.1 hr
    revert hname
    exact not_or_intro (by decide +kernel) (by decide +kernel)
  have horder : Revises d ⟨[y, x], [e], layout⟩ := .order (List.Perm.swap x y [])
  have htensor : Revises ⟨[y, x], [e], layout⟩ ⟨[y, spare, x], [e], layout⟩ :=
    @Revises.tensor ⟨[y, x], [e], layout⟩ [y] [x] spare rfl ⟨rfl, by simp [spare]⟩ (by decide)
      (hunread _)
  have hlayout : Revises ⟨[y, spare, x], [e], layout⟩ ⟨[y, spare, x], [e], layout'⟩ :=
    .layout (hunread _) (layout.agreeBut_insert "spare" _)
  have hoperator : Revises ⟨[y, spare, x], [e], layout'⟩ ⟨[y, spare, x], [e'], layout'⟩ :=
    @Revises.operator ⟨[y, spare, x], [e], layout'⟩ [] [] e e' rfl
      (.inputs (by decide) (e.inputs.agreeBut_insert "mask" "spare"))
  have hrevised : Relation.EqvGen Revises d ⟨[y, spare, x], [e'], layout'⟩ :=
    .trans _ _ _ (.rel _ _ horder) (.trans _ _ _ (.rel _ _ htensor)
      (.trans _ _ _ (.rel _ _ hlayout) (.rel _ _ hoperator)))
  let op : Operator := ⟨.depth2space, 7, ⟨"x", .nhwc, [1, 1, 1, 4], rfl, by simp⟩,
    ⟨"y", .nhwc, [1, 2, 2, 1], rfl, by simp⟩, 2, by decide⟩
  let g : Graph := ⟨[op], by decide⟩
  have hresolve : d.resolve = .ok (g, layout) := by
    have hrun : d.resolve.toOption.map (fun parts => (parts.1.operators, parts.2.entries)) =
        some (g.operators, layout.entries) := by decide +kernel
    obtain ⟨⟨⟨operators, _⟩, ⟨entries, _⟩⟩, hparts, hentries⟩ := Option.map_eq_some_iff.1 hrun
    cases hentries
    exact eq_ok_of_toOption hparts
  have hmetadata : ∀ op ∈ g.operators, (Operator.metadata op layout).isOk = true := by
    decide +kernel
  obtain ⟨kernels, hkernels⟩ := Graph.exists_lower_ok hmetadata c
  have hlower : d.lower c = .ok ⟨kernels⟩ :=
    (lower_eq_ok_iff (by decide)).2 ⟨g, layout, hresolve, hkernels⟩
  have hall := ((Graph.mayReturn_lower.eq_ok_iff kernels).1 hkernels).eq_kernelOf
  obtain ⟨-, hsame, -⟩ := lower_revised (by decide) hrevised c
  exact ⟨d, _, c, ⟨kernels⟩, rfl, rfl, hrevised, hlower, (hsame _).1 hlower, hall.length_eq.symm⟩

end Description

end TensorKernels
