import TensorKernels.Description
import TensorKernels.Proofs.Fallible
import TensorKernels.Proofs.Requirement

set_option autoImplicit false

namespace TensorKernels

open Requirement

namespace DescribedTensor

structure Sound (e : DescribedTensor) : Prop where
  length : e.shape.length = e.order.rank
  positive : ∀ n ∈ e.shape, n ≠ 0

structure Describes (e : DescribedTensor) (t : Tensor) : Prop where
  name : t.name = e.name
  order : t.order = e.order
  shape : t.shape = e.shape

def sameRank (e : DescribedTensor) : Requirement LoweringError where
  met := e.shape.length = e.order.rank
  fault := .invalidTensor e.name ("shape has " ++ e.shape.length.repr ++ " extents but order " ++
    e.order.toString ++ " has " ++ e.order.rank.repr)

def positiveExtent (e : DescribedTensor) (p : Axis × UInt32) : Requirement LoweringError where
  met := p.2 ≠ 0
  fault := .invalidTensor e.name ("extent of axis " ++ p.1.letter.toString ++ " is zero")

/-- The number of the extents is looked at before them. -/
def requirements (e : DescribedTensor) : List (Requirement LoweringError) :=
  e.sameRank :: (e.order.axes.zip e.shape).map e.positiveExtent

theorem exists_of_emptyAxis? {axes : List Axis} {shape : List UInt32} {a : Axis}
    (h : Tensor.emptyAxis? axes shape = some a) : ∃ before after,
      axes.zip shape = before ++ (a, 0) :: after ∧ ∀ p ∈ before, p.2 ≠ 0 := by
  induction axes generalizing shape with
  | nil => cases h
  | cons b axes ih =>
    cases shape with
    | nil => cases h
    | cons n shape =>
      rw [Tensor.emptyAxis?] at h
      split at h
      · next hn =>
        cases h
        subst hn
        exact ⟨[], axes.zip shape, rfl, List.forall_mem_nil _⟩
      · next hn =>
        obtain ⟨before, after, hsplit, hbefore⟩ := ih h
        refine ⟨(b, n) :: before, after, ?_, List.forall_mem_cons.2 ⟨hn, hbefore⟩⟩
        rw [List.zip_cons_cons, hsplit, List.cons_append]

theorem decides_resolve (e : DescribedTensor) : Decides e.requirements e.resolve := by
  unfold resolve Tensor.ofShape
  split
  · next hlength =>
    refine .met hlength ?_
    split
    · next hnone =>
      refine .of_met _ (List.forall_mem_map.2 fun p hp => ?_)
      exact Tensor.ne_zero_of_emptyAxis? hlength hnone p.2 (List.of_mem_zip hp).2
    · next a hsome =>
      obtain ⟨before, after, hsplit, hbefore⟩ := exists_of_emptyAxis? hsome
      rw [hsplit, List.map_append, List.map_cons]
      refine .of_firstUnmet (q := e.positiveExtent (a, 0)) ⟨_, _, rfl, ?_, not_not_intro rfl⟩
      exact List.forall_mem_map.2 hbefore
  · next hlength => exact .unmet (q := e.sameRank) hlength _

theorem forall_requirements_iff {e : DescribedTensor} :
    (∀ q ∈ e.requirements, q.met) ↔ e.Sound := by
  rw [requirements, List.forall_mem_cons, List.forall_mem_map]
  constructor
  · rintro ⟨hlength, hpositive⟩
    refine ⟨hlength, fun n hn => ?_⟩
    rw [← List.map_snd_zip (Nat.le_of_eq hlength)] at hn
    obtain ⟨p, hp, rfl⟩ := List.mem_map.1 hn
    exact hpositive p hp
  · rintro ⟨hlength, hpositive⟩
    exact ⟨hlength, fun p hp => hpositive p.2 (List.of_mem_zip hp).2⟩

theorem describes_of_resolve {e : DescribedTensor} {t : Tensor} (h : e.resolve = .ok t) :
    e.Describes t := by
  unfold resolve Tensor.ofShape at h
  split at h
  · split at h
    · cases h
      exact ⟨rfl, rfl, rfl⟩
    · cases h
  · cases h

end DescribedTensor

namespace Description

def names (d : Description) : List String := d.tensors.map DescribedTensor.name

/-- The last entry of a name is the one that counts. -/
def tensor? (d : Description) (name : String) : Option DescribedTensor :=
  d.tensors.reverse.find? fun e => e.name = name

/-- The table holds the tensor of the last entry of each name, and nothing else. -/
def Tabulates (d : Description) (tensors : Table Tensor) : Prop :=
  ∀ name, Option.Rel DescribedTensor.Describes (d.tensor? name) (tensors.get? name)

theorem find?_rel_lookup {es : List DescribedTensor} {ts : List Tensor}
    (h : List.Forall₂ DescribedTensor.Describes es ts) (name : String) :
    Option.Rel DescribedTensor.Describes (es.find? fun e => e.name = name)
      ((ts.map fun t => (t.name, t)).lookup name) := by
  induction h with
  | nil => exact .none
  | @cons e t es ts he _ ih =>
    rw [List.map_cons, Table.lookup_cons, List.find?_cons, he.name]
    by_cases hname : e.name = name
    · simp [hname, he]
    · simpa [hname, Ne.symm hname] using ih

theorem tabulates_of_tensorTable {d : Description} {tensors : Table Tensor}
    (h : d.tensorTable = .ok tensors) : d.Tabulates tensors := by
  obtain ⟨ts, hts, h⟩ := bind_eq_ok h
  cases h
  have hdescribes : List.Forall₂ DescribedTensor.Describes d.tensors.reverse ts.reverse :=
    List.forall₂_reverse_iff.2
      ((mapM_eq_ok_iff_forall₂.1 hts).imp fun _ _ => DescribedTensor.describes_of_resolve)
  intro name
  rw [Table.get?_ofList, ← List.map_reverse]
  exact find?_rel_lookup hdescribes name

theorem isSome_tensor? {d : Description} {name : String} :
    (d.tensor? name).isSome ↔ name ∈ d.names := by
  simp [tensor?, names]

theorem Tabulates.mem_names_iff {d : Description} {tensors : Table Tensor} (h : d.Tabulates tensors)
    {name : String} : name ∈ d.names ↔ ∃ t, tensors.get? name = some t := by
  rw [← isSome_tensor?]
  have hname := h name
  generalize d.tensor? name = e at hname ⊢
  generalize tensors.get? name = t at hname ⊢
  cases hname <;> simp

theorem Tabulates.exists_tensor? {d : Description} {tensors : Table Tensor} (h : d.Tabulates tensors)
    {name : String} {t : Tensor} (ht : tensors.get? name = some t) :
    ∃ e, d.tensor? name = some e ∧ e.Describes t := by
  have hname := h name
  rw [ht] at hname
  generalize d.tensor? name = e at hname ⊢
  cases hname with
  | @some e _ he => exact ⟨e, rfl, he⟩

end Description

namespace DescribedOperator

/-- An operator entry that refers to tensors of these names. -/
structure Sound (names : List String) (e : DescribedOperator) : Prop where
  kind : ∃ k : OperatorKind, k.tag = OperatorKind.foldCase e.kind
  x : ∃ name ∈ names, e.inputs.get? "x" = some name
  y : ∃ name ∈ names, e.outputs.get? "y" = some name
  block : ∃ r, e.parameters.get? "r" = some r ∧ 1 ≤ r.toInt ∧ r.toInt ≤ 4294967295

/-- The operator is what the entry says, the operands being the last tensors of their names. -/
structure Describes (d : Description) (e : DescribedOperator) (op : Operator) : Prop where
  kind : op.kind.tag = OperatorKind.foldCase e.kind
  id : op.id = e.id
  x : ∃ name t, e.inputs.get? "x" = some name ∧ d.tensor? name = some t ∧ t.Describes op.x
  y : ∃ name t, e.outputs.get? "y" = some name ∧ d.tensor? name = some t ∧ t.Describes op.y
  block : ∃ r, e.parameters.get? "r" = some r ∧ r.toInt = op.block.toNat

def knownKind (e : DescribedOperator) : Requirement LoweringError where
  met := ∃ k : OperatorKind, k.tag = OperatorKind.foldCase e.kind
  fault := .unknownOperatorType e.kind

def named (operands : Table String) (operand : String) (missing : LoweringError) :
    Requirement LoweringError where
  met := ∃ name, operands.get? operand = some name
  fault := missing

def declared (names : List String) (e : DescribedOperator) (operands : Table String)
    (operand : String) : Requirement LoweringError where
  met := ∃ name ∈ names, operands.get? operand = some name
  fault := .unknownTensor e.label ((operands.get? operand).getD "")

def hasBlock (e : DescribedOperator) : Requirement LoweringError where
  met := ∃ r, e.parameters.get? "r" = some r
  fault := .missingParameter e.label "r"

def block (e : DescribedOperator) : Int := ((e.parameters.get? "r").map Int64.toInt).getD 0

def blockFits (e : DescribedOperator) : Requirement LoweringError where
  met := 0 ≤ e.block ∧ e.block ≤ 4294967295
  fault := .invalidParameter "r" (e.block.repr ++ " does not fit a block size")

def blockPositive (e : DescribedOperator) : Requirement LoweringError where
  met := e.block ≠ 0
  fault := .invalidParameter "r" "block size must be positive"

def requirements (names : List String) (e : DescribedOperator) : List (Requirement LoweringError) :=
  [e.knownKind,
    named e.inputs "x" (.missingInput e.label "x"), e.declared names e.inputs "x",
    named e.outputs "y" (.missingOutput e.label "y"), e.declared names e.outputs "y",
    e.hasBlock, e.blockFits, e.blockPositive]

variable {d : Description} {tensors : Table Tensor} {e : DescribedOperator}

theorem decides_parse (e : DescribedOperator) :
    Decides [e.knownKind] (OperatorKind.parse e.kind) := by
  cases h : OperatorKind.parse e.kind with
  | ok k => exact .met ⟨k, OperatorKind.parse_eq_ok_iff.1 h⟩ (.ok k)
  | error err =>
    have hfault : err = .unknownOperatorType e.kind := by
      unfold OperatorKind.parse at h
      split at h <;> cases h
      rfl
    subst hfault
    refine .unmet (q := e.knownKind) ?_ []
    rintro ⟨k, hk⟩
    rw [OperatorKind.parse_eq_ok_iff.2 hk] at h
    cases h

theorem decides_operand (ht : d.Tabulates tensors) (e : DescribedOperator)
    (operands : Table String) (operand : String) (missing : LoweringError) :
    Decides [named operands operand missing, e.declared d.names operands operand]
      (e.operand tensors operands operand missing) := by
  unfold DescribedOperator.operand
  split
  · next hnone => exact .unmet (q := named operands operand missing) (by simp [named, hnone]) _
  · next name hname =>
    refine .met ⟨name, hname⟩ ?_
    split
    · next hnone =>
      have hundeclared : ¬ (e.declared d.names operands operand).met := by
        simp [declared, hname, ht.mem_names_iff, hnone]
      have hfault := Decides.unmet (α := Tensor) hundeclared []
      simpa [declared, hname] using hfault
    · next t hsome => exact .met ⟨name, ht.mem_names_iff.2 ⟨t, hsome⟩, hname⟩ (.ok t)

theorem block_of_get? {r : Int64} (h : e.parameters.get? "r" = some r) : e.block = r.toInt := by
  rw [block, h, Option.map_some, Option.getD_some]

theorem exists_of_blockSize {n : UInt32} (h : e.blockSize = .ok n) :
    ∃ r, e.parameters.get? "r" = some r ∧ r.toInt = n.toNat := by
  unfold blockSize at h
  split at h
  · cases h
  · next r hr =>
    split at h
    · next m hm =>
      cases h
      exact ⟨r, hr, (toNat_of_uint32? hm).symm⟩
    · cases h

theorem decides_blockSize (e : DescribedOperator) :
    Decides [e.hasBlock, e.blockFits] e.blockSize := by
  unfold blockSize
  split
  · next hnone => exact .unmet (q := e.hasBlock) (by simp [hasBlock, hnone]) _
  · next r hr =>
    refine .met ⟨r, hr⟩ ?_
    have hfits : e.blockFits.met ↔ (uint32? r.toInt).isSome := by
      rw [isSome_uint32?, ← block_of_get? hr]
      rfl
    rw [← block_of_get? hr] at hfits ⊢
    cases hn : uint32? e.block with
    | some n => exact .met (hfits.2 (by simp [hn])) (.ok n)
    | none => exact .unmet (q := e.blockFits) (by simp [hfits, hn]) []

theorem decides_ofBlock {kind : OperatorKind} {x y : Tensor} {n : UInt32} (h : e.blockSize = .ok n) :
    Decides [e.blockPositive] (Operator.ofBlock kind e.id x y n) := by
  obtain ⟨r, hr, hn⟩ := exists_of_blockSize h
  have hpositive : e.blockPositive.met ↔ n ≠ 0 := by
    change e.block ≠ 0 ↔ _
    rw [block_of_get? hr, hn, ne_eq, ne_eq, Int.natCast_eq_zero, ← UInt32.toNat_inj,
      UInt32.toNat_zero]
  unfold Operator.ofBlock
  split
  · next hzero => exact .unmet (q := e.blockPositive) (fun hp => hpositive.1 hp hzero) []
  · next hne => exact .met (hpositive.2 hne) (.ok _)

theorem decides_resolve (ht : d.Tabulates tensors) (e : DescribedOperator) :
    Decides (e.requirements d.names) (e.resolve tensors) := by
  unfold resolve
  refine (decides_parse e).step fun _ kind _ => ?_
  refine (decides_operand ht e e.inputs "x" _).bind fun _ x _ => ?_
  refine (decides_operand ht e e.outputs "y" _).bind fun _ y _ => ?_
  refine (decides_blockSize e).bind fun _ n hn => ?_
  exact decides_ofBlock hn

theorem forall_requirements_iff {names : List String} :
    (∀ q ∈ e.requirements names, q.met) ↔ e.Sound names := by
  simp only [requirements, List.forall_mem_cons, List.not_mem_nil, false_imp_iff, implies_true,
    and_true]
  constructor
  · rintro ⟨hkind, -, hx, -, hy, ⟨r, hr⟩, hfits, hpositive⟩
    refine ⟨hkind, hx, hy, r, hr, ?_⟩
    have hblock := block_of_get? hr
    simp only [blockFits, blockPositive] at hfits hpositive
    omega
  · rintro ⟨hkind, hx, hy, r, hr, hlow, hhigh⟩
    have hblock := block_of_get? hr
    refine ⟨hkind, ?_, hx, ?_, hy, ⟨r, hr⟩, ?_, ?_⟩
    · obtain ⟨name, -, hname⟩ := hx
      exact ⟨name, hname⟩
    · obtain ⟨name, -, hname⟩ := hy
      exact ⟨name, hname⟩
    · simp only [blockFits]
      omega
    · simp only [blockPositive]
      omega

theorem exists_of_operand (ht : d.Tabulates tensors) {operands : Table String} {operand : String}
    {missing : LoweringError} {t : Tensor} (h : e.operand tensors operands operand missing = .ok t) :
    ∃ name entry, operands.get? operand = some name ∧ d.tensor? name = some entry ∧
      entry.Describes t := by
  unfold DescribedOperator.operand at h
  split at h
  · cases h
  · next name hname =>
    split at h
    · cases h
    · next u hu =>
      cases h
      obtain ⟨entry, hentry, hdescribes⟩ := ht.exists_tensor? hu
      exact ⟨name, entry, hname, hentry, hdescribes⟩

theorem describes_of_resolve (ht : d.Tabulates tensors) {op : Operator}
    (h : e.resolve tensors = .ok op) : e.Describes d op := by
  unfold resolve at h
  obtain ⟨kind, hkind, h⟩ := bind_eq_ok h
  obtain ⟨x, hx, h⟩ := bind_eq_ok h
  obtain ⟨y, hy, h⟩ := bind_eq_ok h
  obtain ⟨n, hn, h⟩ := bind_eq_ok h
  unfold Operator.ofBlock at h
  split at h
  · cases h
  · cases h
    exact ⟨OperatorKind.parse_eq_ok_iff.1 hkind, rfl, exists_of_operand ht hx,
      exists_of_operand ht hy, exists_of_blockSize hn⟩

def freshId (earlier : List UInt32) (e : DescribedOperator) : Requirement LoweringError where
  met := e.id ∉ earlier
  fault := .duplicateOperatorId e.id

/-- No entry has the id of an earlier one, nor one of these. -/
def freshIds (earlier : List UInt32) : List DescribedOperator → List (Requirement LoweringError)
  | [] => []
  | e :: es => e.freshId earlier :: freshIds (e.id :: earlier) es

theorem decides_firstRepeat? (earlier : List UInt32) (es : List DescribedOperator) :
    Decides (freshIds earlier es) (match Text.firstRepeat? earlier (es.map DescribedOperator.id) with
      | none => .ok ()
      | some id => .error (LoweringError.duplicateOperatorId id)) := by
  induction es generalizing earlier with
  | nil => exact .ok ()
  | cons e es ih =>
    rw [List.map_cons, Text.firstRepeat?]
    by_cases h : e.id ∈ earlier
    · rw [if_pos h]
      exact .unmet (q := e.freshId earlier) (not_not_intro h) _
    · rw [if_neg h]
      exact .met h (ih (e.id :: earlier))

theorem forall_freshIds_iff {es : List DescribedOperator} :
    (∀ q ∈ freshIds [] es, q.met) ↔ (es.map DescribedOperator.id).Nodup := by
  rw [← (decides_firstRepeat? [] es).exists_ok_iff]
  have hnone : Text.firstRepeat? [] (es.map DescribedOperator.id) = none ↔ _ :=
    Text.firstRepeat?_eq_none
  split
  · next h => simpa using hnone.1 h
  · next id h =>
    rw [h] at hnone
    simpa using hnone

theorem exists_of_mem_freshIds {q : Requirement LoweringError} {earlier : List UInt32}
    {es : List DescribedOperator} (h : q ∈ freshIds earlier es) :
    ∃ (before : List UInt32) (e : DescribedOperator), q = e.freshId before := by
  induction es generalizing earlier with
  | nil => cases h
  | cons e es ih =>
    rcases List.mem_cons.1 h with rfl | h
    · exact ⟨earlier, e, rfl⟩
    · exact ih h

theorem decides_ofOperators {es : List DescribedOperator} {ops : List Operator}
    (h : ops.map Operator.id = es.map DescribedOperator.id) :
    Decides (freshIds [] es) (Graph.ofOperators ops) := by
  have hids := decides_firstRepeat? [] es
  rw [← h] at hids
  unfold Graph.ofOperators
  split
  · next hnone =>
    rw [hnone] at hids
    exact hids.map fun _ => _
  · next id hsome =>
    rw [hsome] at hids
    -- the error is passed on, so any graph will do
    exact hids.map fun _ => ⟨[], List.nodup_nil⟩

end DescribedOperator

def LoweringError.operator? : LoweringError → Option String
  | missingHandler op => some op
  | layoutMismatch op _ _ _ => some op
  | unknownTensor op _ => some op
  | missingInput op _ => some op
  | missingOutput op _ => some op
  | missingParameter op _ => some op
  | lowering op _ => some op
  | _ => none

/-- What comes after the type is reported under the label that the operator will have. -/
theorem DescribedOperator.label_of_firstUnmet {e : DescribedOperator} {names : List String}
    {q : Requirement LoweringError} (h : FirstUnmet (e.requirements names) q) :
    ∀ label ∈ q.fault.operator?, e.knownKind.met ∧ label = e.label := by
  intro label hlabel
  by_cases hkind : e.knownKind.met
  · refine ⟨hkind, ?_⟩
    have hmem := h.mem
    simp only [requirements, List.mem_cons, List.not_mem_nil, or_false] at hmem
    rcases hmem with rfl | rfl | rfl | rfl | rfl | rfl | rfl | rfl <;> cases hlabel <;> rfl
  · rw [requirements, firstUnmet_cons_of_unmet hkind] at h
    subst h
    cases hlabel

namespace Description

variable {d : Description}

/-- All conditions, in the order in which they are looked at. -/
def requirements (d : Description) : List (Requirement LoweringError) :=
  d.tensors.flatMap DescribedTensor.requirements ++
    (d.operators.flatMap (DescribedOperator.requirements d.names) ++
      DescribedOperator.freshIds [] d.operators)

structure Sound (d : Description) : Prop where
  tensors : ∀ e ∈ d.tensors, e.Sound
  operators : ∀ e ∈ d.operators, e.Sound d.names
  ids : (d.operators.map DescribedOperator.id).Nodup

theorem forall_requirements_iff : (∀ q ∈ d.requirements, q.met) ↔ d.Sound := by
  simp only [requirements, List.forall_mem_append, List.forall_mem_flatMap,
    DescribedTensor.forall_requirements_iff, DescribedOperator.forall_requirements_iff,
    DescribedOperator.forall_freshIds_iff]
  exact ⟨fun h => ⟨h.1, h.2.1, h.2.2⟩, fun h => ⟨h.tensors, h.operators, h.ids⟩⟩

theorem describes_of_mapM {tensors : Table Tensor} (ht : d.Tabulates tensors) {ops : List Operator}
    (h : d.operators.mapM (·.resolve tensors) = .ok ops) :
    List.Forall₂ (DescribedOperator.Describes d) d.operators ops :=
  (mapM_eq_ok_iff_forall₂.1 h).imp fun _ _ => DescribedOperator.describes_of_resolve ht

theorem ids_eq {es : List DescribedOperator} {ops : List Operator}
    (h : List.Forall₂ (DescribedOperator.Describes d) es ops) :
    ops.map Operator.id = es.map DescribedOperator.id := by
  induction h with
  | nil => rfl
  | cons he _ ih => rw [List.map_cons, List.map_cons, he.id, ih]

theorem decides_resolve (d : Description) : Decides d.requirements d.resolve := by
  have htensors : Decides (d.tensors.flatMap DescribedTensor.requirements) d.tensorTable :=
    (Decides.mapM DescribedTensor.decides_resolve d.tensors).map _
  unfold resolve
  refine htensors.bind fun _ tensors h => ?_
  have ht := tabulates_of_tensorTable h
  refine (Decides.mapM (DescribedOperator.decides_resolve ht) d.operators).bind fun _ ops hops => ?_
  exact (DescribedOperator.decides_ofOperators (ids_eq (describes_of_mapM ht hops))).map _

theorem describes_of_parts {g : Graph} {layout : MemoryLayout} (h : d.resolve = .ok (g, layout)) :
    List.Forall₂ (DescribedOperator.Describes d) d.operators g.operators ∧ layout = d.layout := by
  unfold resolve at h
  obtain ⟨tensors, htensors, h⟩ := bind_eq_ok h
  obtain ⟨ops, hops, h⟩ := bind_eq_ok h
  obtain ⟨graph, hgraph, h⟩ := bind_eq_ok h
  cases h
  unfold Graph.ofOperators at hgraph
  split at hgraph
  · cases hgraph
    exact ⟨describes_of_mapM (tabulates_of_tensorTable htensors) hops, rfl⟩
  · cases hgraph

theorem exists_entry_of_label {q : Requirement LoweringError} (h : FirstUnmet d.requirements q) :
    ∀ label ∈ q.fault.operator?, ∃ e ∈ d.operators, e.knownKind.met ∧ label = e.label := by
  intro label hlabel
  rcases h.append_cases with htensor | h
  · obtain ⟨e, -, hq⟩ := htensor.exists_of_flatMap
    rcases List.mem_cons.1 hq.mem with rfl | hmem
    · cases hlabel
    · obtain ⟨p, -, rfl⟩ := List.mem_map.1 hmem
      cases hlabel
  · rcases h.append_cases with hoperator | hid
    · obtain ⟨e, he, hq⟩ := hoperator.exists_of_flatMap
      exact ⟨e, he, DescribedOperator.label_of_firstUnmet hq label hlabel⟩
    · obtain ⟨earlier, e, rfl⟩ := DescribedOperator.exists_of_mem_freshIds hid.mem
      cases hlabel

/-- A description is resolved where it is sound. The graph then has one operator for each entry, in
their order, and the layout is the described one; otherwise the first condition that does not hold is
reported, an operator of a known type by the label that it would have in the graph. -/
theorem resolve_verdict (d : Description) :
    ((∃ parts, d.resolve = .ok parts) ↔ d.Sound) ∧
    (∀ g layout, d.resolve = .ok (g, layout) →
      List.Forall₂ (DescribedOperator.Describes d) d.operators g.operators ∧ layout = d.layout) ∧
    (∀ e, d.resolve = .error e ↔ ∃ q, FirstUnmet d.requirements q ∧ q.fault = e) ∧
    ∀ e, d.resolve = .error e → ∀ label ∈ e.operator?, ∃ entry ∈ d.operators,
      ∃ kind : OperatorKind, kind.tag = OperatorKind.foldCase entry.kind ∧
        ∀ op : Operator, op.kind = kind → op.id = entry.id → op.label = label := by
  have herror (e : LoweringError) :
      d.resolve = .error e ↔ ∃ q, FirstUnmet d.requirements q ∧ q.fault = e :=
    d.decides_resolve.eq_error_iff
  refine ⟨?_, fun g layout => describes_of_parts, herror, fun e he label hlabel => ?_⟩
  · rw [d.decides_resolve.exists_ok_iff, forall_requirements_iff]
  · obtain ⟨q, hq, rfl⟩ := (herror e).1 he
    obtain ⟨entry, hentry, ⟨kind, hkind⟩, rfl⟩ := exists_entry_of_label hq label hlabel
    refine ⟨entry, hentry, kind, hkind, fun op hop hid => ?_⟩
    rw [Operator.label, DescribedOperator.label, hop, hid, hkind]

/-- The second tensor of a name hides the first one, and case does not matter. -/
example :
    let d : Description := ⟨[⟨"x", .nchw, [1, 8, 1, 1]⟩, ⟨"y", .nhwc, [1, 2, 2, 1]⟩,
      ⟨"x", .nhwc, [1, 1, 1, 4]⟩], [⟨3, "Depth2Space", .ofList [("x", "x"), ("z", "w")],
        .ofList [("y", "y")], .ofList [("r", 2)]⟩], .empty⟩
    (d.resolve.map fun parts => parts.1.operators.map fun op => (op.label, op.x.shape)) =
      .ok [("depth2space#3", [1, 1, 1, 4])] := by
  decide +kernel

end Description

end TensorKernels
