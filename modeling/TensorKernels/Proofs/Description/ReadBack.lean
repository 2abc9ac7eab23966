import TensorKernels.Description
import TensorKernels.Json.Reader
import TensorKernels.Proofs.Fallible
import TensorKernels.Proofs.Json.WrittenText

set_option autoImplicit false

namespace TensorKernels

namespace Json

section Record

variable {σ : Type} {record : List (Field σ)}

theorem readFields_zip {fields : List (Field σ)} {seen : List String}
    (hnodup : ((fields.map Field.name).reverse ++ seen).Nodup)
    (hfind : ∀ f ∈ fields, record.find? (·.name = f.name) = some f) {values : List Json}
    (hlength : values.length = fields.length) (s : σ) :
    readFields record seen ((fields.map Field.name).zip values) s =
      (readPositions fields values s).map (·, (fields.map Field.name).reverse ++ seen) := by
  -- each field that is left is found under its name, and has not come
  induction fields generalizing seen values s with
  | nil =>
    cases values with
    | nil => rfl
    | cons v values => cases hlength
  | cons f fields ih =>
    cases values with
    | nil => cases hlength
    | cons v values =>
      rw [List.forall_mem_cons] at hfind
      rw [List.map_cons, List.reverse_cons, List.append_assoc, List.singleton_append] at hnodup ⊢
      have hseen : f.name ∉ seen := (List.nodup_cons.1 (List.nodup_append.1 hnodup).2.1).1
      rw [List.zip_cons_cons, readFields, hfind.1]
      dsimp only
      rw [if_neg hseen, readPositions]
      cases f.put v s with
      | error e => rfl
      | ok s' => exact ih hnodup hfind.2 (Nat.succ.inj hlength) s'

theorem readRecord_obj_eq_arr (values : List Json) (hlength : values.length = record.length)
    (hnodup : (record.map Field.name).Nodup) (blank : σ) :
    readRecord record blank (obj ((record.map Field.name).zip values)) =
      readRecord record blank (arr values) := by
  have hseen : ((record.map Field.name).reverse ++ []).Nodup := by
    rw [List.append_nil]
    exact List.pairwise_reverse.2 (hnodup.imp Ne.symm)
  rw [readRecord, readRecord,
    readFields_zip hseen (fun _ hf => find?_eq_some_of_nodup hnodup hf) hlength]
  cases readPositions record values blank with
  | error e => rfl
  | ok s =>
    change (if _ then _ else _) = _
    rw [if_neg]
    simp only [List.any_eq_true, Bool.and_eq_true, decide_eq_true_eq, List.append_nil,
      List.mem_reverse]
    rintro ⟨f, hf, -, hseen⟩
    exact hseen (List.mem_map_of_mem hf)

end Record

def ReadsBack {α : Type} (write : α → Json) (read : Json → Except Mismatch α) : Prop :=
  ∀ a, read (write a) = .ok a

end Json

theorem Table.insertEntry_of_lt {α : Type} {k : String} {es : List (String × α)}
    (h : ∀ e ∈ es, e.1 < k) (v : α) : insertEntry k v es = es ++ [(k, v)] := by
  induction es with
  | nil => rfl
  | cons e es ih =>
    rw [List.forall_mem_cons] at h
    obtain ⟨hlt, hes⟩ := h
    have hne : k ≠ e.1 := by
      rintro rfl
      exact String.lt_irrefl _ hlt
    rw [insertEntry, if_neg hne, if_neg (String.lt_asymm hlt), ih hes, List.cons_append]

namespace Json.ReadsBack

variable {α : Type} {write : α → Json} {read : Json → Except Mismatch α}

theorem list (h : ReadsBack write read) :
    ReadsBack (fun as => arr (as.map write)) (readList read) := by
  intro as
  rw [readList, mapM_eq_ok_iff, List.map_map]
  exact List.map_congr_left fun a _ => h a

theorem foldlM_insert (h : ReadsBack write read) (after : List (String × α)) {t : Table α}
    (ascending : ((t.entries ++ after).map Prod.fst).Pairwise (· < ·)) :
    ∃ u, (after.map fun e => (e.1, write e.2)).foldlM (fun t f => do
        let v ← read f.2
        return t.insert f.1 v) t = Except.ok u ∧ u.entries = t.entries ++ after := by
  -- each entry that is left is put behind the others
  induction after generalizing t with
  | nil => exact ⟨t, rfl, (List.append_nil _).symm⟩
  | cons e after ih =>
    have hlast : (t.insert e.1 e.2).entries = t.entries ++ [e] := by
      rw [List.map_append, List.pairwise_append] at ascending
      exact Table.insertEntry_of_lt (fun b hb => ascending.2.2 _
        (List.mem_map_of_mem hb) _ List.mem_cons_self) e.2
    rw [List.append_cons, ← hlast] at ascending
    obtain ⟨u, hu, hentries⟩ := ih ascending
    refine ⟨u, ?_, by rw [hentries, hlast, ← List.append_cons]⟩
    rw [List.map_cons, List.foldlM_cons, h e.2]
    exact hu

theorem table (h : ReadsBack write read) : ReadsBack (Table.toJson write) (readTable read) := by
  intro t
  obtain ⟨u, hu, hentries⟩ := h.foldlM_insert t.entries (t := .empty) t.ascending
  rw [Table.toJson, readTable, hu, Table.ext hentries]

end Json.ReadsBack

open Json (ReadsBack)

def FitsWord (n : Int) : Prop := n.natAbs ≤ 18446744073709551615

theorem fitsWord_uint32 (n : UInt32) : FitsWord n.toNat := by
  have := n.toNat_lt
  unfold FitsWord
  omega

theorem fitsWord_int64 (v : Int64) : FitsWord v.toInt := by
  have := v.toInt_lt
  have := v.le_toInt
  unfold FitsWord
  omega

namespace Json

theorem readsBack_str : ReadsBack .str readText := fun _ => rfl

theorem readsBack_uint32 : ReadsBack (fun n : UInt32 => .nat n.toNat) readUInt32 := by
  intro n
  change readUInt32 (.int n.toNat) = _
  rw [readUInt32, uint32?_toNat]
  rfl

theorem readsBack_int64 : ReadsBack (fun v : Int64 => .int v.toInt) readInt64 := by
  intro v
  have := v.toInt_lt
  have := v.le_toInt
  have hword : int64? v.toInt = some v.toInt := int64?_eq_some.2 ⟨rfl, by omega, by omega⟩
  rw [readInt64, hword, Option.map_some, Int64.ofInt_toInt]
  rfl

end Json

theorem Segment.readsBack : ReadsBack (fun s : Segment => .str s.name) Segment.ofJson := by
  intro s
  cases s <;> rfl

theorem Offset.readsBack : ReadsBack Offset.toJson Offset.ofJson := by
  intro o
  cases o with
  | fixed elements =>
    have hread := Json.readsBack_uint32 elements
    change Except.map Offset.fixed (Json.readUInt32 (.nat elements.toNat)) = _
    rw [hread]
    rfl
  | deferred label => rfl

theorem Allocation.readsBack : ReadsBack Allocation.toJson Allocation.ofJson := by
  intro a
  calc Allocation.ofJson a.toJson
    _ = _ := Json.readRecord_obj_eq_arr
      [.str a.segment.name, a.offset.toJson, .nat a.size.toNat] rfl (by decide) _
    _ = .ok a := by
      simp only [Json.readRecord, Json.readPositions]
      rw [Segment.readsBack, Offset.readsBack, Json.readsBack_uint32]
      rfl

theorem Order.readsBack : ReadsBack Order.toJson Order.ofJson := by
  intro o
  change Except.mapError _ (parse o.toString) = _
  rw [parse_toString]
  rfl

theorem DescribedTensor.readsBack : ReadsBack DescribedTensor.toJson DescribedTensor.ofJson := by
  intro e
  calc DescribedTensor.ofJson e.toJson
    _ = _ := Json.readRecord_obj_eq_arr [.str e.name, e.order.toJson,
      .arr (e.shape.map fun d : UInt32 => .nat d.toNat)] rfl (by decide) _
    _ = .ok e := by
      simp only [Json.readRecord, Json.readPositions]
      rw [Json.readsBack_str, Order.readsBack, Json.readsBack_uint32.list]
      rfl

theorem DescribedOperator.readsBack :
    ReadsBack DescribedOperator.toJson DescribedOperator.ofJson := by
  intro e
  calc DescribedOperator.ofJson e.toJson
    _ = _ := Json.readRecord_obj_eq_arr [.nat e.id.toNat, .str e.kind, e.inputs.toJson .str,
      e.outputs.toJson .str, e.parameters.toJson fun v : Int64 => .int v.toInt] rfl (by decide) _
    _ = .ok e := by
      simp only [Json.readRecord, Json.readPositions]
      rw [Json.readsBack_uint32, Json.readsBack_str, Json.readsBack_str.table,
        Json.readsBack_str.table, Json.readsBack_int64.table]
      rfl

theorem Description.readsBack : ReadsBack Description.toJson Description.ofJson := by
  intro d
  calc Description.ofJson d.toJson
    _ = _ := Json.readRecord_obj_eq_arr [.arr (d.tensors.map DescribedTensor.toJson),
      .arr (d.operators.map DescribedOperator.toJson), d.layout.toJson Allocation.toJson]
      rfl (by decide) _
    _ = .ok d := by
      simp only [Json.readRecord, Json.readPositions]
      rw [DescribedTensor.readsBack.list, DescribedOperator.readsBack.list,
        Allocation.readsBack.table]
      rfl

theorem Table.plain_toJson {α : Type} {P : Int → Prop} {write : α → Json}
    (h : ∀ a, (write a).Plain P) (t : Table α) : (t.toJson write).Plain P :=
  .obj (List.forall_mem_map.2 fun e _ => h e.2)

theorem Allocation.plain_toJson (a : Allocation) : a.toJson.Plain FitsWord := by
  have hoffset : a.offset.toJson.Plain FitsWord := by
    cases a.offset with
    | fixed elements => exact .int (fitsWord_uint32 elements)
    | deferred label => exact .obj (List.forall_mem_singleton.2 (.str label))
  refine .obj ?_
  simp only [List.forall_mem_cons]
  exact ⟨.str _, hoffset, .int (fitsWord_uint32 _), nofun⟩

theorem DescribedTensor.plain_toJson (e : DescribedTensor) : e.toJson.Plain FitsWord := by
  refine .obj ?_
  simp only [List.forall_mem_cons]
  exact ⟨.str _, .str _, .arr (List.forall_mem_map.2 fun n _ => .int (fitsWord_uint32 n)), nofun⟩

theorem DescribedOperator.plain_toJson (e : DescribedOperator) : e.toJson.Plain FitsWord := by
  refine .obj ?_
  simp only [List.forall_mem_cons]
  exact ⟨.int (fitsWord_uint32 _), .str _, Table.plain_toJson .str _, Table.plain_toJson .str _,
    Table.plain_toJson (fun v => .int (fitsWord_int64 v)) _, nofun⟩

theorem Description.plain_toJson (d : Description) : d.toJson.Plain FitsWord := by
  refine .obj ?_
  simp only [List.forall_mem_cons]
  exact ⟨.arr (List.forall_mem_map.2 fun e _ => e.plain_toJson),
    .arr (List.forall_mem_map.2 fun e _ => e.plain_toJson),
    Table.plain_toJson Allocation.plain_toJson _, nofun⟩

namespace Description

theorem parse?_text (d : Description) : Json.parse? d.text = some d.toJson :=
  d.plain_toJson.parse?_write Spacing.isBlank_compact (fun _ h => h) 0

/-- The text of a description is well-formed, and the description is read off it. What was read of any
text can be written and read again, and nothing changes any more. -/
theorem read_text :
    (∀ d : Description, Json.parse? d.text = some d.toJson ∧ read d.text = .ok d) ∧
    ∀ (text : String) (d : Description), read text = .ok d →
      ∃ e, read d.text = .ok e ∧ e = d ∧ e.resolve = d.resolve ∧ e.text = d.text := by
  have hread (d : Description) : read d.text = .ok d := by
    rw [read, parse?_text]
    dsimp only
    rw [readsBack]
  exact ⟨fun d => ⟨d.parse?_text, hread d⟩, fun _ d _ => ⟨d, hread d, rfl, rfl, rfl⟩⟩

/-- An array in the place of an object, an escape and a lower-case axis are not kept. -/
theorem read_text_respelled :
    let given := "\x7b\"operators\": [], \"tensors\": [[\"\\u0078\", \"cN\", [2, 3]]]\x7d"
    let kept := "\x7b\"tensors\":[\x7b\"name\":\"x\",\"order\":\"CN\",\"shape\":[2,3]\x7d]," ++
      "\"operators\":[],\"layout\":\x7b\x7d\x7d"
    ∃ d, read given = .ok d ∧ d.text = kept ∧
      ∃ e, read d.text = .ok e ∧ e = d ∧ e.resolve = d.resolve ∧ e.text = d.text := by
  intro given kept
  have hrun : (read given).toOption.map text = some kept := by decide +kernel
  obtain ⟨d, hd, htext⟩ := Option.map_eq_some_iff.1 hrun
  have hread := eq_ok_of_toOption hd
  exact ⟨d, hread, htext, read_text.2 given d hread⟩

end Description

end TensorKernels
