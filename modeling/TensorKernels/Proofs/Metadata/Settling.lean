import TensorKernels.Kernel.Patch
import TensorKernels.Memory
import TensorKernels.Proofs.Metadata.Cells

set_option autoImplicit false

namespace TensorKernels

/-- The second value is the first one or, where that is a label of the dynamic segment, the offset
that the label is bound to. -/
inductive LoadValue.Settles (b : Bindings) : LoadValue → LoadValue → Prop
  | refl (v : LoadValue) : Settles b v v
  | bound {label : String} {size : UInt32} {n : Nat} : b.get? label = some (n : Int) →
    n ≤ maxInt32 → Settles b (.allocation ⟨.dynamic, .deferred label, size⟩)
      (.allocation ⟨.dynamic, .fixed (.ofNat n), size⟩)

theorem LoadValue.settles_settle {b : Bindings} {a : Allocation} (h : a.BoundBy b) :
    Settles b (.allocation a) (.allocation (a.settle b)) := by
  rcases a.settle_eq_or b h with e | ⟨label, size, n, hn, hb, rfl, e⟩
  · rw [e]
    exact .refl _
  · rw [e]
    exact .bound hb hn

theorem toNat_ofNat_of_le {n : Nat} (h : n ≤ maxInt32) : (UInt32.ofNat n).toNat = n := by
  rw [maxInt32] at h
  exact UInt32.toNat_ofNat_of_lt' (by change n < 4294967296; omega)

theorem int32?_natCast {n : Nat} (h : n ≤ maxInt32) : int32? n = some (.ofNat n) := by
  rw [maxInt32] at h
  rw [int32?, if_pos (by omega), Int32.ofInt_eq_ofNat]

namespace Registry

abbrev EntriesSettle (b : Bindings) : List (String × LoadValue) → List (String × LoadValue) → Prop :=
  List.Forall₂ fun e f => e.1 = f.1 ∧ e.2.Settles b f.2

variable {b : Bindings} {es fs : List (String × LoadValue)}

theorem EntriesSettle.keys_eq (h : EntriesSettle b es fs) : es.map Prod.fst = fs.map Prod.fst := by
  induction h with
  | nil => rfl
  | cons he _ ih => rw [List.map_cons, List.map_cons, he.1, ih]

theorem EntriesSettle.checkOffsets_eq (h : EntriesSettle b es fs) :
    checkOffsets es = checkOffsets fs := by
  induction h with
  | nil => rfl
  | @cons e f es fs he _ ih =>
    obtain ⟨key, v⟩ := e
    obtain ⟨_, w⟩ := f
    obtain ⟨rfl, hv⟩ := he
    simp only [checkOffsets, ih]
    cases hv with
    | refl => rfl
    | @bound label size n hb hn =>
      simp only [LoadValue.cellOffset?, toNat_ofNat_of_le hn, hn, if_true]

theorem EntriesSettle.placeFrom_loads (h : EntriesSettle b es fs) (next : Nat) :
    (placeFrom next es).map (fun p => (p.key, p.loadText)) =
      (placeFrom next fs).map fun p => (p.key, p.loadText) := by
  induction h generalizing next with
  | nil => rfl
  | @cons e f es fs he _ ih =>
    obtain ⟨key, v⟩ := e
    obtain ⟨_, w⟩ := f
    obtain ⟨rfl, hv⟩ := he
    cases hv with
    | refl => simp only [placeFrom, List.map_cons, ih]
    | bound hb hn =>
      simp only [placeFrom, List.map_cons, ih, LoadValue.needsCell, if_true]
      rfl

def entryCells (es : List (String × LoadValue)) : Cells :=
  (es.filter fun e => e.2.needsCell).map fun e => e.2.cell

theorem loadText_eq_find? (r : Registry) (key : String) : r.loadText key =
    (((r.placed.map fun p => (p.key, p.loadText)).find? fun e => e.1 = key).map Prod.snd).getD "" := by
  rw [List.find?_map, Option.map_map]
  rfl

theorem loadText_eq_of_settle {r s : Registry} (h : EntriesSettle b r.entries s.entries) :
    r.loadText = s.loadText := by
  funext key
  have hplaced := h.placeFrom_loads 0
  rw [loadText_eq_find?, loadText_eq_find?, placed, placed, hplaced]

end Registry

namespace Unresolved

def cellValue (b : Bindings) (u : Unresolved) : Except LoweringError Cell := do
  let v ← b.require u.label
  match int32? v with
  | some w => .ok (Cell.ofInt32 w)
  | none =>
    .error (.invalidParameter u.key (braced u.label ++ " bound to " ++ v.repr ++
      " which exceeds the 32-bit metadata cell"))

theorem fill_append {b : Bindings} {u : Unresolved} {before : Cells} (c : Cell) (after : Cells)
    (h : u.cell = before.length) :
    u.fill b (before ++ c :: after) = (u.cellValue b).map fun w => before ++ w :: after := by
  have hlt : u.cell < (before ++ c :: after).length := by
    rw [h, List.length_append, List.length_cons]
    omega
  have hset (w : Cell) : (before ++ c :: after).set u.cell w = before ++ w :: after := by
    rw [h, List.set_append_right _ _ (Nat.le_refl _), Nat.sub_self, List.set_cons_zero]
  unfold fill cellValue
  cases b.require u.label with
  | error e => rfl
  | ok v =>
    change (match int32? v with | some w => _ | none => _) = Except.map _ (match int32? v with
      | some w => _ | none => _)
    cases int32? v with
    | none => rfl
    | some w =>
      simp only [if_pos hlt, hset]
      rfl

theorem cellValue_of_bound {b : Bindings} {u : Unresolved} {n : Nat}
    (hb : b.get? u.label = some (n : Int)) (hn : n ≤ maxInt32) :
    u.cellValue b = .ok (.ofNat n) := by
  unfold cellValue Bindings.require
  rw [hb]
  change (match int32? n with | some w => _ | none => _) = _
  rw [int32?_natCast hn]
  exact congrArg Except.ok Int32.toUInt32_ofNat'

end Unresolved

namespace Registry

variable {b : Bindings} {es fs : List (String × LoadValue)}

/-- The values left for the loader, where the next free cell is `next`. -/
def entryUnresolved (next : Nat) (es : List (String × LoadValue)) : List Unresolved :=
  (placeFrom next es).filterMap Placed.unresolved?

theorem entryUnresolved_of_not_needsCell {next : Nat} {key : String} {v : LoadValue}
    (h : v.needsCell = false) :
    entryUnresolved next ((key, v) :: es) = entryUnresolved next es := by
  have hl := LoadValue.label?_eq_none_of_not_needsCell h
  simp [entryUnresolved, placeFrom, Placed.unresolved?, hl, h]

theorem entryUnresolved_of_known {next : Nat} {key : String} {v : LoadValue} (h : v.needsCell)
    (hl : v.label? = none) :
    entryUnresolved next ((key, v) :: es) = entryUnresolved (next + 1) es := by
  simp [entryUnresolved, placeFrom, Placed.unresolved?, hl, h]

theorem entryUnresolved_of_label {next : Nat} {key label : String} {v : LoadValue}
    (hl : v.label? = some label) : entryUnresolved next ((key, v) :: es) =
      ⟨next, next * Cell.width, key, label⟩ :: entryUnresolved (next + 1) es := by
  have h := LoadValue.needsCell_of_label?_eq_some hl
  simp [entryUnresolved, placeFrom, Placed.unresolved?, hl, h]

theorem entryCells_of_needsCell {key : String} {v : LoadValue} (h : v.needsCell) :
    entryCells ((key, v) :: es) = v.cell :: entryCells es := by
  simp [entryCells, h]

theorem entryCells_of_not_needsCell {key : String} {v : LoadValue} (h : v.needsCell = false) :
    entryCells ((key, v) :: es) = entryCells es := by
  simp [entryCells, h]

def filled (b : Bindings) (before : Cells) (es : List (String × LoadValue)) :
    Except LoweringError Cells :=
  (entryUnresolved before.length es).foldlM (Unresolved.fill b) (before ++ entryCells es)

theorem filled_of_not_needsCell {before : Cells} {key : String} {v : LoadValue}
    (h : v.needsCell = false) : filled b before ((key, v) :: es) = filled b before es := by
  rw [filled, entryUnresolved_of_not_needsCell h, entryCells_of_not_needsCell h, filled]

theorem filled_of_known {before : Cells} {key : String} {v : LoadValue} (h : v.needsCell)
    (hl : v.label? = none) :
    filled b before ((key, v) :: es) = filled b (before ++ [v.cell]) es := by
  have hlength : before.length + 1 = (before ++ [v.cell]).length := by
    rw [List.length_append, List.length_singleton]
  calc filled b before ((key, v) :: es)
    _ = (entryUnresolved (before.length + 1) es).foldlM (Unresolved.fill b)
        (before ++ v.cell :: entryCells es) := by
      rw [filled, entryUnresolved_of_known h hl, entryCells_of_needsCell h]
    _ = filled b (before ++ [v.cell]) es := by
      rw [filled, hlength, List.append_assoc, List.singleton_append]

theorem filled_of_label {before : Cells} {key label : String} {v : LoadValue}
    (hl : v.label? = some label) : filled b before ((key, v) :: es) = (do
      let w ← (Unresolved.cellValue b ⟨before.length, before.length * Cell.width, key, label⟩)
      filled b (before ++ [w]) es) := by
  have h := LoadValue.needsCell_of_label?_eq_some hl
  rw [filled, entryUnresolved_of_label hl, entryCells_of_needsCell h, List.foldlM_cons,
    Unresolved.fill_append _ _ rfl]
  cases Unresolved.cellValue b ⟨before.length, before.length * Cell.width, key, label⟩ with
  | error e => rfl
  | ok w =>
    change List.foldlM _ (before ++ w :: entryCells es) _ = filled b (before ++ [w]) es
    rw [filled, List.length_append, List.length_singleton, List.append_assoc,
      List.singleton_append]

theorem EntriesSettle.filled_eq (h : EntriesSettle b es fs) (before : Cells) :
    filled b before es = filled b before fs := by
  -- a label that was put in early is the offset that the loader writes to the same cell
  induction h generalizing before with
  | nil => rfl
  | @cons e f es fs he _ ih =>
    obtain ⟨key, v⟩ := e
    obtain ⟨_, w⟩ := f
    obtain ⟨rfl, hv⟩ := he
    cases hv with
    | refl =>
      cases hn : v.needsCell with
      | false => rw [filled_of_not_needsCell hn, filled_of_not_needsCell hn, ih]
      | true =>
        cases hl : v.label? with
        | none => rw [filled_of_known hn hl, filled_of_known hn hl, ih]
        | some label =>
          rw [filled_of_label hl, filled_of_label hl]
          exact congrArg _ (funext fun w => ih (before ++ [w]))
    | bound hb hn =>
      rw [filled_of_label rfl, Unresolved.cellValue_of_bound hb hn, filled_of_known rfl rfl]
      exact ih _

end Registry

end TensorKernels
