import TensorKernels.Proofs.Metadata.Cells
import TensorKernels.Proofs.Metadata.Registration

set_option autoImplicit false

namespace TensorKernels

/-- What grows when values are registered one by one: the key, the cell and the load expression of
each value, the cells, and the values left for the loader. -/
structure Packing where
  loads : List (String × Option Nat × String)
  cells : Cells
  unresolved : List Unresolved

namespace Packing

def empty : Packing := ⟨[], [], []⟩

def pack (p : Packing) (entry : String × LoadValue) : Packing :=
  let next := p.cells.length
  let load := entry.2.loadText next
  if entry.2.needsCell then
    { loads := p.loads ++ [(entry.1, some next, load)]
      cells := p.cells ++ [entry.2.cell]
      unresolved := p.unresolved ++
        (entry.2.label?.map fun label => ⟨next, next * Cell.width, entry.1, label⟩).toList }
  else { p with loads := p.loads ++ [(entry.1, none, load)] }

end Packing

namespace Registry

def packing (r : Registry) : Packing :=
  ⟨r.placed.map fun p => (p.key, p.cell?, p.loadText), r.cells, r.unresolved⟩

theorem foldl_pack (p : Packing) (es : List (String × LoadValue)) :
    es.foldl Packing.pack p =
      ⟨p.loads ++ (placeFrom p.cells.length es).map fun q => (q.key, q.cell?, q.loadText),
        p.cells ++ (es.filter fun e => e.2.needsCell).map fun e => e.2.cell,
        p.unresolved ++ (placeFrom p.cells.length es).filterMap Placed.unresolved?⟩ := by
  induction es generalizing p with
  | nil => simp [placeFrom]
  | cons e es ih =>
    rw [List.foldl_cons, ih, placeFrom]
    cases hn : e.2.needsCell with
    | true =>
      cases hl : e.2.label? <;>
        simp [Packing.pack, hn, hl, Placed.cell?, Placed.loadText, Placed.unresolved?]
    | false =>
      have hl := LoadValue.label?_eq_none_of_not_needsCell hn
      simp [Packing.pack, hn, hl, Placed.cell?, Placed.loadText, Placed.unresolved?]

theorem packing_eq (r : Registry) : r.entries.foldl Packing.pack .empty = r.packing := by
  rw [foldl_pack]
  rfl

end Registry

namespace LoadValue

/-- The cell says the value: two's complement for integers and offsets, the bits of a float, and
zero for what the loader brings. -/
inductive Holds : LoadValue → Cell → Prop
  | int {v : Int32} {c : Cell} (value : c.toInt = v.toInt) : Holds (.int v) c
  | float {bits : UInt32} : Holds (.float bits) bits
  | offset {elements size : UInt32} {c : Cell} (value : c.toInt = elements.toNat) :
      Holds (.allocation ⟨.dynamic, .fixed elements, size⟩) c
  | deferred {label : String} : Holds (.deferred label) 0
  | deferredOffset {segment : Segment} {label : String} {size : UInt32} :
      Holds (.allocation ⟨segment, .deferred label, size⟩) 0

inductive Awaits (label : String) : LoadValue → Prop
  | value : Awaits label (.deferred label)
  | offset {segment : Segment} {size : UInt32} :
      Awaits label (.allocation ⟨segment, .deferred label, size⟩)

theorem holds_cell {v : LoadValue} (hn : v.needsCell)
    (hfit : ∀ elements, v.cellOffset? = some elements → elements.toNat ≤ maxInt32) :
    v.Holds v.cell := by
  cases v with
  | allocation a =>
    obtain ⟨segment, offset, size⟩ := a
    cases offset with
    | fixed elements =>
      cases segment with
      | static => cases hn
      | dynamic => exact .offset (Cell.toInt_of_le (hfit elements rfl))
    | deferred label => exact .deferredOffset
  | int v => exact .int (Cell.toInt_ofInt32 v)
  | float bits => exact .float
  | deferred label => exact .deferred

theorem label?_eq_some_iff {v : LoadValue} {label : String} :
    v.label? = some label ↔ v.Awaits label := by
  constructor
  · intro h
    unfold label? at h
    split at h
    · cases h
      exact .offset
    · cases h
      exact .value
    · cases h
  · rintro (_ | _) <;> rfl

theorem needsCell_eq_false_iff {v : LoadValue} :
    v.needsCell = false ↔ ∃ elements size, v = .allocation ⟨.static, .fixed elements, size⟩ := by
  constructor
  · intro h
    cases v with
    | allocation a =>
      obtain ⟨elements, size, rfl⟩ := eq_of_not_needsCell h
      exact ⟨elements, size, rfl⟩
    | int v => cases h
    | float bits => cases h
    | deferred label => cases h
  · rintro ⟨elements, size, rfl⟩
    rfl

end LoadValue

namespace Registry

/-- What the keys, the cells and the unresolved values of a registry have to do with each other. -/
structure Consistent (r : Registry) : Prop where
  /-- In the order of registration the cells are `0`, `1` and so on. -/
  numbered : r.keys.filterMap r.cellOf? = List.range r.cells.length
  length : r.cells.length = r.keys.countP fun key => (r.cellOf? key).isSome
  cellless : ∀ p ∈ r.entries, r.cellOf? p.1 = none ↔
    ∃ elements size, p.2 = .allocation ⟨.static, .fixed elements, size⟩
  holds : ∀ p ∈ r.entries, ∀ k, r.cellOf? p.1 = some k → ∃ c, r.cells[k]? = some c ∧ p.2.Holds c
  awaited : ∀ u, u ∈ r.unresolved ↔ ∃ v, (u.key, v) ∈ r.entries ∧ v.Awaits u.label ∧
    r.cellOf? u.key = some u.cell ∧ u.byteOffset = 4 * u.cell
  ascending : (r.unresolved.map Unresolved.cell).Pairwise (· < ·)
  packed : r.entries.foldl Packing.pack .empty = r.packing

theorem cellOf?_eq_none_iff {r : Registry} {p : String × LoadValue} (hp : p ∈ r.entries) :
    r.cellOf? p.1 = none ↔ p.2.needsCell = false := by
  obtain ⟨q, hq, hkey, hvalue⟩ := exists_placed hp
  rw [← hkey, ← hvalue, cellOf?_of_mem hq, Placed.cell?]
  cases q.value.needsCell <;> simp

theorem exists_cell {r : Registry} {p : String × LoadValue} (hp : p ∈ r.entries) {k : Nat}
    (hk : r.cellOf? p.1 = some k) : p.2.needsCell = true ∧ r.cells[k]? = some p.2.cell := by
  obtain ⟨q, hq, hkey, hvalue⟩ := exists_placed hp
  rw [← hkey, cellOf?_of_mem hq, Placed.cell?] at hk
  split at hk
  · next hn =>
    cases hk
    rw [← hvalue]
    exact ⟨hn, getElem?_cells hq hn⟩
  · cases hk

theorem mem_unresolved_iff {r : Registry} {u : Unresolved} :
    u ∈ r.unresolved ↔ ∃ v, (u.key, v) ∈ r.entries ∧ v.Awaits u.label ∧
      r.cellOf? u.key = some u.cell ∧ u.byteOffset = 4 * u.cell := by
  rw [mem_unresolved]
  constructor
  · rintro ⟨p, hp, label, hl, rfl⟩
    refine ⟨p.value, ?_, LoadValue.label?_eq_some_iff.1 hl, ?_, Nat.mul_comm _ _⟩
    · rw [← map_entry_placed]
      exact List.mem_map_of_mem hp
    · rw [cellOf?_of_mem hp, Placed.cell?, if_pos (LoadValue.needsCell_of_label?_eq_some hl)]
  · rintro ⟨v, hmem, hv, hcell, hoffset⟩
    have hl := LoadValue.label?_eq_some_iff.2 hv
    obtain ⟨p, hp, hkey, rfl⟩ := exists_placed hmem
    refine ⟨p, hp, u.label, hl, ?_⟩
    rw [← hkey, cellOf?_of_mem hp, Placed.cell?,
      if_pos (LoadValue.needsCell_of_label?_eq_some hl), Option.some_inj] at hcell
    obtain ⟨cell, byteOffset, key, label⟩ := u
    simp only at hkey hcell hoffset
    subst hkey hcell hoffset
    rw [Nat.mul_comm]
    rfl

theorem consistent_of_not_overflows {r : Registry} (h : ¬ Overflows r.entries) : r.Consistent where
  numbered := r.filterMap_cellOf?
  length := by rw [← List.length_filterMap_eq_countP, r.filterMap_cellOf?, List.length_range]
  cellless p hp := by rw [cellOf?_eq_none_iff hp, LoadValue.needsCell_eq_false_iff]
  holds p hp k hk := by
    obtain ⟨hn, hcell⟩ := exists_cell hp hk
    refine ⟨_, hcell, LoadValue.holds_cell hn fun elements he => Nat.not_lt.1 fun hlarge => ?_⟩
    exact h (overflows_iff.2 ⟨p, hp, elements, he, hlarge⟩)
  awaited _ := mem_unresolved_iff
  ascending := r.pairwise_unresolved
  packed := r.packing_eq

end Registry

namespace Injector

variable {s t : Injector} {batch next : Batch} {e : LoweringError}

theorem register_fst_eq_error_iff :
    (s.register batch).1 = .error e ↔ s.registry.register batch = .error e := by
  unfold register
  cases s.registry.register batch <;> simp

theorem register_eq_ok_iff : s.register batch = (.ok (), t) ↔
    s.registry.register batch = .ok t.registry ∧ t.warnings = s.warnings := by
  obtain ⟨r, warnings⟩ := t
  unfold register
  cases s.registry.register batch <;> simp [eq_comm]

structure Transacts (s : Injector) : Prop where
  fails_iff : ∀ batch, (∃ e, (s.register batch).1 = .error e) ↔
    s.registry.Repeats batch ∨ Registry.Overflows batch
  refuses : ∀ batch e, (s.register batch).1 = .error e → s.registry.Refuses batch e
  unchanged : ∀ batch e, (s.register batch).1 = .error e → (s.register batch).2 = s
  appended : ∀ batch, (s.register batch).1 = .ok () →
    (s.register batch).2.registry.entries = s.registry.entries ++ batch
  append_iff : ∀ batch next t, s.register (batch ++ next) = (.ok (), t) ↔
    ∃ m, s.register batch = (.ok (), m) ∧ m.register next = (.ok (), t)

theorem transacts (s : Injector) : s.Transacts where
  fails_iff batch := by
    simp only [register_fst_eq_error_iff]
    exact Registry.register_fails_iff
  refuses batch e h := Registry.refuses_of_register (register_fst_eq_error_iff.1 h)
  unchanged batch e h := by
    rw [register, register_fst_eq_error_iff.1 h]
  appended batch h := by
    have hr := register_eq_ok_iff.1 (Prod.ext h rfl)
    exact Registry.entries_register hr.1
  append_iff batch next t := by
    simp only [register_eq_ok_iff, Registry.register_append_iff]
    constructor
    · rintro ⟨⟨r, hr, ht⟩, hw⟩
      exact ⟨⟨r, s.warnings⟩, ⟨hr, rfl⟩, ht, hw⟩
    · rintro ⟨m, ⟨hm, hmw⟩, ht, htw⟩
      exact ⟨⟨m.registry, hm, ht⟩, htw.trans hmw⟩

def registerAll (s : Injector) (batches : List Batch) : Injector :=
  batches.foldl (fun s batch => (s.register batch).2) s

/-- What carries a run: no registered offset is too large for a cell. -/
theorem not_overflows_register (h : ¬ Registry.Overflows s.registry.entries) (batch : Batch) :
    ¬ Registry.Overflows (s.register batch).2.registry.entries := by
  cases hr : s.registry.register batch with
  | error e =>
    rw [s.transacts.unchanged batch e (register_fst_eq_error_iff.2 hr)]
    exact h
  | ok r =>
    obtain ⟨-, ho, he⟩ := Registry.register_eq_ok_iff.1 hr
    rw [register, hr]
    change ¬ Registry.Overflows r.entries
    rw [he, Registry.overflows_append, not_or]
    exact ⟨h, ho⟩

theorem not_overflows_registerAll (h : ¬ Registry.Overflows s.registry.entries)
    (batches : List Batch) : ¬ Registry.Overflows (s.registerAll batches).registry.entries := by
  induction batches generalizing s with
  | nil => exact h
  | cons batch batches ih => exact ih (not_overflows_register h batch)

theorem registerAll_consistent (batches : List Batch) :
    (empty.registerAll batches).registry.Consistent ∧ (empty.registerAll batches).Transacts :=
  ⟨Registry.consistent_of_not_overflows
      (not_overflows_registerAll Registry.not_overflows_nil batches),
    transacts _⟩

/-- The second batch repeats `n` and leaves nothing behind, so `y` takes the cell after `n`. -/
example :
    let s := empty.registerAll [
      [("x", .allocation ⟨.static, .fixed 12, 4⟩), ("n", .int 2)],
      [("t", .float 0), ("n", .int 3)],
      [("y", .allocation ⟨.dynamic, .deferred "Y", 4⟩)]]
    s.registry.cells = [2, 0] ∧ s.registry.unresolved = [⟨1, 4, "y", "Y"⟩] := by
  decide +kernel

end Injector

end TensorKernels
