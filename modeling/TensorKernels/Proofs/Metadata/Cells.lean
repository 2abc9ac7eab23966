import Mathlib.Data.List.Nodup
import TensorKernels.Metadata
import TensorKernels.Proofs.Fallible
import TensorKernels.Proofs.Template.Reading

set_option autoImplicit false

namespace TensorKernels

theorem toInt32_eq (v : UInt32) : v.toInt32 = .ofNat v.toNat := by
  rw [← UInt32.toInt32_ofNat', UInt32.ofNat_toNat]

theorem toInt_ofNat_of_le {n : Nat} (h : n ≤ maxInt32) : (Int32.ofNat n).toInt = n := by
  rw [maxInt32] at h
  exact Int32.toInt_ofNat_of_lt (by change n < 2147483648; omega)

theorem Cell.toInt_of_le {c : Cell} (h : c.toNat ≤ maxInt32) : c.toInt = c.toNat := by
  rw [toInt, toInt32_eq, toInt_ofNat_of_le h]

namespace LoadValue

theorem eq_of_not_needsCell {a : Allocation} (h : (allocation a).needsCell = false) :
    ∃ elements size, a = ⟨.static, .fixed elements, size⟩ := by
  obtain ⟨segment, offset, size⟩ := a
  cases segment with
  | static =>
    cases offset with
    | fixed elements => exact ⟨elements, size, rfl⟩
    | deferred label => cases h
  | dynamic => cases h

theorem loadText_fixed (cell : Nat) (elements size : UInt32) :
    (allocation ⟨.static, .fixed elements, size⟩).loadText cell =
      "(" ++ Slot.static.ident ++ " + " ++ elements.toNat.repr ++ ")" := rfl

theorem loadText_allocation {cell : Nat} {a : Allocation} (h : (allocation a).needsCell) :
    (allocation a).loadText cell = "(" ++ segmentIdent a.segment ++ " + " ++ cellText cell ++ ")" := by
  obtain ⟨segment, offset, size⟩ := a
  cases segment with
  | static =>
    cases offset with
    | fixed elements => cases h
    | deferred label => rfl
  | dynamic => rfl

theorem loadText_float (cell : Nat) (bits : UInt32) :
    (float bits).loadText cell = "as_type<float>(" ++ cellText cell ++ ")" := rfl

theorem needsCell_of_label?_eq_some {v : LoadValue} {label : String} (h : v.label? = some label) :
    v.needsCell = true := by
  cases hn : v.needsCell with
  | true => rfl
  | false =>
    rw [label?_eq_none_of_not_needsCell hn] at h
    cases h

theorem cellOffset?_eq_some {v : LoadValue} {elements : UInt32} :
    v.cellOffset? = some elements ↔ ∃ size, v = .allocation ⟨.dynamic, .fixed elements, size⟩ := by
  constructor
  · intro h
    unfold cellOffset? at h
    split at h
    · cases h
      exact ⟨_, rfl⟩
    · cases h
  · rintro ⟨size, rfl⟩
    rfl

end LoadValue

namespace Registry

theorem map_entry_placeFrom (next : Nat) (es : List (String × LoadValue)) :
    (placeFrom next es).map (fun p => (p.key, p.value)) = es := by
  induction es generalizing next with
  | nil => rfl
  | cons e es ih => rw [placeFrom, List.map_cons, ih]

theorem map_entry_placed (r : Registry) : r.placed.map (fun p => (p.key, p.value)) = r.entries :=
  map_entry_placeFrom 0 r.entries

theorem map_key_placed (r : Registry) : r.placed.map Placed.key = r.keys := by
  rw [keys, ← map_entry_placed, List.map_map]
  rfl

theorem nodup_placed (r : Registry) : (r.placed.map Placed.key).Nodup := by
  rw [map_key_placed]
  exact r.nodup_keys

def loaded (r : Registry) : List Placed := r.placed.filter fun p => p.value.needsCell

theorem filter_placeFrom (next : Nat) (es : List (String × LoadValue)) :
    ((placeFrom next es).filter fun p => p.value.needsCell).map Placed.cell =
      List.range' next (es.filter fun e => e.2.needsCell).length := by
  induction es generalizing next with
  | nil => rfl
  | cons e es ih =>
    rw [placeFrom]
    cases h : e.2.needsCell with
    | false => simp [h, ih]
    | true => simp [h, ih, List.range'_succ]

theorem map_cell_loaded (r : Registry) : r.loaded.map Placed.cell = List.range r.cells.length := by
  calc r.loaded.map Placed.cell
    _ = List.range' 0 (r.entries.filter fun e => e.2.needsCell).length :=
      filter_placeFrom 0 r.entries
    _ = List.range r.cells.length := by rw [cells, List.length_map, List.range_eq_range']

theorem map_value_loaded (r : Registry) : r.loaded.map (fun p => p.value.cell) = r.cells := by
  symm
  calc r.cells
    _ = ((r.placed.map fun p => (p.key, p.value)).filter fun e => e.2.needsCell).map
        fun e => e.2.cell := by rw [map_entry_placed, cells]
    _ = r.loaded.map fun p => p.value.cell := by
      rw [List.filter_map, List.map_map]
      rfl

/-- The cell of a value is its place among the values that have one. -/
theorem getElem?_loaded {r : Registry} {p : Placed} (hp : p ∈ r.loaded) :
    r.loaded[p.cell]? = some p := by
  obtain ⟨i, hi⟩ := List.mem_iff_getElem?.1 hp
  have hcell : (r.loaded.map Placed.cell)[i]? = some p.cell := by
    rw [List.getElem?_map, hi, Option.map_some]
  rw [map_cell_loaded] at hcell
  obtain ⟨hlt, e⟩ := List.getElem?_eq_some_iff.1 hcell
  rw [List.getElem_range] at e
  rwa [← e]

theorem mem_loaded {r : Registry} {p : Placed} (hp : p ∈ r.placed) (hn : p.value.needsCell) :
    p ∈ r.loaded :=
  List.mem_filter.2 ⟨hp, hn⟩

theorem getElem?_cells {r : Registry} {p : Placed} (hp : p ∈ r.placed) (hn : p.value.needsCell) :
    r.cells[p.cell]? = some p.value.cell := by
  calc r.cells[p.cell]?
    _ = (r.loaded.map fun p => p.value.cell)[p.cell]? := by rw [map_value_loaded]
    _ = some p.value.cell := by
      rw [List.getElem?_map, getElem?_loaded (mem_loaded hp hn), Option.map_some]

theorem eq_of_cell_eq {r : Registry} {p q : Placed} (hp : p ∈ r.loaded) (hq : q ∈ r.loaded)
    (h : p.cell = q.cell) : p = q := by
  have hget := getElem?_loaded hp
  rw [h, getElem?_loaded hq, Option.some_inj] at hget
  exact hget.symm

theorem find?_of_mem {r : Registry} {p : Placed} (hp : p ∈ r.placed) : r.find? p.key = some p :=
  find?_eq_some_of_nodup r.nodup_placed hp

theorem cellOf?_of_mem {r : Registry} {p : Placed} (hp : p ∈ r.placed) :
    r.cellOf? p.key = p.cell? := by
  rw [cellOf?, find?_of_mem hp, Option.bind_some]

theorem exists_placed {r : Registry} {key : String} {value : LoadValue}
    (h : (key, value) ∈ r.entries) : ∃ p ∈ r.placed, p.key = key ∧ p.value = value := by
  rw [← map_entry_placed] at h
  obtain ⟨p, hp, e⟩ := List.mem_map.1 h
  rw [Prod.mk.injEq] at e
  exact ⟨p, hp, e⟩

theorem filterMap_cell? (ps : List Placed) :
    ps.filterMap Placed.cell? = (ps.filter fun p => p.value.needsCell).map Placed.cell := by
  induction ps with
  | nil => rfl
  | cons p ps ih => cases h : p.value.needsCell <;> simp [Placed.cell?, h, ih]

theorem filterMap_cellOf? (r : Registry) :
    r.keys.filterMap r.cellOf? = List.range r.cells.length := by
  calc r.keys.filterMap r.cellOf?
    _ = r.placed.filterMap fun p => r.cellOf? p.key := by
      rw [← map_key_placed, List.filterMap_map]
      rfl
    _ = r.placed.filterMap Placed.cell? := List.filterMap_congr fun p hp => cellOf?_of_mem hp
    _ = r.loaded.map Placed.cell := filterMap_cell? r.placed
    _ = List.range r.cells.length := map_cell_loaded r

theorem mem_unresolved {r : Registry} {u : Unresolved} :
    u ∈ r.unresolved ↔ ∃ p ∈ r.placed, ∃ label, p.value.label? = some label ∧
      u = ⟨p.cell, p.cell * Cell.width, p.key, label⟩ := by
  rw [unresolved, List.mem_filterMap]
  refine exists_congr fun p => and_congr_right fun _ => ?_
  rw [Placed.unresolved?, Option.map_eq_some_iff]
  exact exists_congr fun label => and_congr_right fun _ => eq_comm

theorem map_label_unresolved (r : Registry) : r.unresolved.map (fun u => (u.key, u.label)) =
    r.entries.filterMap fun e => e.2.label?.map fun label => (e.1, label) := by
  rw [unresolved, ← map_entry_placed, List.map_filterMap, List.filterMap_map]
  apply List.filterMap_congr
  intro p _
  cases h : p.value.label? <;> simp [Placed.unresolved?, h]

theorem cell_unresolved_sublist (ps : List Placed) :
    ((ps.filterMap Placed.unresolved?).map Unresolved.cell).Sublist
      ((ps.filter fun p => p.value.needsCell).map Placed.cell) := by
  induction ps with
  | nil => exact .slnil
  | cons p ps ih =>
    cases h : p.value.label? with
    | none =>
      have hnone : p.unresolved? = none := by rw [Placed.unresolved?, h, Option.map_none]
      rw [List.filterMap_cons_none hnone]
      cases hn : p.value.needsCell with
      | false => simpa [hn] using ih
      | true => simpa [hn] using ih.cons p.cell
    | some label =>
      have hn := LoadValue.needsCell_of_label?_eq_some h
      simpa [Placed.unresolved?, h, hn] using ih

theorem pairwise_unresolved (r : Registry) :
    (r.unresolved.map Unresolved.cell).Pairwise (· < ·) := by
  have h := cell_unresolved_sublist r.placed
  rw [← unresolved, ← loaded, map_cell_loaded] at h
  exact List.Pairwise.sublist h List.pairwise_lt_range

theorem checkOffsets_of_register {r s : Registry} {batch : List (String × LoadValue)}
    (h : r.register batch = .ok s) : checkOffsets batch = .ok () := by
  unfold register at h
  split at h
  · cases h
  · cases hc : checkOffsets batch with
    | error e => simp [hc, bind, Except.bind] at h
    | ok u => rfl

theorem le_of_checkOffsets {batch : List (String × LoadValue)} (h : checkOffsets batch = .ok ()) :
    ∀ e ∈ batch, ∀ elements, e.2.cellOffset? = some elements → elements.toNat ≤ maxInt32 := by
  induction batch with
  | nil => simp
  | cons e batch ih =>
    simp only [checkOffsets] at h
    rw [List.forall_mem_cons]
    split at h
    · next elements he =>
      split at h
      · next hle =>
        refine ⟨fun other ho => ?_, ih h⟩
        rw [he, Option.some_inj] at ho
        exact ho ▸ hle
      · cases h
    · next he =>
      refine ⟨fun other ho => ?_, ih h⟩
      rw [he] at ho
      cases ho

/-- The load expression of a key, which is empty if the key is not registered. -/
def loadText (r : Registry) (key : String) : String :=
  ((r.find? key).map Placed.loadText).getD ""

theorem loadText_of_mem {r : Registry} {p : Placed} (hp : p ∈ r.placed) :
    r.loadText p.key = p.loadText := by
  rw [loadText, find?_of_mem hp, Option.map_some, Option.getD_some]

theorem load_eq {r : Registry} {key : String} (h : key ∈ r.keys) :
    r.load key = .ok (r.loadText key) := by
  rw [← map_key_placed] at h
  obtain ⟨p, hp, rfl⟩ := List.mem_map.1 h
  rw [load, loadText_of_mem hp, find?_of_mem hp]

section

-- the character that ends a directive, or the one that ends a declaration of a kernel
variable {c : Char} (hc : c = '%' ∨ c = ';')

include hc

theorem ident_avoids (s : Slot) : c ∉ s.ident.toList := by
  rcases hc with rfl | rfl <;> cases s <;> decide

theorem segmentIdent_avoids (segment : Segment) : c ∉ (LoadValue.segmentIdent segment).toList := by
  cases segment with
  | static => exact ident_avoids hc .static
  | dynamic => exact ident_avoids hc .dynamic

theorem repr_avoids (n : Nat) : c ∉ n.repr.toList := by
  rw [Nat.toList_repr]
  rcases hc with rfl | rfl <;> exact Template.notMem_digits rfl n

theorem cellText_avoids (cell : Nat) : c ∉ (LoadValue.cellText cell).toList := by
  have hident := ident_avoids hc .metadata
  have hcell := repr_avoids hc cell
  unfold LoadValue.cellText
  simp only [String.toList_append, List.mem_append, not_or]
  refine ⟨⟨⟨hident, ?_⟩, hcell⟩, ?_⟩ <;> rcases hc with rfl | rfl <;> decide

theorem value_loadText_avoids (cell : Nat) (v : LoadValue) : c ∉ (v.loadText cell).toList := by
  have hcell := cellText_avoids hc cell
  cases v with
  | allocation a =>
    have hsegment := segmentIdent_avoids hc a.segment
    cases hn : (LoadValue.allocation a).needsCell with
    | true =>
      rw [LoadValue.loadText_allocation hn]
      rcases hc with rfl | rfl <;> simp [hsegment, hcell]
    | false =>
      obtain ⟨elements, size, rfl⟩ := LoadValue.eq_of_not_needsCell hn
      have hident := ident_avoids hc .static
      have helements := repr_avoids hc elements.toNat
      rw [LoadValue.loadText_fixed]
      simp only [String.toList_append, List.mem_append, not_or]
      refine ⟨⟨⟨⟨?_, hident⟩, ?_⟩, helements⟩, ?_⟩ <;> rcases hc with rfl | rfl <;> decide
  | int v => exact hcell
  | float bits =>
    rw [LoadValue.loadText_float]
    rcases hc with rfl | rfl <;> simp [hcell]
  | deferred label => exact hcell

theorem loadText_avoids (r : Registry) (key : String) : c ∉ (r.loadText key).toList := by
  unfold loadText
  cases r.find? key with
  | none => simp
  | some p => exact value_loadText_avoids hc p.cell p.value

end

theorem notMem_ident (s : Slot) : '%' ∉ s.ident.toList := ident_avoids (.inl rfl) s

theorem notMem_loadText (r : Registry) (key : String) : '%' ∉ (r.loadText key).toList :=
  r.loadText_avoids (.inl rfl) key

end Registry

end TensorKernels
