import TensorKernels.Proofs.Kernel.StreamDecoding
import TensorKernels.Proofs.Lowering.Operands

set_option autoImplicit false

namespace TensorKernels

def Allocation.NulFree (a : Allocation) : Prop :=
  ∀ label, a.offset = .deferred label → TensorKernels.NulFree label

def MemoryLayout.NulFree (layout : MemoryLayout) : Prop := ∀ e ∈ layout.entries, e.2.NulFree

def Launch.NulFree (l : Launch) : Prop := ∀ d ∈ l.dims, d.NulFree

instance : DecidablePred Launch.NulFree := fun l =>
  inferInstanceAs (Decidable (∀ d ∈ l.dims, d.NulFree))

theorem MemoryLayout.NulFree.of_lookup {layout : MemoryLayout} {t : Tensor} {a : Allocation}
    (h : layout.NulFree) (ha : layout.lookup t = .ok a) : a.NulFree := by
  obtain ⟨e, he, rfl⟩ := exists_mem_of_lookup ha
  exact h e he

theorem LoadValue.cellText_injective {m n : Nat} (h : cellText m = cellText n) : m = n := by
  have hlist := congrArg String.toList h
  unfold cellText at hlist
  simp only [String.toList_append, List.append_assoc, List.append_cancel_left_eq,
    List.append_cancel_right_eq] at hlist
  exact repr_injective (String.toList_injective hlist)

namespace Registry

variable {op : Operator} {x y : Allocation} {scalars : Bindings} {r : Registry}

/-- The place of `x` may take the cell 0 and that of `y` the next one. -/
theorem readable_unresolved (he : r.entries = op.batchOf x y scalars) (hx : x.NulFree)
    (hy : y.NulFree) : ∀ u ∈ r.unresolved, u.Readable := by
  intro u hu
  have hkey : ∀ s ∈ ["x", "y"], NulFree (op.kind.key s) := by cases op.kind <;> decide
  have hlabel {a : Allocation} {label : String} (ha : a.NulFree)
      (hl : (LoadValue.allocation a).label? = some label) : NulFree label := by
    obtain ⟨segment, offset, size⟩ := a
    cases offset with
    | fixed elements => cases hl
    | deferred l =>
      cases hl
      exact ha label rfl
  obtain ⟨p, hp, label, hl, rfl⟩ := mem_unresolved.1 hu
  rw [placed, he, Operator.batchOf, placeFrom, placeFrom, List.mem_cons, List.mem_cons] at hp
  rcases hp with rfl | rfl | hp
  · exact ⟨Nat.zero_le 1, rfl, hkey _ (by decide), hlabel hx hl⟩
  · refine ⟨?_, rfl, hkey _ (by decide), hlabel hy hl⟩
    dsimp only
    split <;> decide
  · -- the other entries are scalars, which have no labels
    have hentry := List.mem_map_of_mem (f := fun p : Placed => (p.key, p.value)) hp
    rw [map_entry_placeFrom] at hentry
    obtain ⟨s, -, hs⟩ := List.mem_map.1 hentry
    rw [← (Prod.mk.inj hs).2] at hl
    cases hl

theorem exists_last_cell (he : r.entries = op.batchOf x y scalars) :
    ∃ k, r.loadText (op.kind.key "W2") = LoadValue.cellText k ∧ r.cells.length = k + 1 := by
  refine ⟨_, loadText_scalar he (by decide), ?_⟩
  have hne : blockScalars.map (r.linkage op x y scalars).scalarCell ≠ [] := List.cons_ne_nil _ _
  have hlast := congrArg List.getLast? (used_cells he)
  rw [List.getLast?_append_of_ne_nil _ hne, List.getLast?_range] at hlast
  split at hlast
  · cases hlast
  · have hk : (r.linkage op x y scalars).scalarCell "W2" = r.cells.length - 1 :=
      Option.some.inj hlast
    omega

end Registry

namespace Operator

theorem stream_kernelOf (op : Operator) (r : Registry) (launch : Launch) :
    (op.kernelOf r launch).stream =
      ((op.kind.outline op.kind.indexMap).written op.entryName r.loadText).toUTF8.toList ++
        (r.cells.flatMap Cell.bytes ++
          (r.unresolved.flatMap Unresolved.bytes ++ launch.dims.flatMap Dim.bytes)) := by
  unfold Kernel.stream
  simp only [List.append_assoc]
  congr 2
  exact List.append_nil _

end Operator

theorem Launch.dims_injective {l l' : Launch} (h : l.dims = l'.dims) : l = l' := by
  obtain ⟨⟨a, b, c⟩, d, e, f⟩ := l
  obtain ⟨⟨a', b', c'⟩, d', e', f'⟩ := l'
  cases h
  rfl

def Kernel.Named (k : Kernel) : Prop := ∃ op : Operator, k.name = op.entryName

/-- A kernel that lowering makes, with labels that end in a stream. -/
inductive Kernel.Lowered : Kernel → Prop
  | intro {op : Operator} {r : Registry} {launch : Launch} {x y : Allocation} {scalars : Bindings}
    (entries : r.entries = op.batchOf x y scalars) (place_x : x.NulFree) (place_y : y.NulFree)
    (sizes : launch.NulFree) : Lowered (op.kernelOf r launch)

namespace Kernel.Lowered

variable {k k' : Kernel}

theorem named (h : k.Lowered) : k.Named := by
  cases h with | @intro op => exact ⟨op, rfl⟩

/-- The name tells the operator, and with it all of the text but its load expressions. -/
theorem eq_of_stream (h : k.Lowered) (h' : k'.Lowered) (hname : k.name = k'.name)
    (hstream : k.stream = k'.stream) : k = k' := by
  cases h with | @intro op r launch x y scalars he hx hy hlaunch =>
  cases h' with | @intro op' r' launch' x' y' scalars' he' hx' hy' hlaunch' =>
  change op.entryName = op'.entryName at hname
  have hkind := (Operator.entryName_injective hname).1
  rw [Operator.stream_kernelOf, Operator.stream_kernelOf, ← hname, ← hkind] at hstream
  obtain ⟨hload, hrest⟩ := Outline.written_injective (r.loadText_avoids (.inr rfl))
    (r'.loadText_avoids (.inr rfl)) hstream
  -- the text gives the number of cells, and then the rest can be read off the stream
  have hlength : r'.cells.length = r.cells.length := by
    obtain ⟨m, hm, hcells⟩ := Registry.exists_last_cell he
    obtain ⟨m', hm', hcells'⟩ := Registry.exists_last_cell he'
    have hlast := hload ⟨.int, "W2", op.kind.key "W2"⟩ (by
      rw [OperatorKind.decls_outline]
      simp [blockScalars])
    rw [← hkind] at hm'
    have htext : LoadValue.cellText m = LoadValue.cellText m' := by
      calc LoadValue.cellText m
        _ = r.loadText (op.kind.key "W2") := hm.symm
        _ = r'.loadText (op.kind.key "W2") := hlast
        _ = LoadValue.cellText m' := hm'
    rw [hcells, hcells', LoadValue.cellText_injective htext]
  obtain ⟨hcells, hrest⟩ := selfDelimiting_cell.flatMap r.cells.length ⟨rfl, fun _ _ => trivial⟩
    ⟨hlength, fun _ _ => trivial⟩ hrest
  obtain ⟨hunresolved, hdims⟩ := unresolved_dims_injective
    (Registry.readable_unresolved he hx hy) (Registry.readable_unresolved he' hx' hy')
    ⟨rfl, hlaunch⟩ ⟨rfl, hlaunch'⟩ hrest
  unfold Operator.kernelOf Registry.buffers
  rw [← hname, ← hkind, Outline.written_congr hload, hcells, hunresolved,
    Launch.dims_injective hdims]

end Kernel.Lowered

end TensorKernels
