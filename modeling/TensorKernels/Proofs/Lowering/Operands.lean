import TensorKernels.Proofs.Lowering.Dispatch

set_option autoImplicit false

namespace TensorKernels

/-- A tensor of a kernel: its place, the text of its pointer and the cell that the pointer reads. -/
structure Operand where
  place : Allocation
  text : String
  cell? : Option Nat

/-- The pointer leads to the place. An offset that is not known yet is left to the loader. -/
inductive Operand.Reads (key : String) (cells : Cells) (unresolved : List Unresolved) :
    Operand → Prop
  | constant {elements size : UInt32} : Reads key cells unresolved
      ⟨⟨.static, .fixed elements, size⟩, "(static_buffer + " ++ elements.toNat.repr ++ ")", none⟩
  | fixed {elements size : UInt32} {k : Nat} {c : Cell} (holds : cells[k]? = some c)
      (value : c.toInt = elements.toNat) (resolved : ∀ u ∈ unresolved, u.cell ≠ k) :
      Reads key cells unresolved ⟨⟨.dynamic, .fixed elements, size⟩,
        "(dynamic_buffer + " ++ LoadValue.cellText k ++ ")", some k⟩
  | deferred {segment : Segment} {label : String} {size : UInt32} {k : Nat}
      (holds : cells[k]? = some 0) (left : ⟨k, 4 * k, key, label⟩ ∈ unresolved) :
      Reads key cells unresolved ⟨⟨segment, .deferred label, size⟩,
        "(" ++ LoadValue.segmentIdent segment ++ " + " ++ LoadValue.cellText k ++ ")", some k⟩

structure Linkage where
  cells : Cells
  scalars : Bindings
  scalarCell : String → Nat
  x : Operand
  y : Operand

namespace Linkage

def declarations (l : Linkage) : String :=
  "    const device float *x = " ++ l.x.text ++ ";\n" ++
    ("    device float *y = " ++ l.y.text ++ ";\n" ++
      String.join (blockScalars.map fun s =>
        "    const int " ++ s ++ " = " ++ LoadValue.cellText (l.scalarCell s) ++ ";\n"))

def text (l : Linkage) (op : Operator) : String :=
  Outline.header op.entryName ++ l.declarations ++
    (((op.kind.outline op.kind.indexMap).loop.map Outline.loopText).getD "" ++ "\x7d\n")

/-- The kernel declares what the linkage says, and the cells hold what the operator and the layout
say. -/
structure Describes (l : Linkage) (op : Operator) (layout : MemoryLayout) (k : Kernel) : Prop where
  source : k.source = l.text op
  cells : k.cells? = some l.cells
  scalars : op.scalars = .ok l.scalars
  scalar : ∀ s ∈ blockScalars, ∃ c, l.cells[l.scalarCell s]? = some c ∧
    l.scalars.get? s = some c.toInt ∧ ∀ u ∈ k.unresolved, u.cell ≠ l.scalarCell s
  place_x : layout.lookup op.x = .ok l.x.place
  place_y : layout.lookup op.y = .ok l.y.place
  x : l.x.Reads (op.kind.key "x") l.cells k.unresolved
  y : l.y.Reads (op.kind.key "y") l.cells k.unresolved
  labels : k.unresolved.map (fun u => (u.key, u.label)) =
    [("x", l.x.place), ("y", l.y.place)].filterMap fun e =>
      (LoadValue.allocation e.2).label?.map fun label => (op.kind.key e.1, label)
  ascending : (k.unresolved.map Unresolved.cell).Pairwise (· < ·)
  byteOffset : ∀ u ∈ k.unresolved, u.byteOffset = 4 * u.cell
  /-- Every cell is used, and by one declaration only. -/
  used : l.x.cell?.toList ++ l.y.cell?.toList ++ blockScalars.map l.scalarCell =
    List.range l.cells.length

end Linkage

namespace Registry

variable {r : Registry} {key : String}

theorem label?_of_cell_eq {p : Placed} (hp : p ∈ r.loaded) {u : Unresolved}
    (hu : u ∈ r.unresolved) (h : u.cell = p.cell) : p.value.label? = some u.label := by
  obtain ⟨q, hq, label, hl, rfl⟩ := mem_unresolved.1 hu
  have hn := LoadValue.needsCell_of_label?_eq_some hl
  rw [← eq_of_cell_eq (mem_loaded hq hn) hp h, hl]

theorem exists_cell_int {v : Int32} (h : (key, .int v) ∈ r.entries) : ∃ k c,
    r.cellOf? key = some k ∧ r.loadText key = LoadValue.cellText k ∧ r.cells[k]? = some c ∧
      c.toInt = v.toInt ∧ ∀ u ∈ r.unresolved, u.cell ≠ k := by
  obtain ⟨p, hp, rfl, hv⟩ := exists_placed h
  have hn : p.value.needsCell := by rw [hv]; rfl
  refine ⟨p.cell, p.value.cell, ?_, ?_, getElem?_cells hp hn, ?_, ?_⟩
  · rw [cellOf?_of_mem hp, Placed.cell?, if_pos hn]
  · rw [loadText_of_mem hp, Placed.loadText, hv]
    rfl
  · rw [hv]
    exact Cell.toInt_ofInt32 v
  · intro u hu e
    have hlabel := label?_of_cell_eq (mem_loaded hp hn) hu e
    rw [hv] at hlabel
    cases hlabel

theorem operand_reads {a : Allocation} (h : (key, .allocation a) ∈ r.entries)
    (hfit : ∀ elements, (LoadValue.allocation a).cellOffset? = some elements →
      elements.toNat ≤ maxInt32) :
    Operand.Reads key r.cells r.unresolved ⟨a, r.loadText key, r.cellOf? key⟩ := by
  obtain ⟨p, hp, rfl, hv⟩ := exists_placed h
  have htext : r.loadText p.key = (LoadValue.allocation a).loadText p.cell := by
    rw [loadText_of_mem hp, Placed.loadText, hv]
  rw [htext, cellOf?_of_mem hp, Placed.cell?, hv]
  -- without a cell the place is constant; with one, the cell has the offset or the loader brings it
  cases hn : (LoadValue.allocation a).needsCell with
  | false =>
    obtain ⟨elements, size, rfl⟩ := LoadValue.eq_of_not_needsCell hn
    exact .constant
  | true =>
    have hcell := getElem?_cells hp (hv ▸ hn)
    have hloaded := mem_loaded hp (hv ▸ hn)
    rw [if_pos rfl]
    obtain ⟨segment, offset, size⟩ := a
    cases offset with
    | fixed elements =>
      cases segment with
      | static => cases hn
      | dynamic =>
        refine .fixed hcell ?_ fun u hu e => ?_
        · rw [hv]
          have hle := hfit elements rfl
          exact Cell.toInt_of_le hle
        · have hlabel := label?_of_cell_eq hloaded hu e
          rw [hv] at hlabel
          cases hlabel
    | deferred label =>
      rw [hv] at hcell
      have hleft : ⟨p.cell, 4 * p.cell, p.key, label⟩ ∈ r.unresolved := by
        refine mem_unresolved.2 ⟨p, hp, label, by rw [hv]; rfl, ?_⟩
        rw [Nat.mul_comm]
        rfl
      cases segment with
      | static => exact .deferred hcell hleft
      | dynamic => exact .deferred hcell hleft

def linkage (r : Registry) (op : Operator) (x y : Allocation) (scalars : Bindings) : Linkage where
  cells := r.cells
  scalars := scalars
  scalarCell s := (r.cellOf? (op.kind.key s)).getD 0
  x := ⟨x, r.loadText (op.kind.key "x"), r.cellOf? (op.kind.key "x")⟩
  y := ⟨y, r.loadText (op.kind.key "y"), r.cellOf? (op.kind.key "y")⟩

theorem scalarCell_linkage {op : Operator} {x y : Allocation} {scalars : Bindings} {s : String}
    {k : Nat} (h : r.cellOf? (op.kind.key s) = some k) :
    (r.linkage op x y scalars).scalarCell s = k := by
  change (r.cellOf? (op.kind.key s)).getD 0 = k
  rw [h, Option.getD_some]

section

variable {op : Operator} {x y : Allocation} {scalars : Bindings}
  (he : r.entries = op.batchOf x y scalars)

include he

theorem mem_scalar {s : String} (hs : s ∈ blockScalars) :
    (op.kind.key s, .int (scalars.int32 s)) ∈ r.entries := by
  rw [he]
  exact List.mem_cons_of_mem _ (List.mem_cons_of_mem _ (List.mem_map.2 ⟨s, hs, rfl⟩))

theorem cellOf?_scalar {s : String} (hs : s ∈ blockScalars) :
    r.cellOf? (op.kind.key s) = some ((r.linkage op x y scalars).scalarCell s) := by
  obtain ⟨k, -, hk, -⟩ := exists_cell_int (mem_scalar he hs)
  rw [scalarCell_linkage hk, hk]

theorem loadText_scalar {s : String} (hs : s ∈ blockScalars) : r.loadText (op.kind.key s) =
    LoadValue.cellText ((r.linkage op x y scalars).scalarCell s) := by
  obtain ⟨k, -, hk, htext, -⟩ := exists_cell_int (mem_scalar he hs)
  rw [scalarCell_linkage hk, htext]

theorem used_cells : (r.linkage op x y scalars).x.cell?.toList ++
    (r.linkage op x y scalars).y.cell?.toList ++
      blockScalars.map (r.linkage op x y scalars).scalarCell = List.range r.cells.length := by
  have hkeys : r.keys = op.kind.key "x" :: op.kind.key "y" :: blockScalars.map op.kind.key := by
    rw [keys, he]
    rfl
  have hscalars : (blockScalars.map op.kind.key).filterMap r.cellOf? =
      blockScalars.map (r.linkage op x y scalars).scalarCell := by
    rw [List.filterMap_map, ← List.filterMap_eq_map]
    exact List.filterMap_congr fun s hs => cellOf?_scalar he hs
  rw [← filterMap_cellOf?, hkeys, List.filterMap_cons, List.filterMap_cons, hscalars]
  cases hx : r.cellOf? (op.kind.key "x") <;> cases hy : r.cellOf? (op.kind.key "y") <;>
    simp [linkage, hx, hy]

theorem labels_unresolved : r.unresolved.map (fun u => (u.key, u.label)) =
    [("x", x), ("y", y)].filterMap fun e =>
      (LoadValue.allocation e.2).label?.map fun label => (op.kind.key e.1, label) := by
  rw [map_label_unresolved, he]
  rfl

theorem written_eq_text : (op.kind.outline op.kind.indexMap).written op.entryName r.loadText =
    (r.linkage op x y scalars).text op := by
  have hx : "    " ++ DeclKind.input.type ++ "x" ++ " = " = "    const device float *x = " := rfl
  have hy : "    " ++ DeclKind.output.type ++ "y" ++ " = " = "    device float *y = " := rfl
  have hint : "    " ++ DeclKind.int.type = "    const int " := rfl
  have hscalars : blockScalars.map (fun s => Outline.declLine r.loadText ⟨.int, s, op.kind.key s⟩) =
      blockScalars.map fun s => "    const int " ++ s ++ " = " ++
        LoadValue.cellText ((r.linkage op x y scalars).scalarCell s) ++ ";\n" := by
    apply List.map_congr_left
    intro s hs
    unfold Outline.declLine
    rw [hint, loadText_scalar he hs]
  unfold Outline.written Linkage.text Linkage.declarations
  rw [OperatorKind.decls_outline, List.map_cons, List.map_cons, List.map_map, String.join_cons,
    String.join_cons]
  change _ ++ (_ ++ (_ ++ String.join (blockScalars.map fun s =>
    Outline.declLine r.loadText ⟨.int, s, op.kind.key s⟩))) ++ _ = _
  rw [hscalars]
  unfold Outline.declLine
  rw [hx, hy]
  rfl

end

end Registry

/-- Whatever a dispatch of a block rearrangement returns is linked to its layout. -/
theorem Operator.dispatch_describes {op : Operator} {ctx : LoweringEnv} {taken taken' : TakenNames}
    {kernels : List Kernel}
    (h : (Handlers.standard.dispatch op ctx).outcome taken = (.ok kernels, taken')) :
    ∃ kernel, kernels = [kernel] ∧ ∃ l : Linkage, l.Describes op ctx.layout kernel := by
  obtain ⟨r, hm, -, rfl⟩ := Handlers.standard_ok h
  obtain ⟨x, y, scalars, hx, hy, hscalars, hvalues, he⟩ := metadata_ok hm
  have hfit := offsets_of_metadata hm
  have hxe : (op.kind.key "x", .allocation x) ∈ r.entries := by
    rw [he]
    exact List.mem_cons_self
  have hye : (op.kind.key "y", .allocation y) ∈ r.entries := by
    rw [he]
    exact List.mem_cons_of_mem _ List.mem_cons_self
  refine ⟨_, rfl, r.linkage op x y scalars, ?_⟩
  constructor
  case source => exact Registry.written_eq_text he
  case cells => rfl
  case scalars => exact hscalars
  case scalar =>
    intro s hs
    obtain ⟨k, c, hk, -, hc, hv, hu⟩ := Registry.exists_cell_int (Registry.mem_scalar he hs)
    rw [Registry.scalarCell_linkage hk]
    exact ⟨c, hc, by rw [hv]; exact hvalues s hs, hu⟩
  case place_x => exact hx
  case place_y => exact hy
  case x => exact Registry.operand_reads hxe (hfit _ hxe)
  case y => exact Registry.operand_reads hye (hfit _ hye)
  case labels => exact Registry.labels_unresolved he
  case ascending => exact r.pairwise_unresolved
  case byteOffset =>
    intro u hu
    obtain ⟨p, -, label, -, rfl⟩ := Registry.mem_unresolved.1 hu
    exact Nat.mul_comm _ _
  case used => exact Registry.used_cells he

/-- One tensor is left to the loader and the other is at a constant place. -/
theorem Operator.dispatch_describes_deferred_input : ∃ op ctx kernel taken,
    (Handlers.standard.dispatch op ctx).outcome .empty = (.ok [kernel], taken) ∧
      ctx.layout.lookup op.x = .ok ⟨.dynamic, .deferred "input", 8⟩ ∧
      ctx.layout.lookup op.y = .ok ⟨.static, .fixed 64, 8⟩ ∧
      ∃ l : Linkage, l.Describes op ctx.layout kernel := by
  let op : Operator := ⟨.space2depth, 7, ⟨"x", .nhwc, [1, 2, 2, 2], rfl, by simp⟩,
    ⟨"y", .nhwc, [1, 1, 1, 8], rfl, by simp⟩, 2, by decide⟩
  let layout : MemoryLayout :=
    ⟨[("x", ⟨.dynamic, .deferred "input", 8⟩), ("y", ⟨.static, .fixed 64, 8⟩)], by decide⟩
  have hok : (op.metadata layout).isOk = true := by decide +kernel
  cases hm : op.metadata layout with
  | error e => simp [hm, Except.isOk, Except.toBool] at hok
  | ok r =>
    have hdispatch : (Handlers.standard.dispatch op ⟨layout, .standard⟩).outcome .empty =
        (.ok [op.kernelOf r .standard], ⟨[op.entryName], by simp⟩) := by
      rw [Handlers.outcome_standard, hm]
      rfl
    obtain ⟨kernel, hkernel, hl⟩ := Operator.dispatch_describes hdispatch
    cases hkernel
    exact ⟨op, _, _, _, hdispatch, rfl, rfl, hl⟩

end TensorKernels
