import TensorKernels.Kernel.Basic
import TensorKernels.LoweringError
import TensorKernels.Word

set_option autoImplicit false

namespace TensorKernels

structure PatchedKernel where
  cells : Cells
  grid : List UInt32
  threadgroup : List UInt32
  deriving DecidableEq, Repr

namespace Bindings

def require (b : Bindings) (label : String) : Except LoweringError Int :=
  match b.get? label with
  | some v => .ok v
  | none => .error (.unboundPlaceholder label)

end Bindings

/-- Fills one cell: the label must be bound, its value fit the cell, and the cell exist. -/
def Unresolved.fill (b : Bindings) (cells : Cells) (u : Unresolved) : Except LoweringError Cells := do
  let v ← b.require u.label
  match int32? v with
  | some w =>
    if u.cell < cells.length then .ok (cells.set u.cell (Cell.ofInt32 w))
    else .error (.invalidParameter u.key ("cell " ++ u.cell.repr ++ " is outside the metadata buffer"))
  | none =>
    .error (.invalidParameter u.key (braced u.label ++ " bound to " ++ v.repr ++
      " which exceeds the 32-bit metadata cell"))

/-- A preset takes its bound value, which must be positive and fit 32 bits. -/
def Dim.resolve (b : Bindings) : Dim → Except LoweringError UInt32
  | .fixed n => .ok n
  | .preset label => do
    let v ← b.require label
    match (uint32? v).filter (0 < ·) with
    | some n => .ok n
    | none => .error (.invalidParameter label ("launch dimension must be positive, got " ++ v.repr))

def LaunchSize.resolve (b : Bindings) (s : LaunchSize) : Except LoweringError (List UInt32) :=
  s.dims.mapM (Dim.resolve b)

/-- Cells are filled in list order, then the grid is resolved, then the threadgroup. -/
def Kernel.patch (k : Kernel) (b : Bindings) : Except LoweringError PatchedKernel := do
  let cells ← k.unresolved.foldlM (Unresolved.fill b) (k.cells?.getD [])
  let grid ← k.launch.grid.resolve b
  let threadgroup ← k.launch.threadgroup.resolve b
  return ⟨cells, grid, threadgroup⟩

end TensorKernels
