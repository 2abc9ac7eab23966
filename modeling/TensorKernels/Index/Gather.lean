import TensorKernels.Index.Map
import TensorKernels.Operator

set_option autoImplicit false

namespace TensorKernels

/-- No workers stride like one. -/
def stride (workers : Nat) : Nat := max workers 1

def gridStride (worker workers total : Nat) : List Nat :=
  List.range' worker ((total - worker + stride workers - 1) / stride workers) (stride workers)

def visits (workers total : Nat) : List Nat :=
  (List.range (stride workers)).flatMap fun worker => gridStride worker workers total

namespace IndexMap

def sourceIndex? (m : IndexMap) (scalars : Bindings) (gid : Nat) : Option Nat := do
  let index ← m.eval gid scalars
  if 0 ≤ index then some index.toNat else none

def sources (m : IndexMap) (scalars : Bindings) (total : Nat) : Option (List Nat) :=
  (List.range total).mapM (m.sourceIndex? scalars)

variable {α : Type}

def gather (m : IndexMap) (scalars : Bindings) (input : Array α) (total : Nat) : Option (List α) :=
  (List.range total).mapM fun gid => do
    let index ← m.sourceIndex? scalars gid
    input[index]?

def write? (m : IndexMap) (scalars : Bindings) (input : Array α) (out : Array (Option α)) (gid : Nat) :
    Option (Array (Option α)) := do
  let index ← m.sourceIndex? scalars gid
  let value ← input[index]?
  match out[gid]? with
  | some none => some (out.setIfInBounds gid (some value))
  | _ => none

def runWorkers (m : IndexMap) (scalars : Bindings) (input : Array α) (total workers : Nat) :
    Option (List α) := do
  let out ← (visits workers total).foldlM (m.write? scalars input) (Array.replicate total none)
  out.toList.mapM id

end IndexMap

namespace IndexMap

def outputCoordinates : IndexMap :=
  let gid := Expr.var "gid"
  let flat := identity "gid"
  let c2 := flat.bind "c2" (gid % .var "C2")
  let w2 := c2.bind "w2" (gid / .var "C2" % .var "W2")
  let h2 := w2.bind "h2" (gid / .var "C2" / .var "W2" % .var "H2")
  h2.bind "n" (gid / .var "C2" / .var "W2" / .var "H2")

def inputIndex : Expr :=
  ((.var "n" * .var "H1" + .var "h1") * .var "W1" + .var "w1") * .var "C1" + .var "c1"

/-- The output pixel `(h2, w2)` is read from the input pixel `(h2 / r, w2 / r)`, in the channel group
of its place `(h2 % r, w2 % r)` in the block. -/
def depth2space : IndexMap :=
  let w1 := outputCoordinates.bind "w1" (.var "w2" / .var "r")
  let h1 := w1.bind "h1" (.var "h2" / .var "r")
  let c1 := h1.bind "c1" (.var "c2" + .var "w2" % .var "r" * .var "C2" +
    .var "h2" % .var "r" * .var "C2" * .var "r")
  c1.withSource inputIndex

/-- The output channel `c2` holds the channel `c2 % C1` of the pixel `(k / r, k % r)` of the block,
where `k` is `c2 / C1`. -/
def space2depth : IndexMap :=
  let c1 := outputCoordinates.bind "c1" (.var "c2" % .var "C1")
  let k := c1.bind "k" (.var "c2" / .var "C1")
  let w1 := k.bind "w1" (.var "w2" * .var "r" + .var "k" % .var "r")
  let h1 := w1.bind "h1" (.var "h2" * .var "r" + .var "k" / .var "r")
  h1.withSource inputIndex

end IndexMap

def OperatorKind.indexMap : OperatorKind → IndexMap
  | .depth2space => .depth2space
  | .space2depth => .space2depth

namespace Operator

def scalars (op : Operator) : Except LoweringError Bindings := do
  let extent (t : Tensor) (a : Axis) : Except LoweringError Int :=
    return ((← t.extent a).toNat : Int)
  return .ofList [("r", op.block.toNat), ("N", ← extent op.x .n), ("C1", ← extent op.x .c),
    ("C2", ← extent op.y .c), ("H1", ← extent op.x .h), ("H2", ← extent op.y .h),
    ("W1", ← extent op.x .w), ("W2", ← extent op.y .w)]

end Operator

end TensorKernels
