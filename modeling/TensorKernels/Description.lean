import TensorKernels.Json.Reader
import TensorKernels.Json.Value
import TensorKernels.Memory
import TensorKernels.Operator
import TensorKernels.Tensor
import TensorKernels.Word

set_option autoImplicit false

namespace TensorKernels

structure DescribedTensor where
  name : String
  order : Order
  shape : List UInt32

structure DescribedOperator where
  id : UInt32
  kind : String
  inputs : Table String
  outputs : Table String
  parameters : Table Int64

structure Description where
  tensors : List DescribedTensor
  operators : List DescribedOperator
  layout : MemoryLayout

def Order.toJson (o : Order) : Json := .str o.toString

def DescribedTensor.toJson (e : DescribedTensor) : Json :=
  .obj [("name", .str e.name), ("order", e.order.toJson),
    ("shape", .arr (e.shape.map fun d => .nat d.toNat))]

def DescribedOperator.toJson (e : DescribedOperator) : Json :=
  .obj [("id", .nat e.id.toNat), ("type", .str e.kind), ("inputs", e.inputs.toJson .str),
    ("outputs", e.outputs.toJson .str), ("parameters", e.parameters.toJson fun v => .int v.toInt)]

namespace Description

def toJson (d : Description) : Json :=
  .obj [("tensors", .arr (d.tensors.map DescribedTensor.toJson)),
    ("operators", .arr (d.operators.map DescribedOperator.toJson)),
    ("layout", d.layout.toJson Allocation.toJson)]

def text (d : Description) : String := d.toJson.compact

end Description

def labelField : Field String := ⟨"label", true, fun v _ => v.readText⟩

def Segment.ofName? (name : String) : Option Segment :=
  [Segment.static, .dynamic].find? (·.name = name)

namespace Segment

/-- The name of a segment, or an object with that name and the value null. -/
def ofJson : Json → Except Mismatch Segment
  | .str name | .obj [(name, .null)] => Json.orUnexpected (ofName? name)
  | _ => .error .unexpected

end Segment

/-- All of an offset has to be sound, also what is passed over. It stands inside three containers. -/
def Offset.ofJson (v : Json) : Except Mismatch Offset :=
  if v.isSound (Json.maxDepth - 3) then
    match v with
    | .int n => (Json.int n).readUInt32.map .fixed
    | v => (v.readRecord [labelField] "").map .deferred
  else .error .unexpected

def Allocation.ofJson : Json → Except Mismatch Allocation :=
  Json.readRecord
    [⟨"segment", true, fun v a => return { a with segment := ← Segment.ofJson v }⟩,
      ⟨"offset", true, fun v a => return { a with offset := ← Offset.ofJson v }⟩,
      ⟨"size", true, fun v a => return { a with size := ← v.readUInt32 }⟩]
    ⟨.static, .fixed 0, 0⟩

def Order.ofJson (v : Json) : Except Mismatch Order := do
  let text ← v.readText
  (Order.parse text).mapError .invalid

def DescribedTensor.ofJson : Json → Except Mismatch DescribedTensor :=
  Json.readRecord
    [⟨"name", true, fun v e => return { e with name := ← v.readText }⟩,
      ⟨"order", true, fun v e => return { e with order := ← Order.ofJson v }⟩,
      ⟨"shape", true, fun v e => return { e with shape := ← v.readList Json.readUInt32 }⟩]
    ⟨"", .nhwc, []⟩

def DescribedOperator.ofJson : Json → Except Mismatch DescribedOperator :=
  Json.readRecord
    [⟨"id", true, fun v e => return { e with id := ← v.readUInt32 }⟩,
      ⟨"type", true, fun v e => return { e with kind := ← v.readText }⟩,
      ⟨"inputs", false, fun v e => return { e with inputs := ← v.readTable Json.readText }⟩,
      ⟨"outputs", false, fun v e => return { e with outputs := ← v.readTable Json.readText }⟩,
      ⟨"parameters", false, fun v e => return { e with parameters := ← v.readTable Json.readInt64 }⟩]
    ⟨0, "", .empty, .empty, .empty⟩

namespace Description

def ofJson : Json → Except Mismatch Description :=
  Json.readRecord
    [⟨"tensors", true, fun v d => return { d with tensors := ← v.readList DescribedTensor.ofJson }⟩,
      ⟨"operators", true, fun v d =>
        return { d with operators := ← v.readList DescribedOperator.ofJson }⟩,
      ⟨"layout", false, fun v d => return { d with layout := ← v.readTable Allocation.ofJson }⟩]
    ⟨[], [], .empty⟩

inductive ReadError
  | malformed
  | mismatch (why : Mismatch)
  deriving DecidableEq, Repr

def ReadError.message : ReadError → String
  | malformed => "invalid graph description: not well-formed JSON"
  | mismatch .unexpected => "invalid graph description: unexpected value"
  | mismatch (.invalid cause) => "invalid graph description: " ++ cause.message

def read (text : String) : Except ReadError Description :=
  match Json.parse? text with
  | none => .error .malformed
  | some v =>
    match ofJson v with
    | .ok d => .ok d
    | .error why => if v.isSound Json.maxDepth then .error (.mismatch why) else .error .malformed

end Description

def DescribedTensor.resolve (e : DescribedTensor) : Except LoweringError Tensor :=
  Tensor.ofShape e.name e.order e.shape

namespace DescribedOperator

def label (e : DescribedOperator) : String := Operator.labelOf (OperatorKind.foldCase e.kind) e.id

def operand (e : DescribedOperator) (tensors : Table Tensor) (operands : Table String) (name : String)
    (missing : LoweringError) : Except LoweringError Tensor :=
  match operands.get? name with
  | none => .error missing
  | some t =>
    match tensors.get? t with
    | none => .error (.unknownTensor e.label t)
    | some tensor => .ok tensor

def blockSize (e : DescribedOperator) : Except LoweringError UInt32 :=
  match e.parameters.get? "r" with
  | none => .error (.missingParameter e.label "r")
  | some r =>
    match uint32? r.toInt with
    | some n => .ok n
    | none => .error (.invalidParameter "r" (r.toInt.repr ++ " does not fit a block size"))

def resolve (e : DescribedOperator) (tensors : Table Tensor) : Except LoweringError Operator := do
  let kind ← OperatorKind.parse e.kind
  let x ← e.operand tensors e.inputs "x" (.missingInput e.label "x")
  let y ← e.operand tensors e.outputs "y" (.missingOutput e.label "y")
  let r ← e.blockSize
  Operator.ofBlock kind e.id x y r

end DescribedOperator

namespace Description

def tensorTable (d : Description) : Except LoweringError (Table Tensor) := do
  let tensors ← d.tensors.mapM DescribedTensor.resolve
  return .ofList (tensors.map fun t => (t.name, t))

/-- The graph and its memory layout. All tensors are checked, then the operators in order, then
their ids. -/
def resolve (d : Description) : Except LoweringError (Graph × MemoryLayout) := do
  let tensors ← d.tensorTable
  let operators ← d.operators.mapM (·.resolve tensors)
  let graph ← Graph.ofOperators operators
  return (graph, d.layout)

end Description

end TensorKernels
