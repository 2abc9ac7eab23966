import TensorKernels.Diagnostic

set_option autoImplicit false

namespace TensorKernels

inductive LoweringError
  | missingHandler (op : String)
  | missingLayout (tensor : String)
  | layoutMismatch (op tensor expected found : String)
  | missingAxis (tensor : String) (axis : Char)
  | invalidOrder (order reason : String)
  | invalidTensor (tensor reason : String)
  | duplicateKey (key : String)
  | unknownPlaceholder (key : String)
  | malformedTemplate (reason : String)
  | duplicateKernelName (name : String)
  | duplicateOperatorId (id : UInt32)
  | unknownOperatorType (tag : String)
  | unknownTensor (op tensor : String)
  | missingInput (op name : String)
  | missingOutput (op name : String)
  | missingParameter (op name : String)
  | invalidParameter (name reason : String)
  | unboundPlaceholder (label : String)
  | lowering (op : String) (cause : LoweringError)
  deriving DecidableEq, Repr

namespace LoweringError

def message : LoweringError → String
  | missingHandler op => "no kernel handler registered for operator " ++ op
  | missingLayout tensor => "tensor '" ++ tensor ++ "' has no memory layout entry"
  | layoutMismatch op tensor expected found =>
    "operator " ++ op ++ ": tensor '" ++ tensor ++ "' has order " ++ found ++ ", expected " ++ expected
  | missingAxis tensor axis => "tensor '" ++ tensor ++ "' has no axis " ++ axis.toString
  | invalidOrder order reason => "invalid axis order '" ++ order ++ "': " ++ reason
  | invalidTensor tensor reason => "invalid tensor '" ++ tensor ++ "': " ++ reason
  | duplicateKey key => "metadata key '" ++ key ++ "' is already registered"
  | unknownPlaceholder key => "template references unregistered key '" ++ key ++ "'"
  | malformedTemplate reason => "malformed kernel template: " ++ reason
  | duplicateKernelName name => "kernel name '" ++ name ++ "' is already taken in this program"
  | duplicateOperatorId id => "operator id " ++ id.toNat.repr ++ " appears more than once in the graph"
  | unknownOperatorType tag => "unknown operator type '" ++ tag ++ "'"
  | unknownTensor op tensor => "operator " ++ op ++ " references unknown tensor '" ++ tensor ++ "'"
  | missingInput op name => "operator " ++ op ++ " has no input '" ++ name ++ "'"
  | missingOutput op name => "operator " ++ op ++ " has no output '" ++ name ++ "'"
  | missingParameter op name => "operator " ++ op ++ " has no parameter '" ++ name ++ "'"
  | invalidParameter name reason => "invalid parameter '" ++ name ++ "': " ++ reason
  | unboundPlaceholder label => "no binding for load-time placeholder '" ++ label ++ "'"
  | lowering op cause => "failed to lower " ++ op ++ ": " ++ cause.message

def root : LoweringError → LoweringError
  | lowering _ cause => cause.root
  | e => e

@[simp] theorem root_root (e : LoweringError) : e.root.root = e.root := by
  induction e <;> simp_all [root]

def cause? : LoweringError → Option LoweringError
  | lowering _ cause => some cause
  | _ => none

def help? : LoweringError → Option String
  | missingHandler _ => some "register a handler for this operator kind before lowering"
  | missingLayout _ => some "every tensor used by an operator needs an allocation in the layout"
  | layoutMismatch .. => some "insert a transpose upstream so both tensors use the expected order"
  | _ => none

/-- Reports the innermost cause, with a note on the outermost operator. -/
def diagnostic (e : LoweringError) : Diagnostic where
  severity := .error
  message := e.root.message
  span := .dummy
  notes :=
    match e with
    | lowering op _ => ["while lowering operator " ++ op]
    | _ => []
  help := e.root.help?

end LoweringError

theorem bind_eq_ok {ε α β : Type} {m : Except ε α} {f : α → Except ε β} {b : β}
    (h : m >>= f = .ok b) : ∃ a, m = .ok a ∧ f a = .ok b := by
  cases m with
  | error e => cases h
  | ok a => exact ⟨a, rfl, h⟩

end TensorKernels
