import TensorKernels.Tensor

set_option autoImplicit false

namespace TensorKernels

inductive OperatorKind
  | depth2space
  | space2depth
  deriving DecidableEq, Repr

namespace OperatorKind

def all : List OperatorKind := [depth2space, space2depth]

def tag : OperatorKind → String
  | depth2space => "depth2space"
  | space2depth => "space2depth"

def foldCase (text : String) : String := String.ofList (text.toList.map Char.toLower)

def ofTag? (text : String) : Option OperatorKind := all.find? (·.tag = foldCase text)

def parse (text : String) : Except LoweringError OperatorKind :=
  match ofTag? text with
  | some k => .ok k
  | none => .error (.unknownOperatorType text)

theorem tag_injective {k l : OperatorKind} (h : k.tag = l.tag) : k = l := by
  cases k <;> cases l <;> simp_all [tag]

theorem parse_eq_ok_iff {text : String} {k : OperatorKind} :
    parse text = .ok k ↔ k.tag = foldCase text := by
  unfold parse ofTag?
  split
  · next l hl =>
    have htag : l.tag = foldCase text := by simpa using List.find?_some hl
    rw [Except.ok.injEq, ← htag]
    exact ⟨fun h => congrArg tag h.symm, fun h => (tag_injective h).symm⟩
  · next hnone =>
    have hk := List.find?_eq_none.1 hnone k (by cases k <;> decide)
    simpa using hk

end OperatorKind

/-- The rearrangement of `x` into `y` with blocks of `block` by `block` pixels. -/
structure Operator where
  kind : OperatorKind
  id : UInt32
  x : Tensor
  y : Tensor
  block : UInt32
  block_pos : block ≠ 0
  deriving DecidableEq, Repr

namespace Operator

def ofBlock (kind : OperatorKind) (id : UInt32) (x y : Tensor) (block : UInt32) :
    Except LoweringError Operator :=
  if h : block = 0 then .error (.invalidParameter "r" "block size must be positive")
  else .ok ⟨kind, id, x, y, block, h⟩

def labelOf (tag : String) (id : UInt32) : String := tag ++ "#" ++ id.toNat.repr

def label (op : Operator) : String := labelOf op.kind.tag op.id

def inputs (op : Operator) : List Tensor := [op.x]

def outputs (op : Operator) : List Tensor := [op.y]

end Operator

structure Graph where
  operators : List Operator
  nodup_ids : (operators.map Operator.id).Nodup

namespace Graph

/-- The first id that came before is an error. -/
def ofOperators (ops : List Operator) : Except LoweringError Graph :=
  match h : Text.firstRepeat? [] (ops.map Operator.id) with
  | none => .ok ⟨ops, Text.nodup_of_firstRepeat? h⟩
  | some id => .error (.duplicateOperatorId id)

def size (g : Graph) : Nat := g.operators.length

theorem ofOperators_operators (g : Graph) : ofOperators g.operators = .ok g := by
  have h : Text.firstRepeat? [] (g.operators.map Operator.id) = none :=
    Text.firstRepeat?_eq_none.2 ⟨g.nodup_ids, by simp⟩
  unfold ofOperators
  split
  · rfl
  · simp_all

end Graph

end TensorKernels
