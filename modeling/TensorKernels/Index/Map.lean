import TensorKernels.Table
import TensorKernels.Word

set_option autoImplicit false

namespace TensorKernels

inductive BinOp
  | add
  | mul
  | div
  | rem
  deriving DecidableEq, Repr

namespace BinOp

def symbol : BinOp → String
  | add => "+"
  | mul => "*"
  | div => "/"
  | rem => "%"

def precedence : BinOp → Nat
  | add => 1
  | mul | div | rem => 2

end BinOp

inductive Expr
  | var (name : String)
  | const (value : Int)
  | bin (op : BinOp) (lhs rhs : Expr)
  deriving DecidableEq, Repr

/-- Division truncates toward zero. A remainder has a value when the quotient has one. -/
def BinOp.value? : BinOp → Int → Int → Option Int
  | .add, a, b => int64? (a + b)
  | .mul, a, b => int64? (a * b)
  | .div, a, b => if b = 0 then none else int64? (a.tdiv b)
  | .rem, a, b => if b = 0 then none else (int64? (a.tdiv b)).map fun _ => a.tmod b

namespace Expr

instance : Add Expr := ⟨bin .add⟩
instance : Mul Expr := ⟨bin .mul⟩
instance : Div Expr := ⟨bin .div⟩
instance : Mod Expr := ⟨bin .rem⟩

def precedence : Expr → Nat
  | bin op _ _ => op.precedence
  | _ => 3

def parenthesized (b : Bool) (text : String) : String := if b then "(" ++ text ++ ")" else text

/-- The left operand may have the precedence of its operator; the right one has to bind tighter. -/
def render : Expr → String
  | var name => name
  | const value => value.repr
  | bin op lhs rhs =>
    parenthesized (lhs.precedence < op.precedence) lhs.render ++ " " ++ op.symbol ++ " " ++
      parenthesized (rhs.precedence ≤ op.precedence) rhs.render

def eval (env : Bindings) : Expr → Option Int
  | var name => env.get? name
  | const value => some value
  | bin op lhs rhs => do
    let a ← lhs.eval env
    let b ← rhs.eval env
    op.value? a b

end Expr

structure IndexMap where
  indexVar : String
  bindings : List (String × Expr)
  source : Expr
  deriving DecidableEq, Repr

namespace IndexMap

def identity (indexVar : String) : IndexMap := ⟨indexVar, [], .var indexVar⟩

def bind (m : IndexMap) (name : String) (e : Expr) : IndexMap :=
  { m with bindings := m.bindings ++ [(name, e)] }

def withSource (m : IndexMap) (e : Expr) : IndexMap := { m with source := e }

def extend (env : Bindings) : List (String × Expr) → Option Bindings
  | [] => some env
  | (name, e) :: rest => do
    let value ← e.eval env
    extend (env.bind name value) rest

def eval (m : IndexMap) (index : Int) (scalars : Bindings) : Option Int := do
  let env ← extend (scalars.bind m.indexVar index) m.bindings
  m.source.eval env

end IndexMap

end TensorKernels
