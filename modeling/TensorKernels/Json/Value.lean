import TensorKernels.Json.Text

/-! A number written as an integer is that integer. Any other number is kept as it is written. The
fields of an object keep their order, and a name may occur more than once. Some texts of the grammar
stand for nothing: a text with half of a surrogate pair, a number that is too large, an object with
such a text for a name. They are well-formed, so they may stand where nothing is read. -/

set_option autoImplicit false

namespace TensorKernels

inductive Json
  | null
  | bool (b : Bool)
  | int (n : Int)
  | real (literal : String)
  | str (s : String)
  | arr (items : List Json)
  | obj (fields : List (String × Json))
  | invalid

instance : Inhabited Json := ⟨.null⟩

namespace Json

def nat (n : Nat) : Json := .int n

def ofFields (fields : List (Option String × Json)) : Json :=
  match fields.mapM fun f => f.1.map (·, f.2) with
  | some fields => .obj fields
  | none => .invalid

/-- How deep the containers of a sound text may be nested. -/
def maxDepth : Nat := 127

mutual

/-- Whether every part of a value stands for something and no container is more than `depth` deep. -/
def isSound : Nat → Json → Bool
  | _, invalid => false
  | 0, arr _ => false
  | 0, obj _ => false
  | depth + 1, arr items => soundItems depth items
  | depth + 1, obj fields => soundFields depth fields
  | _, _ => true

def soundItems (depth : Nat) : List Json → Bool
  | [] => true
  | v :: vs => isSound depth v && soundItems depth vs

def soundFields (depth : Nat) : List (String × Json) → Bool
  | [] => true
  | (_, v) :: fs => isSound depth v && soundFields depth fs

end

end Json

/-- The blanks of a form; `line` is what precedes an element at a depth. -/
structure Spacing where
  line : Nat → String
  colon : String

namespace Spacing

def compact : Spacing := ⟨fun _ => "", ":"⟩

def indented : Spacing := ⟨fun depth => "\n" ++ String.ofList (List.replicate (2 * depth) ' '), ": "⟩

end Spacing

namespace Json

mutual

def write (s : Spacing) (depth : Nat) : Json → String
  | null | invalid => "null"
  | bool true => "true"
  | bool false => "false"
  | int n => n.repr
  | real literal => literal
  | str t => JsonText.quote t
  | arr [] => "[]"
  | arr (v :: vs) =>
    "[" ++ s.line (depth + 1) ++ write s (depth + 1) v ++ writeItems s (depth + 1) vs ++
      s.line depth ++ "]"
  | obj [] => "\x7b\x7d"
  | obj ((name, v) :: fs) =>
    "\x7b" ++ s.line (depth + 1) ++ JsonText.quote name ++ s.colon ++ write s (depth + 1) v ++
      writeFields s (depth + 1) fs ++ s.line depth ++ "\x7d"

def writeItems (s : Spacing) (depth : Nat) : List Json → String
  | [] => ""
  | v :: vs => "," ++ s.line depth ++ write s depth v ++ writeItems s depth vs

def writeFields (s : Spacing) (depth : Nat) : List (String × Json) → String
  | [] => ""
  | (name, v) :: fs =>
    "," ++ s.line depth ++ JsonText.quote name ++ s.colon ++ write s depth v ++ writeFields s depth fs

end

def compact (v : Json) : String := v.write .compact 0

def indented (v : Json) : String := v.write .indented 0

end Json

end TensorKernels
