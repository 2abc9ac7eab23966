import TensorKernels.Json.Number
import TensorKernels.Json.Text
import TensorKernels.Json.Value
import TensorKernels.LoweringError
import TensorKernels.Table
import TensorKernels.Word

set_option autoImplicit false

namespace TensorKernels

/-- A text without characters and a number that is too large are tokens that stand for nothing. -/
inductive JsonToken
  | beginArray
  | endArray
  | beginObject
  | endObject
  | comma
  | colon
  | null
  | bool (b : Bool)
  | int (n : Int)
  | real (literal : String)
  | outOfRange
  | str (s : Option String)
  deriving DecidableEq, Repr

namespace JsonToken

def isSpace (c : Char) : Bool := c == ' ' || c == '\n' || c == '\r' || c == '\t'

def punctuation? : Char → Option JsonToken
  | '[' => some beginArray
  | ']' => some endArray
  | '\x7b' => some beginObject
  | '\x7d' => some endObject
  | ',' => some comma
  | ':' => some colon
  | _ => none

def word? (cs : List Char) : Option JsonToken :=
  if cs = "null".toList then some null
  else if cs = "true".toList then some (bool true)
  else if cs = "false".toList then some (bool false)
  else none

def number? (literal : List Char) : Option JsonToken :=
  (Numeral.ofLiteral? literal).map fun n =>
    if n.inRange then
      match n.integer? with
      | some i => int i
      | none => real (String.ofList literal)
    else outOfRange

def next? (c : Char) (cs : List Char) : Option (JsonToken × List Char) :=
  match punctuation? c with
  | some t => some (t, cs)
  | none =>
    if c = '"' then
      (JsonText.body? cs).map fun (us, rest) =>
        (str ((JsonText.characters? us).map String.ofList), rest)
    else if c.isDigit || c == '-' then
      (number? (c :: cs.takeWhile Numeral.isMark)).map fun t => (t, cs.dropWhile Numeral.isMark)
    else (word? (c :: cs.takeWhile Char.isAlpha)).map fun t => (t, cs.dropWhile Char.isAlpha)

theorem length_le_of_next? {c : Char} {cs rest : List Char} {t : JsonToken}
    (h : next? c cs = some (t, rest)) : rest.length ≤ cs.length := by
  unfold next? at h
  split at h
  · simp_all
  · split at h
    · obtain ⟨⟨s, r⟩, hb, e⟩ := Option.map_eq_some_iff.1 h
      simp only [Prod.mk.injEq] at e
      obtain ⟨-, rfl⟩ := e
      exact Nat.le_of_lt (JsonText.length_lt_of_body? hb)
    · split at h
      all_goals
        obtain ⟨u, -, e⟩ := Option.map_eq_some_iff.1 h
        simp only [Prod.mk.injEq] at e
        obtain ⟨-, rfl⟩ := e
        exact (List.dropWhile_sublist _).length_le

def scan : List Char → Option (List JsonToken)
  | [] => some []
  | c :: cs =>
    if isSpace c then scan cs
    else
      match _h : next? c cs with
      | some (t, rest) => (scan rest).map (t :: ·)
      | none => none
termination_by cs => cs.length
decreasing_by
  · simp
  · have := length_le_of_next? _h
    simp only [List.length_cons]
    omega

end JsonToken

abbrev ReadFields := List (Option String × Json)

/-- A container that is still open; what it holds so far comes latest first. -/
inductive OpenContainer
  | arr (items : List Json)
  | obj (fields : ReadFields) (name : Option String)

/-- What has been read, and what has to follow. The innermost open container comes first. -/
inductive ReaderState
  | value (stack : List OpenContainer)
  | firstItem (stack : List OpenContainer)
  | firstField (stack : List OpenContainer)
  | field (fields : ReadFields) (stack : List OpenContainer)
  | colon (fields : ReadFields) (name : Option String) (stack : List OpenContainer)
  | complete (v : Json) (stack : List OpenContainer)

namespace ReaderState

def beginValue? (stack : List OpenContainer) : JsonToken → Option ReaderState
  | .beginArray => some (firstItem stack)
  | .beginObject => some (firstField stack)
  | .null => some (complete .null stack)
  | .bool b => some (complete (.bool b) stack)
  | .int n => some (complete (.int n) stack)
  | .real literal => some (complete (.real literal) stack)
  | .str (some s) => some (complete (.str s) stack)
  | .outOfRange | .str none => some (complete .invalid stack)
  | _ => none

def step? : ReaderState → JsonToken → Option ReaderState
  | value stack, t => beginValue? stack t
  | firstItem stack, .endArray => some (complete (.arr []) stack)
  | firstItem stack, t => beginValue? (.arr [] :: stack) t
  | firstField stack, .endObject => some (complete (.obj []) stack)
  | firstField stack, .str name => some (colon [] name stack)
  | field fields stack, .str name => some (colon fields name stack)
  | colon fields name stack, .colon => some (value (.obj fields name :: stack))
  | complete v (.arr items :: stack), .comma => some (value (.arr (v :: items) :: stack))
  | complete v (.arr items :: stack), .endArray =>
    some (complete (.arr (v :: items).reverse) stack)
  | complete v (.obj fields name :: stack), .comma => some (field ((name, v) :: fields) stack)
  | complete v (.obj fields name :: stack), .endObject =>
    some (complete (.ofFields ((name, v) :: fields).reverse) stack)
  | _, _ => none

def result? : ReaderState → Option Json
  | complete v [] => some v
  | _ => none

end ReaderState

namespace Json

def ofTokens? (ts : List JsonToken) : Option Json :=
  (ts.foldlM ReaderState.step? (.value [])).bind ReaderState.result?

/-- The value that a text denotes, if the whole text is well-formed; it need not be sound. -/
def parse? (text : String) : Option Json := (JsonToken.scan text.toList).bind ofTokens?

end Json

inductive Mismatch
  | unexpected
  | invalid (cause : LoweringError)
  deriving DecidableEq, Repr

structure Field (σ : Type) where
  name : String
  required : Bool
  put : Json → σ → Except Mismatch σ

namespace Json

variable {σ α : Type}

/-- Reads the fields of an object; `seen` are the record's fields that have come already. -/
def readFields (record : List (Field σ)) :
    List String → List (String × Json) → σ → Except Mismatch (σ × List String)
  | seen, [], s => .ok (s, seen)
  | seen, (name, v) :: rest, s =>
    match record.find? (·.name = name) with
    | none => readFields record seen rest s
    | some field =>
      if name ∈ seen then .error .unexpected
      else do
        let s ← field.put v s
        readFields record (name :: seen) rest s

/-- Reads the fields of an array. Those left at its end must be optional. -/
def readPositions : List (Field σ) → List Json → σ → Except Mismatch σ
  | fields, [], s => if fields.any (·.required) then .error .unexpected else .ok s
  | [], _ :: _, _ => .error .unexpected
  | field :: fields, v :: vs, s => do
    let s ← field.put v s
    readPositions fields vs s

/-- Reads a record. Every required field replaces what `blank` has there. -/
def readRecord (record : List (Field σ)) (blank : σ) : Json → Except Mismatch σ
  | obj fields => do
    let (s, seen) ← readFields record [] fields blank
    if record.any fun f => f.required && f.name ∉ seen then .error .unexpected else .ok s
  | arr items => readPositions record items blank
  | _ => .error .unexpected

def orUnexpected : Option α → Except Mismatch α
  | some a => .ok a
  | none => .error .unexpected

def readText : Json → Except Mismatch String
  | str s => .ok s
  | _ => .error .unexpected

def readUInt32 : Json → Except Mismatch UInt32
  | int n => orUnexpected (uint32? n)
  | _ => .error .unexpected

def readInt64 : Json → Except Mismatch Int64
  | int n => orUnexpected ((int64? n).map Int64.ofInt)
  | _ => .error .unexpected

def readList (read : Json → Except Mismatch α) : Json → Except Mismatch (List α)
  | arr items => items.mapM read
  | _ => .error .unexpected

/-- A later entry takes the place of an earlier one with the same key. -/
def readTable (read : Json → Except Mismatch α) : Json → Except Mismatch (Table α)
  | obj fields =>
    fields.foldlM (fun t f => do
      let v ← read f.2
      return t.insert f.1 v) Table.empty
  | _ => .error .unexpected

end Json

def Table.toJson {α : Type} (write : α → Json) (t : Table α) : Json :=
  .obj (t.entries.map fun e => (e.1, write e.2))

end TensorKernels
