set_option autoImplicit false

namespace TensorKernels

structure Span where
  start : Nat
  stop : Nat
  deriving DecidableEq, Repr

namespace Span

def dummy : Span := ⟨0, 0⟩

def isDummy (s : Span) : Bool := s.start == 0 && s.stop == 0

def linesWithEnds : List Char → List (List Char)
  | [] => []
  | c :: cs =>
    if c = '\n' then [c] :: linesWithEnds cs
    else
      match linesWithEnds cs with
      | [] => [[c]]
      | l :: ls => (c :: l) :: ls

theorem flatten_linesWithEnds (cs : List Char) : (linesWithEnds cs).flatten = cs := by
  induction cs with
  | nil => rfl
  | cons c cs ih =>
    simp only [linesWithEnds]
    split
    · simp [ih]
    · split
      · next h => simp [h] at ih; simp [← ih]
      · next h => simp [h] at ih; simp [← ih]

def byteLength : List Char → Nat
  | [] => 0
  | c :: cs => c.utf8Size + byteLength cs

theorem byteLength_append (as bs : List Char) :
    byteLength (as ++ bs) = byteLength as + byteLength bs := by
  induction as with
  | nil => simp [byteLength]
  | cons a as ih => simp [byteLength, ih, Nat.add_assoc]

/-- Walks the lines from number `current` at byte `offset`; a column past its line is the line's
end. `none` when there is no such line. -/
def locate (line column : Nat) : List (List Char) → Nat → Nat → Option Nat
  | [], _, _ => none
  | l :: ls, current, offset =>
    if current = line then some (offset + min (column - 1) (byteLength l))
    else locate line column ls (current + 1) (offset + byteLength l)

def kept (offset : Nat) : Nat := offset % 4294967296

/-- The byte at a place; a place past the end is the last byte. -/
def atLineColumn (source : String) (line column : Nat) : Span :=
  let total := byteLength source.toList
  match locate line column (linesWithEnds source.toList) 1 0 with
  | some offset => ⟨kept offset, kept (min (offset + 1) total)⟩
  | none => ⟨kept total - 1, kept total⟩

end Span

inductive Severity
  | error
  | warning
  deriving DecidableEq, Repr

def Severity.label : Severity → String
  | .error => "error"
  | .warning => "warning"

structure Diagnostic where
  severity : Severity
  message : String
  span : Span
  notes : List String
  help : Option String
  deriving DecidableEq, Repr

namespace Diagnostic

def error (message : String) (span : Span) : Diagnostic := ⟨.error, message, span, [], none⟩

def warning (message : String) (span : Span) : Diagnostic := ⟨.warning, message, span, [], none⟩

def withNote (d : Diagnostic) (note : String) : Diagnostic := { d with notes := d.notes ++ [note] }

def withHelp (d : Diagnostic) (help : String) : Diagnostic := { d with help := some help }

def lines (d : Diagnostic) : List String :=
  (d.severity.label ++ ": " ++ d.message) :: d.notes.map ("  = note: " ++ ·) ++
    (d.help.map ("  = help: " ++ ·)).toList

def render (d : Diagnostic) : String := String.join (d.lines.map (· ++ "\n"))

def renderAll (ds : List Diagnostic) : String := String.join (ds.map render)

end Diagnostic

end TensorKernels
