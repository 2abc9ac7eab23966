import TensorKernels.Kernel.Basic
import TensorKernels.LoweringError
import TensorKernels.Text

/-! Kernel text with placeholders between double percent signs. The scan goes from the leftmost
delimiter to the next one and on behind that; a single percent sign is text. A template is normal if
its pieces can be told apart in its text, so that reading the text gives the template back. -/

set_option autoImplicit false

namespace TensorKernels

inductive Directive
  | entryName
  | slot (s : Slot)
  | load (key : String)
  deriving DecidableEq, Repr

namespace Directive

def body : Directive → String
  | entryName => "FUNC_NAME"
  | slot s => s.placeholder
  | load key => "LOAD_BUFFER(" ++ key ++ ")"

def display (d : Directive) : String := "%%" ++ d.body ++ "%%"

def key? : Directive → Option String
  | load key => some key
  | _ => none

end Directive

inductive Piece
  | text (t : String)
  | directive (d : Directive)
  deriving DecidableEq, Repr

def Piece.key? : Piece → Option String
  | .text _ => none
  | .directive d => d.key?

abbrev Template := List Piece

namespace Template

/-- Keeps the first of equal members. -/
def distinct : List String → List String
  | [] => []
  | k :: ks => k :: (distinct ks).filter (· ≠ k)

theorem mem_distinct {k : String} {ks : List String} : k ∈ distinct ks ↔ k ∈ ks := by
  induction ks with
  | nil => simp [distinct]
  | cons j ks ih => by_cases h : k = j <;> simp [distinct, ih, h]

def loadKeys (t : Template) : List String := distinct (t.filterMap Piece.key?)

/-- The text of each piece, directives resolved in order up to the first failure. -/
def render {ε : Type} (resolve : Directive → Except ε String) : Template → Except ε String
  | [] => .ok ""
  | .text t :: ps => do
    let rest ← render resolve ps
    return t ++ rest
  | .directive d :: ps => do
    let value ← resolve d
    let rest ← render resolve ps
    return value ++ rest

def source (t : Template) : String :=
  String.join (t.map fun
    | .text s => s
    | .directive d => d.display)

theorem render_display {ε : Type} (t : Template) :
    render (ε := ε) (fun d => .ok d.display) t = .ok t.source := by
  induction t with
  | nil => rfl
  | cons p t ih =>
    have h (p : Piece) (t : Template) : source (p :: t) = source [p] ++ source t := by
      simp [source]
    rw [h]
    cases p <;> simp [render, ih, bind, Except.bind, pure, Except.pure, source]

end Template

inductive TemplateFault
  | unterminated (near : String)
  | invalidKey (key : String)
  | unknownBody (body : String)
  | leftover (d : Directive)
  deriving DecidableEq, Repr

namespace TemplateFault

def reason : TemplateFault → String
  | unterminated near => "unterminated placeholder near '" ++ near ++ "'"
  | invalidKey key => "invalid LOAD_BUFFER key '" ++ key ++ "'"
  | unknownBody body => "unknown placeholder '%%" ++ body ++ "%%'"
  | leftover d => "placeholder " ++ d.display ++ " left after buffer injection"

def toError (f : TemplateFault) : LoweringError := .malformedTemplate f.reason

end TemplateFault

namespace Template

def cut? : List Char → Option (List Char × List Char)
  | '%' :: '%' :: rest => some ([], rest)
  | c :: rest => (cut? rest).map fun (a, b) => (c :: a, b)
  | [] => none

theorem eq_of_cut? {cs a b : List Char} (h : cut? cs = some (a, b)) : cs = a ++ '%' :: '%' :: b := by
  fun_induction cut? cs generalizing a with
  | case1 rest => simp_all
  | case2 c rest _ ih =>
    obtain ⟨⟨a', b'⟩, h', e⟩ := Option.map_eq_some_iff.1 h
    simp only [Prod.mk.injEq] at e
    obtain ⟨rfl, rfl⟩ := e
    simp [ih h']
  | case3 => simp at h

theorem length_lt_of_cut? {cs a b : List Char} (h : cut? cs = some (a, b)) :
    b.length < cs.length := by
  rw [eq_of_cut? h]
  simp only [List.length_append, List.length_cons]
  omega

/-- A key may start with a digit. -/
def isKey (cs : List Char) : Bool := !cs.isEmpty && cs.all Text.isWordChar

def loadArgument? (body : List Char) : Option (List Char) := do
  let rest ← "LOAD_BUFFER(".toList.isPrefixOf? body
  [')'].isSuffixOf? rest

def directive (body : List Char) : Except TemplateFault Directive :=
  if body = Directive.entryName.body.toList then .ok .entryName
  else
    match Slot.ofPlaceholder? (String.ofList body) with
    | some s => .ok (.slot s)
    | none =>
      match loadArgument? body with
      | some key =>
        if isKey key then .ok (.load (String.ofList key)) else .error (.invalidKey (String.ofList key))
      | none => .error (.unknownBody (String.ofList body))

/-- There is no empty piece of text. -/
def textPieces (cs : List Char) : Template := if cs = [] then [] else [.text (String.ofList cs)]

def previewLength : Nat := 24

def scan (cs : List Char) : Except TemplateFault Template :=
  match _h : cut? cs with
  | none => .ok (textPieces cs)
  | some (before, after) =>
    match _h' : cut? after with
    | none => .error (.unterminated (String.ofList (('%' :: '%' :: after).take previewLength)))
    | some (body, rest) => do
      let d ← directive body
      let ps ← scan rest
      return textPieces before ++ .directive d :: ps
termination_by cs.length
decreasing_by exact Nat.lt_trans (length_lt_of_cut? _h') (length_lt_of_cut? _h)

def parse (text : String) : Except LoweringError Template :=
  (scan text.toList).mapError TemplateFault.toError

end Template

def delimiter : List Char := ['%', '%']

def Directive.Valid (d : Directive) : Prop := ∀ key, d.key? = some key → Template.isKey key.toList

namespace Template

/-- A text that is told apart from the directives around it. -/
def Plain (t : String) : Prop := t ≠ "" ∧ ¬ delimiter <:+: t.toList

def Normal : Template → Prop
  | [] => True
  | [.text t] => Plain t
  | .text _ :: .text _ :: _ => False
  | .text t :: .directive d :: ps =>
    Plain t ∧ t.toList.getLast? ≠ some '%' ∧ Normal (.directive d :: ps)
  | .directive d :: ps => d.Valid ∧ Normal ps

theorem cut?_eq_none_iff {cs : List Char} : cut? cs = none ↔ ¬ delimiter <:+: cs := by
  fun_induction cut? cs with
  | case1 rest =>
    simp only [reduceCtorEq, false_iff, Decidable.not_not]
    exact ⟨[], rest, rfl⟩
  | case2 c rest h ih =>
    rw [Option.map_eq_none_iff, ih, List.infix_cons_iff]
    refine not_congr ⟨.inr, fun hi => hi.resolve_left ?_⟩
    rintro ⟨s, hs⟩
    simp only [delimiter, List.cons_append, List.nil_append, List.cons.injEq] at hs
    exact h s hs.1.symm hs.2.symm
  | case3 => simp [delimiter]

end Template

end TensorKernels
