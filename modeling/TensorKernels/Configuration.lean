import TensorKernels.Diagnostic
import TensorKernels.Kernel.Basic
import TensorKernels.Text
import TensorKernels.Word

/-! A configuration is a text of lines: sections in brackets and assignments `key = value`, with
comments from a hash sign to the end of the line. The last assignment of a key in its section holds;
keys that are not known are passed over. The target is looked at once the whole text has been read. -/

set_option autoImplicit false

namespace TensorKernels

structure Configuration where
  target : String
  launch : Launch
  parallel : Bool
  deriving DecidableEq, Repr

namespace Configuration

def standard : Configuration := ⟨"metal", .standard, false⟩

def targets : List String := ["metal", "msl", "webgpu"]

end Configuration

inductive ConfigurationError
  | unreadable (reason : String)
  | invalidGrid (value : String)
  | invalidThreadgroup (value : String)
  | invalidParallel (value : String)
  | noAssignment (line : String)
  | unknownTarget (target : String)
  deriving DecidableEq, Repr

namespace ConfigurationError

def message (path : String) : ConfigurationError → String
  | unreadable reason => "cannot read lowering config '" ++ path ++ "': " ++ reason
  | invalidGrid value => path ++ ": invalid launch.grid: " ++ value
  | invalidThreadgroup value =>
    path ++ ": invalid launch.threadgroup: " ++ value ++ " (expected \"max\" or [x, y, z])"
  | invalidParallel value => path ++ ": invalid lowering.parallel: " ++ value
  | noAssignment line => path ++ ": expected 'key = value', found '" ++ line ++ "'"
  | unknownTarget target => path ++ ": unknown target '" ++ target ++ "'"

def diagnostic (path : String) (e : ConfigurationError) : Diagnostic :=
  let d := Diagnostic.error (e.message path) .dummy
  match e with
  | unknownTarget _ => d.withHelp "available targets: metal"
  | _ => d

end ConfigurationError

namespace Configuration

/-- A line that is not blank. Key and value are without blanks at their ends. -/
inductive Line
  | heading (name : List Char)
  | assignment (key value : List Char)
  | other (text : List Char)
  deriving DecidableEq, Repr

def content (cs : List Char) : List Char := Text.trim (cs.takeWhile (· ≠ '#'))

/-- The text between two brackets that are its first and last characters. -/
def bracketed? (cs : List Char) : Option (List Char) := do
  let rest ← ['['].isPrefixOf? cs
  [']'].isSuffixOf? rest

/-- Brackets make a section even if there is an equals sign between them. -/
def Line.ofContent (cs : List Char) : Line :=
  match bracketed? cs with
  | some name => .heading (Text.trim name)
  | none =>
    match cs.dropWhile (· ≠ '=') with
    | _ :: value => .assignment (Text.trim (cs.takeWhile (· ≠ '='))) (Text.trim value)
    | [] => .other cs

def lines (text : List Char) : List Line :=
  ((text.splitOn '\n').map content).filter (· ≠ []) |>.map Line.ofContent

def dimension? (cs : List Char) : Option UInt32 := do
  let n ← Text.readNat? (Text.trim cs)
  (uint32? n).filter (0 < ·)

def size? (value : List Char) : Option LaunchSize := do
  let inner ← bracketed? value
  match ← (inner.splitOn ',').mapM dimension? with
  | [x, y, z] => some (.fixed x y z)
  | _ => none

def unquoted (value : List Char) : List Char := Text.stripBoth (· == '"') value

def threadgroup? (value : List Char) : Option LaunchSize :=
  if unquoted value = "max".toList then some .maxThreads else size? value

def truth? (value : List Char) : Option Bool :=
  if value = "true".toList then some true
  else if value = "false".toList then some false
  else none

inductive Setting
  | target
  | grid
  | threadgroup
  | parallel
  deriving DecidableEq, Repr

def Setting.ofKey? (heading key : List Char) : Option Setting :=
  if heading = "target".toList ∧ key = "name".toList then some .target
  else if heading = "launch".toList ∧ key = "grid".toList then some .grid
  else if heading = "launch".toList ∧ key = "threadgroup".toList then some .threadgroup
  else if heading = "lowering".toList ∧ key = "parallel".toList then some .parallel
  else none

def assign (c : Configuration) (value : List Char) : Setting → Except ConfigurationError Configuration
  | .target => .ok { c with target := String.ofList (unquoted value) }
  | .grid =>
    match size? value with
    | some s => .ok { c with launch := { c.launch with grid := s } }
    | none => .error (.invalidGrid (String.ofList value))
  | .threadgroup =>
    match threadgroup? value with
    | some s => .ok { c with launch := { c.launch with threadgroup := s } }
    | none => .error (.invalidThreadgroup (String.ofList value))
  | .parallel =>
    match truth? value with
    | some b => .ok { c with parallel := b }
    | none => .error (.invalidParallel (String.ofList value))

structure ReadState where
  heading : List Char
  result : Configuration
  deriving DecidableEq, Repr

def ReadState.step (s : ReadState) : Line → Except ConfigurationError ReadState
  | .heading name => .ok { s with heading := name }
  | .assignment key value =>
    match Setting.ofKey? s.heading key with
    | some setting => do
      let c ← assign s.result value setting
      return { s with result := c }
    | none => .ok s
  | .other text => .error (.noAssignment (String.ofList text))

def read (text : String) : Except ConfigurationError Configuration := do
  let s ← (lines text.toList).foldlM ReadState.step ⟨[], standard⟩
  if s.result.target ∈ targets then .ok s.result else .error (.unknownTarget s.result.target)

theorem target_of_read {text : String} {c : Configuration} (h : read text = .ok c) :
    c.target ∈ targets := by
  unfold read at h
  cases hs : (lines text.toList).foldlM ReadState.step ⟨[], standard⟩ with
  | error e => simp [hs, bind, Except.bind] at h
  | ok s =>
    simp only [hs, bind, Except.bind] at h
    split at h
    · simp_all
    · simp at h

end Configuration

end TensorKernels
