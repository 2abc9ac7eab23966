import TensorKernels.Configuration
import TensorKernels.Description
import TensorKernels.Program
import TensorKernels.Text
import TensorKernels.Word

set_option autoImplicit false

namespace TensorKernels

structure OptionRule where
  long : String
  short : Option Char
  takesValue : Bool
  repeatable : Bool
  deriving DecidableEq, Repr

inductive Argument
  | flag (long : String)
  | value (long text : String)
  | operand (text : String)
  deriving DecidableEq, Repr

namespace Argument

/-- A lone dash is a value like any other. -/
def isOptionLike (arg : List Char) : Bool :=
  match arg with
  | '-' :: _ :: _ => true
  | _ => false

abbrev Found := List Argument × Option String

def long? (rules : List OptionRule) (arg : List Char) : Option Found := do
  let name := String.ofList (arg.takeWhile (· ≠ '='))
  let rule ← rules.find? (·.long = name)
  match arg.dropWhile (· ≠ '='), rule.takesValue with
  | _ :: text, true => some ([value rule.long (String.ofList text)], none)
  | [], true => some ([], some rule.long)
  | [], false => some ([flag rule.long], none)
  | _ :: _, false => none

/-- An equals sign between a short option and its value is dropped. -/
def attached : List Char → String
  | '=' :: text => String.ofList text
  | text => String.ofList text

def shorts? (rules : List OptionRule) : List Char → Option Found
  | [] => some ([], none)
  | c :: cs => do
    let rule ← rules.find? (·.short = some c)
    if rule.takesValue then
      if cs = [] then some ([], some rule.long)
      else some ([value rule.long (attached cs)], none)
    else do
      let (found, waiting) ← shorts? rules cs
      return (flag rule.long :: found, waiting)

def one? (rules : List OptionRule) : List Char → Option Found
  | '-' :: '-' :: arg => long? rules arg
  | '-' :: c :: cs => shorts? rules (c :: cs)
  | arg => some ([operand (String.ofList arg)], none)

/-- `waiting` is the option before these arguments if it has yet no value. -/
def readFrom (rules : List OptionRule) : Option String → List String → Option (List Argument)
  | none, [] => some []
  | some _, [] => none
  | some long, arg :: args =>
    if isOptionLike arg.toList then none
    else (readFrom rules none args).map (value long arg :: ·)
  | none, arg :: args =>
    if arg = "--" then some (args.map operand)
    else do
      let (found, waiting) ← one? rules arg.toList
      let rest ← readFrom rules waiting args
      return found ++ rest

def admissible (rules : List OptionRule) (args : List Argument) : Bool :=
  rules.all fun r =>
    r.repeatable || (args.filter fun
      | flag long | value long _ => long = r.long
      | operand _ => false).length ≤ 1

def read? (rules : List OptionRule) (args : List String) : Option (List Argument) := do
  let found ← readFrom rules none args
  if admissible rules found then some found else none

end Argument

namespace Argument

def hasFlag (long : String) (args : List Argument) : Bool := args.contains (flag long)

def value? (long : String) (args : List Argument) : Option String :=
  args.findSome? fun
    | value l text => if l = long then some text else none
    | _ => none

def operands (args : List Argument) : List String :=
  args.filterMap fun
    | operand text => some text
    | _ => none

end Argument

inductive Command
  | version
  | lower (graph : String) (output config : Option String) (parallel : Bool)
  | check (graph : String) (config : Option String)
  | showKernel (graph : String) (op : UInt32) (metadata : Bool) (config : Option String)
  deriving DecidableEq, Repr

namespace Command

def verboseRule : OptionRule := ⟨"verbose", some 'v', false, true⟩

def configRule : OptionRule := ⟨"config", none, true, false⟩

def lowerRules : List OptionRule :=
  [verboseRule, configRule, ⟨"output", some 'o', true, false⟩, ⟨"parallel", none, false, false⟩]

def checkRules : List OptionRule := [verboseRule, configRule]

def showRules : List OptionRule :=
  [verboseRule, configRule, ⟨"op", none, true, false⟩, ⟨"meta", none, false, false⟩]

def path? (text : String) : Option String := if text = "" then none else some text

def optionalPath? (long : String) (args : List Argument) : Option (Option String) :=
  match Argument.value? long args with
  | none => some none
  | some text => (path? text).map some

def graph? (args : List Argument) : Option String :=
  match Argument.operands args with
  | [text] => path? text
  | _ => none

def id? (text : String) : Option UInt32 := do
  let n ← Text.readInt? text.toList
  uint32? n

def named? (name : String) (args : List String) : Option Command :=
  if name = "lower" then do
    let args ← Argument.read? lowerRules args
    return lower (← graph? args) (← optionalPath? "output" args) (← optionalPath? "config" args)
      (Argument.hasFlag "parallel" args)
  else if name = "check" then do
    let args ← Argument.read? checkRules args
    return check (← graph? args) (← optionalPath? "config" args)
  else if name = "show" then do
    let args ← Argument.read? showRules args
    let op ← Argument.value? "op" args
    return showKernel (← graph? args) (← id? op) (Argument.hasFlag "meta" args)
      (← optionalPath? "config" args)
  else none

/-- Joined short options before the command: `none` if one is not known, otherwise whether the
version is asked for. -/
def leadingShorts? : List Char → Option Bool
  | [] => some false
  | 'v' :: cs => leadingShorts? cs
  | 'V' :: _ => some true
  | _ => none

def parse? : List String → Option Command
  | [] => none
  | arg :: args =>
    if arg = "--version" then some version
    else if arg = "--verbose" then parse? args
    else
      match arg.toList with
      | '-' :: c :: cs => do
        if ← leadingShorts? (c :: cs) then some version else parse? args
      | _ => named? arg args

def inputs : Command → List String
  | version => []
  | lower graph _ config _ | check graph config | showKernel graph _ _ config =>
    config.toList ++ [graph]

end Command

structure Outcome where
  exitCode : UInt32
  out : String
  err : String
  deriving DecidableEq, Repr

structure FileOutput where
  path : String
  content : String
  deriving DecidableEq, Repr

/-- What is left to do: nothing, or to write a file and then to end in one of two ways. -/
inductive Effect
  | finish (outcome : Outcome)
  | write (file : FileOutput) (written : Outcome)
  deriving DecidableEq, Repr

abbrev FileReader := String → Except String String

namespace Outcome

def success (out err : String) : Outcome := ⟨0, out, err⟩

def failure (err : String) : Outcome := ⟨1, "", err⟩

def usage : Outcome := ⟨2, "", "error: invalid arguments\n"⟩

def unwritable (path reason : String) : Outcome :=
  failure ("error: cannot write '" ++ path ++ "': " ++ reason ++ "\n")

end Outcome

namespace Command

def versionText : String := "kernelsmith 0.1.0\n"

def loadConfiguration (files : FileReader) : Option String → Except Diagnostic Configuration
  | none => .ok .standard
  | some path =>
    match files path with
    | .error reason => .error ((ConfigurationError.unreadable reason).diagnostic path)
    | .ok text => (Configuration.read text).mapError (·.diagnostic path)

def loadDescription (files : FileReader) (path : String) : Except String Description :=
  match files path with
  | .error reason => .error ("error: cannot read '" ++ path ++ "': " ++ reason ++ "\n")
  | .ok text => (Description.read text).mapError fun e => (Diagnostic.error e.message .dummy).render

def program (files : FileReader) (graph : String) (config : Option String) (parallel : Bool) :
    Except String Program := do
  let c ← (loadConfiguration files config).mapError Diagnostic.render
  let d ← loadDescription files graph
  (d.lower { c with parallel := c.parallel || parallel }).mapError (·.diagnostic.render)

def metadataText (k : Kernel) : String :=
  let cells := (k.cells?.getD []).map fun c => c.toInt.repr
  "// meta_buffer = [" ++ ", ".intercalate cells ++ "]\n" ++
    String.join (k.unresolved.map fun u =>
      "// meta_buffer[" ++ u.cell.repr ++ "] (" ++ u.key ++ ") <- " ++ braced u.label ++ "\n")

def lowered (p : Program) : Option String → Effect
  | none => .finish (.success (p.text ++ "\n") "")
  | some path =>
    .write ⟨path, p.text⟩
      (.success "" ("Lowered " ++ p.kernels.length.repr ++ " kernel(s) -> " ++ path ++ "\n"))

def checked (p : Program) (graph : String) : Outcome :=
  let note :=
    if 0 < p.unresolvedCount then
      "note: " ++ p.unresolvedCount.repr ++ " value(s) left for the loader to patch\n"
    else ""
  .success p.summary (note ++ "OK: " ++ graph ++ "\n")

def shown (p : Program) (op : UInt32) (metadata : Bool) : Outcome :=
  match p.kernelOf? op with
  | none => .failure ("error: no kernel for operator " ++ op.toNat.repr ++ "\n")
  | some k => .success (k.source ++ if metadata then metadataText k else "") ""

def withProgram (p : Except String Program) (next : Program → Effect) : Effect :=
  match p with
  | .error report => .finish (.failure report)
  | .ok p => next p

def run (files : FileReader) : Command → Effect
  | version => .finish (.success versionText "")
  | lower graph output config parallel =>
    withProgram (program files graph config parallel) fun p => lowered p output
  | check graph config =>
    withProgram (program files graph config false) fun p => .finish (checked p graph)
  | showKernel graph op metadata config =>
    withProgram (program files graph config false) fun p => .finish (shown p op metadata)

def runArguments (files : FileReader) (args : List String) : Effect :=
  match parse? args with
  | none => .finish .usage
  | some c => c.run files

end Command

end TensorKernels
