import TensorKernels.CommandLine.Run

set_option autoImplicit false

open TensorKernels

def systemReason (e : IO.Error) : String :=
  match e with
  | .noFileOrDirectory _ code details | .permissionDenied _ code details
  | .inappropriateType _ code details | .otherError code details =>
    details ++ " (os error " ++ code.toNat.repr ++ ")"
  | e => e.toString

def readText (path : String) : IO (Except String String) := do
  try
    let file ← IO.FS.Handle.mk path .read
    let bytes ← file.readBinToEnd
    match String.fromUTF8? bytes with
    | some text => return .ok text
    | none => return .error "stream did not contain valid UTF-8"
  catch e => return .error (systemReason e)

def finish (o : Outcome) : IO UInt32 := do
  (← IO.getStdout).putStr o.out
  (← IO.getStderr).putStr o.err
  return o.exitCode

def main (args : List String) : IO UInt32 := do
  let inputs := ((Command.parse? args).map Command.inputs).getD []
  let texts ← inputs.mapM fun path => return (path, ← readText path)
  let files : FileReader := fun path => (texts.lookup path).getD (.error "not read")
  match Command.runArguments files args with
  | .finish o => finish o
  | .write file written =>
    try
      IO.FS.writeFile file.path file.content
      finish written
    catch e => finish (.unwritable file.path (systemReason e))
