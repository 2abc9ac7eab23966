import TensorKernels.Description
import TensorKernels.Json.Value
import TensorKernels.Kernel.Basic
import TensorKernels.Lowering
import TensorKernels.Memory

set_option autoImplicit false

namespace TensorKernels

def Dim.toJson : Dim → Json
  | .fixed n => .nat n.toNat
  | .preset label => .str label

def LaunchSize.toJson (s : LaunchSize) : Json :=
  .obj [("x", s.x.toJson), ("y", s.y.toJson), ("z", s.z.toJson)]

def Cells.toJson (cs : Cells) : Json := .arr (cs.map fun c => .int c.toInt)

def Buffer.toJson (b : Buffer) : Json :=
  .obj (("slot", .str b.slot.name) :: (b.cells?.map fun cs => ("cells", Cells.toJson cs)).toList)

def Unresolved.toJson (u : Unresolved) : Json :=
  .obj [("cell", .nat u.cell), ("byte_offset", .nat u.byteOffset), ("key", .str u.key),
    ("placeholder", labelJson u.label)]

def Kernel.toJson (k : Kernel) : Json :=
  .obj [("name", .str k.name),
    ("sources", .obj (k.sources.map fun s => (s.1, .str s.2))),
    ("entry_point", .str k.entryPoint),
    ("grid_size", k.launch.grid.toJson),
    ("threadgroup_size", k.launch.threadgroup.toJson),
    ("buffers", .arr (k.buffers.map Buffer.toJson)),
    ("unresolved_values", .arr (k.unresolved.map Unresolved.toJson)),
    ("fingerprint", .str (Text.hex k.fingerprint))]

structure Program where
  kernels : List Kernel
  deriving DecidableEq, Repr

namespace Program

def stream (p : Program) : List UInt8 :=
  p.kernels.flatMap fun k => k.name.toUTF8.toList ++ k.fingerprint

def hash (p : Program) : List UInt8 := Blake3.digest p.stream

def kernel? (p : Program) (name : String) : Option Kernel := p.kernels.find? (·.name = name)

def kernelOf? (p : Program) (id : UInt32) : Option Kernel :=
  p.kernels.find? fun k => ("_" ++ id.toNat.repr).toList.isSuffixOf k.name.toList

def unresolvedCount (p : Program) : Nat := (p.kernels.flatMap Kernel.unresolved).length

def toJson (p : Program) : Json :=
  .obj [("kernels", .arr (p.kernels.map Kernel.toJson)), ("hash", .str (Text.hex p.hash))]

def text (p : Program) : String := p.toJson.indented

def padRight (width : Nat) (text : String) : String :=
  text ++ String.ofList (List.replicate (width - text.length) ' ')

def padLeft (width : Nat) (text : String) : String :=
  String.ofList (List.replicate (width - text.length) ' ') ++ text

def shortHex (digest : List UInt8) : String := Text.hex (digest.take 8)

def summaryLine (k : Kernel) : String :=
  padRight 24 k.name ++ " grid " ++ k.launch.grid.display ++ " threadgroup " ++
    k.launch.threadgroup.display ++ " meta " ++ padLeft 3 (k.cells?.getD []).length.repr ++
    " cells  unresolved " ++ k.unresolved.length.repr ++ "  " ++ shortHex k.fingerprint ++ "\n"

def summary (p : Program) : String :=
  String.join (p.kernels.map summaryLine) ++ p.kernels.length.repr ++ " kernel(s), program " ++
    shortHex p.hash ++ "\n"

end Program

/-- The program of a description. The target is looked at before the description. -/
def Description.lower (d : Description) (c : Configuration) : Except LoweringError Program :=
  match Backend.ofTarget? c.target c with
  | none => .error (.invalidParameter "target" ("no backend for target '" ++ c.target ++ "'"))
  | some backend => do
    let (graph, layout) ← d.resolve
    let kernels ← backend.lower graph layout
    return ⟨kernels⟩

end TensorKernels
