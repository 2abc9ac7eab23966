import TensorKernels.Digest.Blake3
import TensorKernels.Table
import TensorKernels.Text

set_option autoImplicit false

namespace TensorKernels

abbrev Cell := UInt32

namespace Cell

def width : Nat := 4

def ofInt32 (v : Int32) : Cell := v.toUInt32

def toInt (c : Cell) : Int := c.toInt32.toInt

theorem toInt_ofInt32 (v : Int32) : toInt (ofInt32 v) = v.toInt := by
  simp [toInt, ofInt32]

/-- The least significant byte comes first. -/
def bytes (c : Cell) : List UInt8 := Text.littleEndian width c.toNat

end Cell

abbrev Cells := List Cell

def Cells.bytes (cs : Cells) : List UInt8 := cs.flatMap Cell.bytes

inductive Slot
  | static
  | dynamic
  | metadata
  deriving DecidableEq, Repr

namespace Slot

def all : List Slot := [static, dynamic, metadata]

def index : Slot → Nat
  | static => 0
  | dynamic => 1
  | metadata => 2

def ident : Slot → String
  | static => "static_buffer"
  | dynamic => "dynamic_buffer"
  | metadata => "meta_buffer"

def placeholder : Slot → String
  | static => "STATIC_BUFFER"
  | dynamic => "DYNAMIC_BUFFER"
  | metadata => "META_BUFFER"

def name : Slot → String
  | static => "static"
  | dynamic => "dynamic"
  | metadata => "meta"

def elementType : Slot → String
  | static | dynamic => "device float"
  | metadata => "const device int"

def ofPlaceholder? (text : String) : Option Slot := all.find? (·.placeholder = text)

@[simp] theorem ofPlaceholder?_placeholder (s : Slot) : ofPlaceholder? s.placeholder = some s := by
  cases s <;> decide

end Slot

def maxThreadsLabel : String := "MAX_THREADS_PER_THREADGROUP"

inductive Dim
  | fixed (extent : UInt32)
  | preset (label : String)
  deriving DecidableEq, Repr

namespace Dim

def display : Dim → String
  | fixed n => n.toNat.repr
  | preset label => braced label

def isFixed : Dim → Bool
  | fixed _ => true
  | preset _ => false

end Dim

structure LaunchSize where
  x : Dim
  y : Dim
  z : Dim
  deriving DecidableEq, Repr

namespace LaunchSize

def fixed (x y z : UInt32) : LaunchSize := ⟨.fixed x, .fixed y, .fixed z⟩

def maxThreads : LaunchSize := ⟨.preset maxThreadsLabel, .fixed 1, .fixed 1⟩

def dims (s : LaunchSize) : List Dim := [s.x, s.y, s.z]

def display (s : LaunchSize) : String :=
  "(" ++ s.x.display ++ ", " ++ s.y.display ++ ", " ++ s.z.display ++ ")"

end LaunchSize

structure Launch where
  grid : LaunchSize
  threadgroup : LaunchSize
  deriving DecidableEq, Repr

namespace Launch

def standard : Launch := ⟨.fixed 8 1 1, .maxThreads⟩

def dims (l : Launch) : List Dim := l.grid.dims ++ l.threadgroup.dims

end Launch

inductive Buffer
  | static
  | dynamic
  | metadata (cells : Cells)
  deriving DecidableEq, Repr

namespace Buffer

def slot : Buffer → Slot
  | static => .static
  | dynamic => .dynamic
  | metadata _ => .metadata

def cells? : Buffer → Option Cells
  | metadata cells => some cells
  | _ => none

end Buffer

/-- A metadata cell whose value is known only at load time, with the key it was registered under. -/
structure Unresolved where
  cell : Nat
  byteOffset : Nat
  key : String
  label : String
  deriving DecidableEq, Repr

structure Kernel where
  name : String
  source : String
  launch : Launch
  buffers : List Buffer
  unresolved : List Unresolved
  deriving DecidableEq, Repr

def terminated (text : String) : List UInt8 := text.toUTF8.toList ++ [0]

def Unresolved.bytes (u : Unresolved) : List UInt8 :=
  Text.littleEndian 8 u.cell ++ terminated u.key ++ terminated u.label

def Dim.bytes : Dim → List UInt8
  | .fixed n => 1 :: Text.littleEndian 4 n.toNat
  | .preset label => 2 :: terminated label

namespace Kernel

def entryPoint (k : Kernel) : String := k.name

def sources (k : Kernel) : List (String × String) := [(k.name, k.source)]

def cells? (k : Kernel) : Option Cells := k.buffers.findSome? Buffer.cells?

def isReady (k : Kernel) : Bool := k.unresolved.isEmpty && k.launch.dims.all Dim.isFixed

def stream (k : Kernel) : List UInt8 :=
  k.source.toUTF8.toList ++ (k.buffers.filterMap Buffer.cells?).flatMap Cells.bytes ++
    k.unresolved.flatMap Unresolved.bytes ++ k.launch.dims.flatMap Dim.bytes

def fingerprint (k : Kernel) : List UInt8 := Blake3.digest k.stream

end Kernel

end TensorKernels
