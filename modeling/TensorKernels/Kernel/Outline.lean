import TensorKernels.Index.Map
import TensorKernels.Template

set_option autoImplicit false

namespace TensorKernels

inductive DeclKind
  | input
  | output
  | int
  deriving DecidableEq, Repr

def DeclKind.type : DeclKind → String
  | .input => "const device float *"
  | .output => "device float *"
  | .int => "const int "

structure Decl where
  kind : DeclKind
  name : String
  key : String
  deriving DecidableEq, Repr

/-- Copies `input` to `output` through an index map, for every index below `limit`. -/
structure GatherLoop where
  limit : Expr
  map : IndexMap
  output : String
  input : String
  deriving DecidableEq, Repr

structure Outline where
  decls : List Decl
  loop : Option GatherLoop
  deriving DecidableEq, Repr

namespace Outline

def empty : Outline := ⟨[], none⟩

def declare (o : Outline) (kind : DeclKind) (name key : String) : Outline :=
  { o with decls := o.decls ++ [⟨kind, name, key⟩] }

/-- An outline has one loop: a later one takes the place of an earlier one. -/
def withLoop (o : Outline) (loop : GatherLoop) : Outline := { o with loop := some loop }

def slotPieces (s : Slot) : Template :=
  [.text ("    " ++ s.elementType ++ " *"), .directive (.slot s),
    .text (" [[buffer(" ++ s.index.repr ++ ")]],\n")]

def headerPieces : Template :=
  [.text "kernel void ", .directive .entryName, .text "(\n"] ++ Slot.all.flatMap slotPieces ++
    [.text ("    uint index [[thread_position_in_grid]],\n" ++
      "    uint num_threads [[threads_per_grid]])\n" ++ "\x7b\n")]

def declPieces (d : Decl) : Template :=
  [.text ("    " ++ d.kind.type ++ d.name ++ " = "), .directive (.load d.key), .text ";\n"]

def bindingLine (b : String × Expr) : String :=
  "        const int " ++ b.1 ++ " = " ++ b.2.render ++ ";\n"

def loopText (l : GatherLoop) : String :=
  let i := l.map.indexVar
  "\n    for (int " ++ i ++ " = index; " ++ i ++ " < " ++ l.limit.render ++ "; " ++ i ++
    " += num_threads) \x7b\n" ++ String.join (l.map.bindings.map bindingLine) ++
    "        " ++ l.output ++ "[" ++ i ++ "] = " ++ l.input ++ "[" ++ l.map.source.render ++ "];\n" ++
    "    \x7d\n"

def pieces (o : Outline) : Template :=
  headerPieces ++ o.decls.flatMap declPieces ++
    [.text ((o.loop.map loopText).getD "" ++ "\x7d\n")]

def text (o : Outline) : String := o.pieces.source

theorem keys_pieces (o : Outline) : o.pieces.filterMap Piece.key? = o.decls.map Decl.key := by
  have h (ds : List Decl) : (ds.flatMap declPieces).filterMap Piece.key? = ds.map Decl.key := by
    induction ds with
    | nil => rfl
    | cons d ds ih =>
      rw [List.flatMap_cons, List.filterMap_append, ih]
      rfl
  rw [pieces, List.filterMap_append, List.filterMap_append, h]
  exact List.append_nil _

end Outline

end TensorKernels
