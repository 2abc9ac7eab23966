import TensorKernels.Configuration
import TensorKernels.Index.Gather
import TensorKernels.Kernel.Basic
import TensorKernels.Kernel.Outline
import TensorKernels.Memory
import TensorKernels.Metadata
import TensorKernels.Operator
import TensorKernels.Template

/-! A handler makes the kernels of one operator and is found by the operator's kind. All that
handlers share is the set of names given out so far, which outlives a failure. The name of a kernel
goes into its text last, when any other placeholder that is still there is an error. -/

set_option autoImplicit false

namespace TensorKernels

/-- The names given out so far, the latest first. -/
structure TakenNames where
  names : List String
  nodup : names.Nodup
  deriving DecidableEq, Repr

namespace TakenNames

def empty : TakenNames := ⟨[], by simp⟩

def size (t : TakenNames) : Nat := t.names.length

def claim (t : TakenNames) (name : String) : Except LoweringError TakenNames :=
  if h : name ∈ t.names then .error (.duplicateKernelName name)
  else .ok ⟨name :: t.names, List.nodup_cons.2 ⟨h, t.nodup⟩⟩

end TakenNames

def Operator.entryName (op : Operator) : String := op.kind.tag ++ "_" ++ op.id.toNat.repr

def resolveName (name : String) : Directive → Except LoweringError String
  | .entryName => .ok name
  | d => .error (TemplateFault.leftover d).toError

def injectName (name text : String) : Except LoweringError String := do
  let t ← Template.parse text
  t.render (resolveName name)

abbrev Lowering := ExceptT LoweringError (StateM TakenNames)

namespace Lowering

def outcome {α : Type} (l : Lowering α) (taken : TakenNames) : Except LoweringError α × TakenNames :=
  l.run taken

def ofExcept {α : Type} (e : Except LoweringError α) : Lowering α := ExceptT.mk (pure e)

def claimName (name : String) : Lowering Unit := do
  let taken ← get
  let taken ← ofExcept (taken.claim name)
  set taken

end Lowering

structure LoweringEnv where
  layout : MemoryLayout
  launch : Launch

abbrev Handler := Operator → LoweringEnv → Lowering (List Kernel)

structure Handlers where
  get? : OperatorKind → Option Handler

namespace Handlers

def empty : Handlers := ⟨fun _ => none⟩

def register (hs : Handlers) (kind : OperatorKind) (h : Handler) : Handlers :=
  ⟨fun k => if k = kind then some h else hs.get? k⟩

def contains (hs : Handlers) (kind : OperatorKind) : Bool := (hs.get? kind).isSome

theorem get?_register (hs : Handlers) (kind k : OperatorKind) (h : Handler) :
    (hs.register kind h).get? k = if k = kind then some h else hs.get? k := rfl

/-- Lowers one operator; a failure of the handler is reported together with the operator. -/
def dispatch (hs : Handlers) (op : Operator) (ctx : LoweringEnv) : Lowering (List Kernel) :=
  match hs.get? op.kind with
  | some h => (h op ctx).adapt (.lowering op.label)
  | none => throw (.missingHandler op.label)

end Handlers

def blockScalars : List String := ["r", "N", "C1", "C2", "H1", "H2", "W1", "W2"]

namespace OperatorKind

def key (kind : OperatorKind) (name : String) : String := kind.tag ++ "_" ++ name

def outline (kind : OperatorKind) (map : IndexMap) : Outline :=
  let tensors := (Outline.empty.declare .input "x" (kind.key "x")).declare .output "y" (kind.key "y")
  let scalars := blockScalars.foldl (fun o s => o.declare .int s (kind.key s)) tensors
  scalars.withLoop ⟨.var "N" * .var "H2" * .var "W2" * .var "C2", map, "y", "x"⟩

end OperatorKind

namespace Operator

def checkOrder (op : Operator) (t : Tensor) : Except LoweringError Unit :=
  if t.order = .nhwc then .ok ()
  else .error (.layoutMismatch op.label t.name Order.nhwc.toString t.order.toString)

/-- The indices of a kernel are signed integers of 32 bits. -/
def checkSize (t : Tensor) : Except LoweringError Unit :=
  if t.size ≤ maxInt32 then .ok ()
  else .error (.invalidTensor t.name (t.size.repr ++ " elements overflow 32-bit kernel indices (max " ++
    maxInt32.repr ++ ")"))

def extentValue (name : String) (t : Tensor) (a : Axis) : Except LoweringError LoadValue := do
  let d ← t.extent a
  LoadValue.extent name d

def loads (op : Operator) (layout : MemoryLayout) :
    Except LoweringError (List (String × LoadValue)) := do
  let x ← layout.lookup op.x
  let y ← layout.lookup op.y
  let r ← LoadValue.extent "r" op.block
  let n ← extentValue "N" op.x .n
  let c1 ← extentValue "C1" op.x .c
  let c2 ← extentValue "C2" op.y .c
  let h1 ← extentValue "H1" op.x .h
  let h2 ← extentValue "H2" op.y .h
  let w1 ← extentValue "W1" op.x .w
  let w2 ← extentValue "W2" op.y .w
  let key := op.kind.key
  return [(key "x", .allocation x), (key "y", .allocation y), (key "r", r), (key "N", n),
    (key "C1", c1), (key "C2", c2), (key "H1", h1), (key "H2", h2), (key "W1", w1), (key "W2", w2)]

def metadata (op : Operator) (layout : MemoryLayout) : Except LoweringError Registry := do
  op.checkOrder op.x
  op.checkOrder op.y
  checkSize op.x
  checkSize op.y
  let batch ← op.loads layout
  Registry.empty.register batch

/-- The name is taken before the text is made, and after everything else has been checked. -/
def blockKernel (op : Operator) (ctx : LoweringEnv) : Lowering (List Kernel) := do
  let registry ← .ofExcept (op.metadata ctx.layout)
  .claimName op.entryName
  let template := (op.kind.outline op.kind.indexMap).text
  let text ← .ofExcept ((Injector.mk registry []).inject template).1
  let source ← .ofExcept (injectName op.entryName text)
  return [⟨op.entryName, source, ctx.launch, registry.buffers, registry.unresolved⟩]

end Operator

namespace Handlers

def block (kind : OperatorKind) : Handler := fun op ctx =>
  if op.kind = kind then op.blockKernel ctx
  else throw (.invalidParameter "type" (kind.tag ++ " handler called with " ++ op.label))

def standard : Handlers :=
  (empty.register .depth2space (block .depth2space)).register .space2depth (block .space2depth)

end Handlers

def lowerInOrder (hs : Handlers) (ctx : LoweringEnv) : List Operator → Lowering (List Kernel)
  | [] => return []
  | op :: ops => do
    let first ← hs.dispatch op ctx
    let rest ← lowerInOrder hs ctx ops
    return first ++ rest

/-- Lowers every operator, whatever becomes of the others. -/
def lowerEach (hs : Handlers) (ctx : LoweringEnv) :
    List Operator → StateM TakenNames (List (Except LoweringError (List Kernel)))
  | [] => return []
  | op :: ops => do
    let first ← (hs.dispatch op ctx).run
    let rest ← lowerEach hs ctx ops
    return first :: rest

def collect : List (Except LoweringError (List Kernel)) → Except LoweringError (List Kernel)
  | [] => return []
  | outcome :: outcomes => do
    let first ← outcome
    let rest ← collect outcomes
    return first ++ rest

def Graph.lower (g : Graph) (layout : MemoryLayout) (hs : Handlers) (c : Configuration) :
    Except LoweringError (List Kernel) :=
  let ctx : LoweringEnv := ⟨layout, c.launch⟩
  if c.parallel then collect (lowerEach hs ctx g.operators TakenNames.empty).1
  else (lowerInOrder hs ctx g.operators |>.outcome TakenNames.empty).1

structure Backend where
  name : String
  handlers : Handlers
  configuration : Configuration

namespace Backend

def metal (hs : Handlers) (c : Configuration) : Backend := ⟨"metal", hs, c⟩

def lower (b : Backend) (g : Graph) (layout : MemoryLayout) : Except LoweringError (List Kernel) :=
  g.lower layout b.handlers b.configuration

def targets : List String := ["metal", "msl", "webgpu"]

def ofTarget? (target : String) (c : Configuration) : Option Backend :=
  if target ∈ targets then some (metal .standard c) else none

theorem mem_targets_iff {target : String} :
    target ∈ targets ↔ target ∈ Configuration.targets := by
  simp only [targets, Configuration.targets]

theorem ofTarget?_eq_some {target : String} (h : target ∈ Configuration.targets)
    (c : Configuration) : ofTarget? target c = some (metal .standard c) :=
  if_pos (mem_targets_iff.2 h)

theorem ofTarget?_eq_none {target : String} (h : target ∉ Configuration.targets)
    (c : Configuration) : ofTarget? target c = none :=
  if_neg fun hmem => h (mem_targets_iff.1 hmem)

end Backend

end TensorKernels
