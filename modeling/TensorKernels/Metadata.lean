import TensorKernels.Kernel.Basic
import TensorKernels.Memory
import TensorKernels.Template
import TensorKernels.Word

/-! The values that a kernel loads, in the order in which they were registered. A value that is not
known when code is generated takes the next metadata cell. The cells, the values left for the loader
and the load expressions are all read off the list of entries. -/

set_option autoImplicit false

namespace TensorKernels

/-- What a kernel can load under a key. A float is given by its bits. -/
inductive LoadValue
  | allocation (a : Allocation)
  | int (v : Int32)
  | float (bits : UInt32)
  | deferred (label : String)
  deriving DecidableEq, Repr

namespace LoadValue

def extent (name : String) (v : UInt32) : Except LoweringError LoadValue :=
  if v.toNat ≤ maxInt32 then .ok (.int v.toInt32)
  else .error (.invalidParameter name (v.toNat.repr ++ " exceeds the 32-bit metadata cell"))

/-- Only a place in the static segment that is known beforehand needs no cell. -/
def needsCell : LoadValue → Bool
  | allocation ⟨.static, .fixed _, _⟩ => false
  | _ => true

def cell : LoadValue → Cell
  | allocation ⟨_, .fixed elements, _⟩ => elements
  | allocation ⟨_, .deferred _, _⟩ => 0
  | int v => Cell.ofInt32 v
  | float bits => bits
  | deferred _ => 0

def label? : LoadValue → Option String
  | allocation ⟨_, .deferred label, _⟩ => some label
  | deferred label => some label
  | _ => none

def cellOffset? : LoadValue → Option UInt32
  | allocation ⟨.dynamic, .fixed elements, _⟩ => some elements
  | _ => none

def cellText (cell : Nat) : String := Slot.metadata.ident ++ "[" ++ cell.repr ++ "]"

def segmentIdent : Segment → String
  | .static => Slot.static.ident
  | .dynamic => Slot.dynamic.ident

def loadText (cell : Nat) : LoadValue → String
  | allocation ⟨.static, .fixed elements, _⟩ =>
    "(" ++ Slot.static.ident ++ " + " ++ elements.toNat.repr ++ ")"
  | allocation a => "(" ++ segmentIdent a.segment ++ " + " ++ cellText cell ++ ")"
  | float _ => "as_type<float>(" ++ cellText cell ++ ")"
  | int _ | deferred _ => cellText cell

theorem label?_eq_none_of_not_needsCell {v : LoadValue} (h : v.needsCell = false) :
    v.label? = none := by
  cases v with
  | allocation a =>
    obtain ⟨s, o, n⟩ := a
    cases s <;> cases o <;> simp_all [needsCell, label?]
  | _ => simp_all [needsCell]

end LoadValue

structure Placed where
  key : String
  value : LoadValue
  cell : Nat
  deriving DecidableEq, Repr

namespace Placed

def cell? (p : Placed) : Option Nat := if p.value.needsCell then some p.cell else none

def loadText (p : Placed) : String := p.value.loadText p.cell

def unresolved? (p : Placed) : Option Unresolved :=
  p.value.label?.map fun label => ⟨p.cell, p.cell * Cell.width, p.key, label⟩

end Placed

structure Registry where
  entries : List (String × LoadValue)
  nodup_keys : (entries.map Prod.fst).Nodup
  deriving DecidableEq, Repr

namespace Registry

def empty : Registry := ⟨[], by simp⟩

def keys (r : Registry) : List String := r.entries.map Prod.fst

def placeFrom (next : Nat) : List (String × LoadValue) → List Placed
  | [] => []
  | (key, value) :: rest =>
    ⟨key, value, next⟩ :: placeFrom (if value.needsCell then next + 1 else next) rest

def placed (r : Registry) : List Placed := placeFrom 0 r.entries

def cells (r : Registry) : Cells :=
  (r.entries.filter fun e => e.2.needsCell).map fun e => e.2.cell

def unresolved (r : Registry) : List Unresolved := r.placed.filterMap Placed.unresolved?

def find? (r : Registry) (key : String) : Option Placed := r.placed.find? (·.key = key)

def cellOf? (r : Registry) (key : String) : Option Nat := (r.find? key).bind Placed.cell?

def buffers (r : Registry) : List Buffer := [.static, .dynamic, .metadata r.cells]

/-- The first dynamic offset of the batch that no cell can hold, as an error. -/
def checkOffsets : List (String × LoadValue) → Except LoweringError Unit
  | [] => .ok ()
  | (key, value) :: rest =>
    match value.cellOffset? with
    | some elements =>
      if elements.toNat ≤ maxInt32 then checkOffsets rest
      else .error (.invalidParameter key ("offset " ++ elements.toNat.repr ++
        " exceeds the 32-bit metadata cell"))
    | none => checkOffsets rest

/-- Registers a whole batch or nothing. Repeated keys are looked for before offsets. -/
def register (r : Registry) (batch : List (String × LoadValue)) : Except LoweringError Registry :=
  match h : Text.firstRepeat? r.keys (batch.map Prod.fst) with
  | some key => .error (.duplicateKey key)
  | none => do
    checkOffsets batch
    return ⟨r.entries ++ batch, by
      have hb := Text.firstRepeat?_eq_none.1 h
      rw [List.map_append, List.nodup_append]
      exact ⟨r.nodup_keys, hb.1, fun a ha b hb' e => hb.2 b hb' (e ▸ ha)⟩⟩

theorem entries_register {r s : Registry} {batch : List (String × LoadValue)}
    (h : r.register batch = .ok s) : s.entries = r.entries ++ batch := by
  unfold register at h
  split at h
  · simp at h
  · cases hc : checkOffsets batch with
    | error e => simp [hc, bind, Except.bind] at h
    | ok u =>
      simp only [hc, bind, Except.bind, pure, Except.pure, Except.ok.injEq] at h
      rw [← h]

end Registry

def Registry.load (r : Registry) (key : String) : Except LoweringError String :=
  match r.find? key with
  | some p => .ok p.loadText
  | none => .error (.unknownPlaceholder key)

def Registry.resolve (r : Registry) : Directive → Except LoweringError String
  | .entryName => .ok Directive.entryName.display
  | .slot s => .ok s.ident
  | .load key => r.load key

def unusedWarning (key : String) : Diagnostic :=
  .warning ("metadata key '" ++ key ++ "' is never loaded by the kernel") .dummy

structure Injector where
  registry : Registry
  warnings : List Diagnostic
  deriving Repr

namespace Injector

def empty : Injector := ⟨.empty, []⟩

/-- A registration that fails changes nothing. -/
def register (s : Injector) (batch : List (String × LoadValue)) :
    Except LoweringError Unit × Injector :=
  match s.registry.register batch with
  | .ok r => (.ok (), { s with registry := r })
  | .error e => (.error e, s)

/-- Injects into a template text. The warnings are those of this call if the text is a template;
a text that is none leaves the earlier warnings. -/
def inject (s : Injector) (text : String) : Except LoweringError String × Injector :=
  match Template.parse text with
  | .error e => (.error e, s)
  | .ok t =>
    match t.render s.registry.resolve with
    | .error e => (.error e, { s with warnings := [] })
    | .ok source =>
      let unused := s.registry.keys.filter (· ∉ t.loadKeys)
      (.ok source, { s with warnings := unused.map unusedWarning })

@[simp] theorem registry_inject (s : Injector) (text : String) :
    (s.inject text).2.registry = s.registry := by
  unfold inject
  split
  · rfl
  · split <;> rfl

end Injector

end TensorKernels
