import TensorKernels.Json.Value
import TensorKernels.Table
import TensorKernels.Tensor
import TensorKernels.Word

set_option autoImplicit false

namespace TensorKernels

inductive Segment
  | static
  | dynamic
  deriving DecidableEq, Repr

def Segment.name : Segment → String
  | .static => "static"
  | .dynamic => "dynamic"

/-- In elements from the start of the segment. -/
inductive Offset
  | fixed (elements : UInt32)
  | deferred (label : String)
  deriving DecidableEq, Repr

structure Allocation where
  segment : Segment
  offset : Offset
  size : UInt32
  deriving DecidableEq, Repr

abbrev MemoryLayout := Table Allocation

def MemoryLayout.lookup (layout : MemoryLayout) (t : Tensor) : Except LoweringError Allocation :=
  match layout.get? t.name with
  | some a => .ok a
  | none => .error (.missingLayout t.name)

theorem MemoryLayout.exists_mem_of_lookup {layout : MemoryLayout} {t : Tensor} {a : Allocation}
    (h : layout.lookup t = .ok a) : ∃ e ∈ layout.entries, e.2 = a := by
  unfold lookup at h
  split at h
  · next he =>
    cases h
    exact Table.exists_mem_of_get? he
  · cases h

def labelJson (label : String) : Json := .obj [("label", .str label)]

def Offset.toJson : Offset → Json
  | .fixed elements => .nat elements.toNat
  | .deferred label => labelJson label

def Allocation.toJson (a : Allocation) : Json :=
  .obj [("segment", .str a.segment.name), ("offset", a.offset.toJson), ("size", .nat a.size.toNat)]

namespace Allocation

/-- A label of the dynamic segment gives way to the offset that it is bound to. -/
def settle (b : Bindings) : Allocation → Allocation
  | ⟨.dynamic, .deferred label, size⟩ =>
    match b.get? label with
    | some v => ⟨.dynamic, .fixed (.ofNat v.toNat), size⟩
    | none => ⟨.dynamic, .deferred label, size⟩
  | a => a

/-- If the place is a label of the dynamic segment, it is bound to an offset that a cell holds. -/
def BoundBy (b : Bindings) (a : Allocation) : Prop :=
  ∀ label size, a = ⟨.dynamic, .deferred label, size⟩ →
    ∃ n ≤ maxInt32, b.get? label = some (n : Int)

theorem settle_eq_or (b : Bindings) {a : Allocation} (h : a.BoundBy b) :
    a.settle b = a ∨ ∃ label size n, n ≤ maxInt32 ∧ b.get? label = some (n : Int) ∧
      a = ⟨.dynamic, .deferred label, size⟩ ∧
        a.settle b = ⟨.dynamic, .fixed (.ofNat n), size⟩ := by
  obtain ⟨segment, offset, size⟩ := a
  cases segment with
  | static => exact .inl rfl
  | dynamic =>
    cases offset with
    | fixed elements => exact .inl rfl
    | deferred label =>
      obtain ⟨n, hn, hb⟩ := h label size rfl
      exact .inr ⟨label, size, n, hn, hb, rfl, by simp only [settle, hb, Int.toNat_natCast]⟩

end Allocation

namespace MemoryLayout

def settle (layout : MemoryLayout) (b : Bindings) : MemoryLayout := layout.map (Allocation.settle b)

def BoundBy (b : Bindings) (layout : MemoryLayout) : Prop := ∀ e ∈ layout.entries, e.2.BoundBy b

theorem lookup_settle (layout : MemoryLayout) (b : Bindings) (t : Tensor) :
    (layout.settle b).lookup t = (layout.lookup t).map (Allocation.settle b) := by
  unfold lookup settle
  rw [Table.get?_map]
  cases layout.get? t.name <;> rfl

theorem BoundBy.of_lookup {b : Bindings} {layout : MemoryLayout} {t : Tensor} {a : Allocation}
    (h : layout.BoundBy b) (ha : layout.lookup t = .ok a) : a.BoundBy b := by
  obtain ⟨e, he, rfl⟩ := exists_mem_of_lookup ha
  exact h e he

end MemoryLayout

end TensorKernels
