import TensorKernels.Proofs.Kernel.OutlineText

set_option autoImplicit false

namespace TensorKernels

namespace Template

end Template

open Template

instance : DecidablePred GatherLoop.WellNamed := fun l =>
  decidable_of_iff
    (l.limit.Names Undelimited ∧ Undelimited l.map.indexVar ∧
      (∀ b ∈ l.map.bindings, Undelimited b.1 ∧ b.2.Names Undelimited) ∧
      l.map.source.Names Undelimited ∧ Undelimited l.output ∧ Undelimited l.input)
    ⟨fun ⟨hl, hi, hb, hs, ho, hx⟩ => ⟨hl, hi, hb, hs, ho, hx⟩,
      fun ⟨hl, hi, hb, hs, ho, hx⟩ => ⟨hl, hi, hb, hs, ho, hx⟩⟩

namespace Outline

inductive Call
  | declare (d : Decl)
  | loop (l : GatherLoop)
  deriving DecidableEq, Repr

namespace Call

def apply (o : Outline) : Call → Outline
  | declare d => o.declare d.kind d.name d.key
  | loop l => o.withLoop l

def decl? : Call → Option Decl
  | declare d => some d
  | loop _ => none

def loop? : Call → Option GatherLoop
  | declare _ => none
  | loop l => some l

/-- A name may hold percent signs, but no two of them in a row. -/
def WellNamed : Call → Prop
  | declare d => Undelimited d.name ∧ d.key ≠ "" ∧ ∀ c ∈ d.key.toList, c.isAlphanum ∨ c = '_'
  | loop l => l.WellNamed

instance : DecidablePred WellNamed
  | declare d =>
    -- only the characters of the key are looked at, not all there are
    haveI := List.decidableBAll (fun c : Char => c.isAlphanum ∨ c = '_') d.key.toList
    inferInstanceAs
      (Decidable (Undelimited d.name ∧ d.key ≠ "" ∧ ∀ c ∈ d.key.toList, c.isAlphanum ∨ c = '_'))
  | loop l => inferInstanceAs (Decidable l.WellNamed)

end Call

def declared (calls : List Call) : List Decl := calls.filterMap Call.decl?

def loops (calls : List Call) : List GatherLoop := calls.filterMap Call.loop?

end Outline

end TensorKernels
