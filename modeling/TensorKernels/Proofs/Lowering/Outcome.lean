import TensorKernels.Lowering
import TensorKernels.Operator
import TensorKernels.Proofs.Fallible

set_option autoImplicit false

namespace TensorKernels

theorem repr_injective {m n : Nat} (h : m.repr = n.repr) : m = n := by
  have hdigits : Nat.toDigits 10 m = Nat.toDigits 10 n := by
    simpa using congrArg String.toList h
  have hvalue := congrArg (fun ds => Nat.ofDigitChars 10 ds 0) hdigits
  simpa only [Nat.ofDigitChars_ten_toDigits] using hvalue

namespace Operator

theorem length_tag (kind : OperatorKind) : kind.tag.toList.length = 11 := by
  cases kind <;> decide

theorem toList_entryName (op : Operator) :
    op.entryName.toList = op.kind.tag.toList ++ ('_' :: op.id.toNat.repr.toList) := by
  simp [entryName]

theorem entryName_injective {op op' : Operator} (h : op.entryName = op'.entryName) :
    op.kind = op'.kind ∧ op.id = op'.id := by
  have hlist := congrArg String.toList h
  rw [toList_entryName, toList_entryName] at hlist
  have hlength : op.kind.tag.toList.length = op'.kind.tag.toList.length := by
    rw [length_tag, length_tag]
  obtain ⟨htag, hid⟩ := List.append_inj hlist hlength
  rw [List.cons.injEq] at hid
  refine ⟨OperatorKind.tag_injective (String.toList_injective htag), ?_⟩
  exact UInt32.toNat_inj.1 (repr_injective (String.toList_injective hid.2))

theorem nodup_entryName {ops : List Operator} (h : (ops.map Operator.id).Nodup) :
    (ops.map Operator.entryName).Nodup := by
  rw [List.nodup_iff_pairwise_ne, List.pairwise_map] at h ⊢
  exact h.imp fun hne e => hne (entryName_injective e).2

end Operator

namespace TakenNames

theorem claim_fresh {t : TakenNames} {name : String} (h : name ∉ t.names) :
    ∃ t', t.claim name = .ok t' ∧ t'.names = name :: t.names := by
  rw [claim, dif_neg h]
  exact ⟨_, rfl, rfl⟩

theorem claim_taken {t : TakenNames} {name : String} (h : name ∈ t.names) :
    t.claim name = .error (.duplicateKernelName name) := dif_pos h

end TakenNames

namespace Lowering

variable {α β : Type} {l : Lowering α} {f : α → Lowering β} {taken taken' : TakenNames}

theorem outcome_bind_ok {a : α} (h : l.outcome taken = (.ok a, taken')) :
    (l >>= f).outcome taken = (f a).outcome taken' := by
  change (ExceptT.bindCont f (l taken).1) (l taken).2 = _
  rw [show l taken = (.ok a, taken') from h]
  rfl

theorem outcome_bind_error {e : LoweringError} (h : l.outcome taken = (.error e, taken')) :
    (l >>= f).outcome taken = (.error e, taken') := by
  change (ExceptT.bindCont f (l taken).1) (l taken).2 = _
  rw [show l taken = (.error e, taken') from h]
  rfl

theorem outcome_ofExcept {e o : Except LoweringError α} (h : e = o) :
    (ofExcept e).outcome taken = (o, taken) := by
  rw [h]
  rfl

theorem outcome_get : (get : Lowering TakenNames).outcome taken = (.ok taken, taken) := rfl

theorem outcome_claimName_ok {name : String} (h : taken.claim name = .ok taken') :
    (claimName name).outcome taken = (.ok (), taken') := by
  unfold claimName
  rw [outcome_bind_ok outcome_get, outcome_bind_ok (outcome_ofExcept h)]
  rfl

theorem outcome_claimName_error {name : String} {e : LoweringError}
    (h : taken.claim name = .error e) : (claimName name).outcome taken = (.error e, taken) := by
  unfold claimName
  rw [outcome_bind_ok outcome_get, outcome_bind_error (outcome_ofExcept h)]

theorem outcome_adapt (g : LoweringError → LoweringError) :
    outcome (l.adapt g) taken = ((l.outcome taken).1.mapError g, (l.outcome taken).2) := rfl

end Lowering

end TensorKernels
