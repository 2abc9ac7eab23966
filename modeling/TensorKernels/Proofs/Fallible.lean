import Mathlib.Data.List.Forall2
import Mathlib.Data.List.Nodup
import TensorKernels.LoweringError

set_option autoImplicit false

namespace TensorKernels

theorem exists_ok_of_isOk {ε α : Type} {m : Except ε α} (h : m.isOk = true) : ∃ a, m = .ok a := by
  cases m with
  | error e => cases h
  | ok a => exact ⟨a, rfl⟩

theorem eq_ok_of_toOption {ε α : Type} {m : Except ε α} {a : α} (h : m.toOption = some a) :
    m = .ok a := by
  cases m with
  | error e => cases h
  | ok b =>
    cases h
    rfl

/-- If the computation fails, its error has `P`. -/
def FailsWith {ε α : Type} (P : ε → Prop) (m : Except ε α) : Prop := ∀ e, m = .error e → P e

namespace FailsWith

variable {ε α β : Type} {P : ε → Prop}

theorem ok (a : α) : FailsWith P (.ok a) := by
  intro e h
  cases h

theorem error {e : ε} (h : P e) : FailsWith P (.error e : Except ε α) := by
  intro e' he
  cases he
  exact h

theorem ite {c : Prop} [Decidable c] {a : α} {e : ε} (h : P e) :
    FailsWith P (if c then .ok a else .error e) := by
  split
  · exact ok a
  · exact error h

theorem bind {m : Except ε α} {f : α → Except ε β} (hm : FailsWith P m)
    (hf : ∀ a, FailsWith P (f a)) : FailsWith P (m >>= f) := by
  cases m with
  | error e => exact error (hm e rfl)
  | ok a => exact hf a

theorem mapM {f : α → Except ε β} (hf : ∀ a, FailsWith P (f a)) (as : List α) :
    FailsWith P (as.mapM f) := by
  induction as with
  | nil => exact ok []
  | cons a as ih =>
    rw [List.mapM_cons]
    exact (hf a).bind fun _ => ih.bind fun _ => ok _

end FailsWith

theorem invariant_foldlM {ε σ α : Type} {I : σ → Prop} {step : σ → α → Except ε σ}
    (hstep : ∀ s a s', I s → step s a = .ok s' → I s') {as : List α} {s s' : σ} (hs : I s)
    (h : as.foldlM step s = .ok s') : I s' := by
  induction as generalizing s with
  | nil =>
    cases h
    exact hs
  | cons a as ih =>
    rw [List.foldlM_cons] at h
    obtain ⟨next, hnext, hrest⟩ := bind_eq_ok h
    exact ih (hstep s a next hs hnext) hrest

/-- Two computations fail with one error, or both succeed and their results are related. -/
inductive Corresponds {ε α β : Type} (R : α → β → Prop) : Except ε α → Except ε β → Prop
  | error (e : ε) : Corresponds R (.error e) (.error e)
  | ok {a : α} {b : β} : R a b → Corresponds R (.ok a) (.ok b)

namespace Corresponds

variable {ε α β γ δ : Type}

theorem refl (m : Except ε α) : Corresponds Eq m m := by
  cases m with
  | error e => exact .error e
  | ok a => exact .ok rfl

theorem bind {R : α → β → Prop} {S : γ → δ → Prop} {m : Except ε α} {n : Except ε β}
    {f : α → Except ε γ} {g : β → Except ε δ} (h : Corresponds R m n)
    (hfg : ∀ a b, R a b → Corresponds S (f a) (g b)) : Corresponds S (m >>= f) (n >>= g) := by
  cases h with
  | error e => exact .error e
  | ok hab => exact hfg _ _ hab

theorem exists_ok_iff {R : α → β → Prop} {m : Except ε α} {n : Except ε β}
    (h : Corresponds R m n) : (∃ a, m = .ok a) ↔ ∃ b, n = .ok b := by
  cases h with
  | error e => simp
  | ok hab => simp

end Corresponds

theorem mapM_congr {ε α β : Type} {f g : α → Except ε β} {as : List α}
    (h : ∀ a ∈ as, f a = g a) : as.mapM f = as.mapM g := by
  induction as with
  | nil => rfl
  | cons a as ih =>
    rw [List.forall_mem_cons] at h
    rw [List.mapM_cons, List.mapM_cons, h.1, ih h.2]

theorem foldlM_congr {ε σ α : Type} {f g : σ → α → Except ε σ} {as : List α}
    (h : ∀ a ∈ as, ∀ s, f s a = g s a) (s : σ) : as.foldlM f s = as.foldlM g s := by
  induction as generalizing s with
  | nil => rfl
  | cons a as ih =>
    rw [List.forall_mem_cons] at h
    rw [List.foldlM_cons, List.foldlM_cons, h.1 s]
    exact congrArg _ (funext fun s' => ih h.2 s')

theorem mapM_eq_some_iff {α β : Type} {f : α → Option β} {as : List α} {bs : List β} :
    as.mapM f = some bs ↔ as.map f = bs.map some := by
  induction as generalizing bs with
  | nil => cases bs <;> simp
  | cons a as ih =>
    rw [List.mapM_cons, List.map_cons]
    cases ha : f a with
    | none => cases bs <;> simp
    | some b =>
      cases bs with
      | nil => cases h : as.mapM f <;> simp
      | cons c cs =>
        rw [List.map_cons, List.cons.injEq, ← ih, Option.some_inj]
        cases h : as.mapM f <;> simp

theorem mapM_eq_ok_iff {ε α β : Type} {f : α → Except ε β} {as : List α} {bs : List β} :
    as.mapM f = .ok bs ↔ as.map f = bs.map .ok := by
  induction as generalizing bs with
  | nil =>
    constructor
    · intro h
      cases h
      rfl
    · intro h
      rw [List.map_eq_nil_iff.1 h.symm]
      rfl
  | cons a as ih =>
    rw [List.mapM_cons]
    constructor
    · intro h
      obtain ⟨b, hb, h⟩ := bind_eq_ok h
      obtain ⟨rest, hrest, h⟩ := bind_eq_ok h
      cases h
      rw [List.map_cons, List.map_cons, hb, ih.1 hrest]
    · intro h
      obtain ⟨b, rest, rfl, hb, hrest⟩ := List.map_eq_cons_iff.1 h.symm
      rw [← hb, ih.2 hrest.symm]
      rfl

theorem mapM_eq_ok_iff_forall₂ {ε α β : Type} {f : α → Except ε β} {as : List α} {bs : List β} :
    as.mapM f = .ok bs ↔ List.Forall₂ (fun a b => f a = .ok b) as bs := by
  rw [mapM_eq_ok_iff, ← List.forall₂_eq_eq_eq, List.forall₂_map_left_iff,
    List.forall₂_map_right_iff]

theorem exists_of_mem_left {α β : Type} {R : α → β → Prop} {as : List α} {bs : List β}
    (h : List.Forall₂ R as bs) {a : α} (ha : a ∈ as) : ∃ b ∈ bs, R a b := by
  induction h with
  | nil => cases ha
  | cons hab _ ih =>
    rcases List.mem_cons.1 ha with rfl | ha
    · exact ⟨_, List.mem_cons_self, hab⟩
    · obtain ⟨b, hb, hr⟩ := ih ha
      exact ⟨b, List.mem_cons_of_mem _ hb, hr⟩

theorem exists_of_mem_right {α β : Type} {R : α → β → Prop} {as : List α} {bs : List β}
    (h : List.Forall₂ R as bs) {b : β} (hb : b ∈ bs) : ∃ a ∈ as, R a b :=
  exists_of_mem_left h.flip hb

theorem forall₂_imp_of_mem {α β : Type} {R S : α → β → Prop} {as : List α} {bs : List β}
    (h : List.Forall₂ R as bs) (himp : ∀ a ∈ as, ∀ b ∈ bs, R a b → S a b) :
    List.Forall₂ S as bs := by
  refine List.forall₂_iff_zip.2 ⟨h.length_eq, fun {a b} hmem => ?_⟩
  obtain ⟨ha, hb⟩ := List.of_mem_zip hmem
  exact himp a ha b hb (List.forall₂_zip h hmem)

/-- Where no two members have one key, the first member with a key is the only one. -/
theorem find?_eq_some_of_nodup {α : Type} {key : α → String} {as : List α} {a : α}
    (hn : (as.map key).Nodup) (ha : a ∈ as) : as.find? (fun b => key b = key a) = some a := by
  cases h : as.find? (fun b => key b = key a) with
  | none =>
    rw [List.find?_eq_none] at h
    simpa using h a ha
  | some b =>
    have hb : b ∈ as := List.mem_of_find?_eq_some h
    have hkey : key b = key a := by simpa using List.find?_some h
    exact congrArg some (List.inj_on_of_nodup_map hn hb ha hkey)

end TensorKernels
