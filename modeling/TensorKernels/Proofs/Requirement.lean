import Mathlib.Data.List.Basic

/-! A computation that checks one condition after the other succeeds if all of them hold, and fails
with the error of the first one that does not. What is known of each check in this way is known of
the checks one after the other. -/

set_option autoImplicit false

namespace TensorKernels

/-- A condition, and the error of a computation that finds that it does not hold. -/
structure Requirement (ε : Type) where
  met : Prop
  fault : ε

namespace Requirement

variable {ε α β : Type} {p q : Requirement ε} {ps qs : List (Requirement ε)}

def FirstUnmet (qs : List (Requirement ε)) (q : Requirement ε) : Prop :=
  ∃ before after, qs = before ++ q :: after ∧ (∀ p ∈ before, p.met) ∧ ¬ q.met

theorem FirstUnmet.mem (h : FirstUnmet qs q) : q ∈ qs := by
  obtain ⟨before, after, rfl, -⟩ := h
  exact List.mem_append_right _ List.mem_cons_self

theorem not_firstUnmet_nil : ¬ FirstUnmet [] q := by
  intro h
  cases h.mem

theorem firstUnmet_cons_of_met (h : p.met) : FirstUnmet (p :: qs) q ↔ FirstUnmet qs q := by
  constructor
  · rintro ⟨before, after, hsplit, hbefore, hq⟩
    cases before with
    | nil =>
      cases hsplit
      exact absurd h hq
    | cons r before =>
      cases hsplit
      exact ⟨before, after, rfl, fun s hs => hbefore s (List.mem_cons_of_mem _ hs), hq⟩
  · rintro ⟨before, after, rfl, hbefore, hq⟩
    exact ⟨p :: before, after, rfl, List.forall_mem_cons.2 ⟨h, hbefore⟩, hq⟩

theorem firstUnmet_cons_of_unmet (h : ¬ p.met) : FirstUnmet (p :: qs) q ↔ q = p := by
  constructor
  · rintro ⟨before, after, hsplit, hbefore, -⟩
    cases before with
    | nil =>
      cases hsplit
      rfl
    | cons r before =>
      cases hsplit
      exact absurd (hbefore p List.mem_cons_self) h
  · rintro rfl
    exact ⟨[], qs, rfl, List.forall_mem_nil _, h⟩

theorem FirstUnmet.append_cases (h : FirstUnmet (ps ++ qs) q) :
    FirstUnmet ps q ∨ FirstUnmet qs q := by
  induction ps with
  | nil => exact .inr h
  | cons p ps ih =>
    by_cases hp : p.met
    · rw [List.cons_append, firstUnmet_cons_of_met hp] at h
      rw [firstUnmet_cons_of_met hp]
      exact ih h
    · rw [List.cons_append, firstUnmet_cons_of_unmet hp] at h
      exact .inl ((firstUnmet_cons_of_unmet hp).2 h)

theorem FirstUnmet.exists_of_flatMap {as : List α} {f : α → List (Requirement ε)}
    (h : FirstUnmet (as.flatMap f) q) : ∃ a ∈ as, FirstUnmet (f a) q := by
  induction as with
  | nil => exact absurd h not_firstUnmet_nil
  | cons a as ih =>
    rw [List.flatMap_cons] at h
    rcases h.append_cases with ha | has
    · exact ⟨a, List.mem_cons_self, ha⟩
    · obtain ⟨b, hb, hq⟩ := ih has
      exact ⟨b, List.mem_cons_of_mem a hb, hq⟩

/-- The computation looks at the conditions in their order, and at nothing else. -/
inductive Decides : List (Requirement ε) → Except ε α → Prop
  | ok (a : α) : Decides [] (.ok a)
  | met {q : Requirement ε} {qs : List (Requirement ε)} {m : Except ε α} (h : q.met)
      (rest : Decides qs m) : Decides (q :: qs) m
  | unmet {q : Requirement ε} (h : ¬ q.met) (qs : List (Requirement ε)) :
      Decides (q :: qs) (.error q.fault)

namespace Decides

variable {m : Except ε α} {f : α → Except ε β}

theorem exists_ok_iff (h : Decides qs m) : (∃ a, m = .ok a) ↔ ∀ q ∈ qs, q.met := by
  induction h with
  | ok a => simp
  | met hq _ ih =>
    rw [ih, List.forall_mem_cons]
    exact ⟨fun hqs => ⟨hq, hqs⟩, And.right⟩
  | unmet hq qs =>
    rw [List.forall_mem_cons]
    exact ⟨nofun, fun hqs => absurd hqs.1 hq⟩

theorem eq_error_iff (h : Decides qs m) {e : ε} :
    m = .error e ↔ ∃ q, FirstUnmet qs q ∧ q.fault = e := by
  induction h with
  | ok a => simp [not_firstUnmet_nil]
  | met hq _ ih => simp only [ih, firstUnmet_cons_of_met hq]
  | unmet hq qs => simp [firstUnmet_cons_of_unmet hq]

theorem mapError_exists_ok_iff {ε' : Type} (h : Decides qs m) (g : ε → ε') :
    (∃ a, m.mapError g = .ok a) ↔ ∀ q ∈ qs, q.met := by
  rw [← h.exists_ok_iff]
  cases m <;> simp [Except.mapError]

theorem mapError_eq_error_iff {ε' : Type} (h : Decides qs m) (g : ε → ε') {e : ε'} :
    m.mapError g = .error e ↔ ∃ q, FirstUnmet qs q ∧ e = g q.fault := by
  have hm : m.mapError g = .error e ↔ ∃ cause, m = .error cause ∧ e = g cause := by
    cases m <;> simp [Except.mapError, eq_comm]
  rw [hm]
  constructor
  · rintro ⟨cause, hcause, rfl⟩
    obtain ⟨q, hq, rfl⟩ := h.eq_error_iff.1 hcause
    exact ⟨q, hq, rfl⟩
  · rintro ⟨q, hq, rfl⟩
    exact ⟨q.fault, h.eq_error_iff.2 ⟨q, hq, rfl⟩, rfl⟩

theorem ite {c : Prop} [Decidable c] {a : α} {e : ε} :
    Decides [⟨c, e⟩] (if c then .ok a else .error e) := by
  split
  · next h => exact .met h (.ok a)
  · next h => exact .unmet (q := ⟨c, e⟩) h []

/-- The second part may use what the first part has found. -/
theorem bind (h : Decides ps m) (hf : (∀ p ∈ ps, p.met) → ∀ a, m = .ok a → Decides qs (f a)) :
    Decides (ps ++ qs) (m >>= f) := by
  induction h with
  | ok a => exact hf (List.forall_mem_nil _) a rfl
  | met hp _ ih => exact .met hp (ih fun hps => hf (List.forall_mem_cons.2 ⟨hp, hps⟩))
  | unmet hp ps => exact .unmet hp (ps ++ qs)

theorem step (h : Decides [p] m) (hf : p.met → ∀ a, m = .ok a → Decides qs (f a)) :
    Decides (p :: qs) (m >>= f) :=
  h.bind fun hp => hf (hp p List.mem_cons_self)

theorem map (h : Decides qs m) (g : α → β) : Decides qs (g <$> m) := by
  induction h with
  | ok a => exact .ok (g a)
  | met hq _ ih => exact .met hq ih
  | unmet hq qs => exact .unmet hq qs

theorem of_met (a : α) (h : ∀ q ∈ qs, q.met) : Decides qs (.ok a) := by
  induction qs with
  | nil => exact .ok a
  | cons q qs ih =>
    rw [List.forall_mem_cons] at h
    exact .met h.1 (ih h.2)

theorem of_firstUnmet (h : FirstUnmet qs q) : Decides qs (.error q.fault : Except ε α) := by
  obtain ⟨before, after, rfl, hbefore, hq⟩ := h
  induction before with
  | nil => exact .unmet hq after
  | cons p before ih =>
    rw [List.forall_mem_cons] at hbefore
    exact .met hbefore.1 (ih hbefore.2)

theorem mapM {f : α → Except ε β} {conditions : α → List (Requirement ε)}
    (hf : ∀ a, Decides (conditions a) (f a)) (as : List α) :
    Decides (as.flatMap conditions) (as.mapM f) := by
  induction as with
  | nil => exact .ok []
  | cons a as ih =>
    rw [List.mapM_cons, List.flatMap_cons]
    refine (hf a).bind fun _ b _ => ?_
    rw [bind_pure_comp]
    exact ih.map (b :: ·)

/-- The conditions of a step may depend on what all earlier steps have kept, and on nothing else. -/
theorem foldlM {σ : Type} {I : σ → Prop} {step : σ → α → Except ε σ}
    {conditions : α → List (Requirement ε)} (hstep : ∀ s a, I s → Decides (conditions a) (step s a))
    (hkeep : ∀ s a s', I s → step s a = .ok s' → I s') {s : σ} (hs : I s) (as : List α) :
    Decides (as.flatMap conditions) (as.foldlM step s) := by
  induction as generalizing s with
  | nil => exact .ok s
  | cons a as ih =>
    rw [List.foldlM_cons, List.flatMap_cons]
    exact (hstep s a hs).bind fun _ s' hs' => ih (hkeep s a s' hs hs')

end Decides

end Requirement

end TensorKernels
