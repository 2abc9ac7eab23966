import TensorKernels.Proofs.Metadata.Cells

set_option autoImplicit false

namespace TensorKernels

abbrev Batch := List (String × LoadValue)

namespace Registry

variable {r s t : Registry} {batch next : Batch} {e : LoweringError}

theorem eq_of_entries_eq (h : r.entries = s.entries) : r = s := by
  obtain ⟨es, _⟩ := r
  obtain ⟨fs, _⟩ := s
  exact Registry.mk.injEq .. |>.mpr h

def Repeats (r : Registry) (batch : Batch) : Prop :=
  ¬ (batch.map Prod.fst).Nodup ∨ ∃ key ∈ batch.map Prod.fst, key ∈ r.keys

/-- The batch has a place in the dynamic segment whose offset no cell holds. -/
def Overflows (batch : Batch) : Prop := ∃ key elements size,
  (key, .allocation ⟨.dynamic, .fixed elements, size⟩) ∈ batch ∧ maxInt32 < elements.toNat

theorem firstRepeat?_eq_none_iff :
    Text.firstRepeat? r.keys (batch.map Prod.fst) = none ↔ ¬ r.Repeats batch := by
  rw [Text.firstRepeat?_eq_none, Repeats, not_or, Decidable.not_not, not_exists]
  simp only [not_and]

theorem overflows_iff : Overflows batch ↔
    ∃ p ∈ batch, ∃ elements, p.2.cellOffset? = some elements ∧ maxInt32 < elements.toNat := by
  simp only [LoadValue.cellOffset?_eq_some]
  constructor
  · rintro ⟨key, elements, size, hmem, hlarge⟩
    exact ⟨_, hmem, elements, ⟨size, rfl⟩, hlarge⟩
  · rintro ⟨⟨key, value⟩, hmem, elements, ⟨size, rfl⟩, hlarge⟩
    exact ⟨key, elements, size, hmem, hlarge⟩

theorem not_overflows_nil : ¬ Overflows [] := by simp [Overflows]

theorem not_overflows_cons {p : String × LoadValue}
    (hp : ∀ elements, p.2.cellOffset? = some elements → elements.toNat ≤ maxInt32)
    (hb : ¬ Overflows batch) : ¬ Overflows (p :: batch) := by
  rw [overflows_iff] at hb ⊢
  rintro ⟨q, hq, elements, he, hlarge⟩
  rcases List.mem_cons.1 hq with rfl | hq
  · exact absurd (hp elements he) (Nat.not_le.2 hlarge)
  · exact hb ⟨q, hq, elements, he, hlarge⟩

/-- What a refused batch is refused for: the first repeated key of it, or, when there is none, the
first offset that is too large. -/
inductive Refuses (r : Registry) (batch : Batch) : LoweringError → Prop
  | repeated {before after : Batch} {key : String} {value : LoadValue}
      (split : batch = before ++ (key, value) :: after)
      (taken : key ∈ r.keys ∨ key ∈ before.map Prod.fst) (first : ¬ r.Repeats before) :
      Refuses r batch (.duplicateKey key)
  | overflow {before after : Batch} {key : String} {elements size : UInt32}
      (distinct : ¬ r.Repeats batch)
      (split : batch = before ++ (key, .allocation ⟨.dynamic, .fixed elements, size⟩) :: after)
      (large : maxInt32 < elements.toNat) (first : ¬ Overflows before) :
      Refuses r batch (.invalidParameter key
        ("offset " ++ elements.toNat.repr ++ " exceeds the 32-bit metadata cell"))

theorem checkOffsets_cons_error {key : String} {value : LoadValue}
    (h : checkOffsets ((key, value) :: batch) = .error e) :
    (∃ elements size, value = .allocation ⟨.dynamic, .fixed elements, size⟩ ∧
      maxInt32 < elements.toNat ∧ e = .invalidParameter key
        ("offset " ++ elements.toNat.repr ++ " exceeds the 32-bit metadata cell")) ∨
    (∀ elements, value.cellOffset? = some elements → elements.toNat ≤ maxInt32) ∧
      checkOffsets batch = .error e := by
  rw [checkOffsets] at h
  cases hv : value.cellOffset? with
  | none =>
    rw [hv] at h
    exact .inr ⟨fun _ he => (by cases he), h⟩
  | some elements =>
    obtain ⟨size, rfl⟩ := LoadValue.cellOffset?_eq_some.1 hv
    simp only [hv] at h
    split at h
    · next hle =>
      refine .inr ⟨fun _ he => ?_, h⟩
      rw [← Option.some_inj.1 he]
      exact hle
    · next hlarge =>
      cases h
      exact .inl ⟨elements, size, rfl, Nat.not_le.1 hlarge, rfl⟩

theorem exists_overflow_of_checkOffsets (h : checkOffsets batch = .error e) :
    ∃ before after key elements size,
      batch = before ++ (key, .allocation ⟨.dynamic, .fixed elements, size⟩) :: after ∧
      maxInt32 < elements.toNat ∧ ¬ Overflows before ∧
      e = .invalidParameter key
        ("offset " ++ elements.toNat.repr ++ " exceeds the 32-bit metadata cell") := by
  induction batch with
  | nil => cases h
  | cons p batch ih =>
    rcases checkOffsets_cons_error h with ⟨elements, size, hv, hlarge, he⟩ | ⟨hfit, hrest⟩
    · exact ⟨[], batch, p.1, elements, size, by rw [← hv]; rfl, hlarge, not_overflows_nil, he⟩
    · obtain ⟨before, after, key, elements, size, rfl, hlarge, hfirst, he⟩ := ih hrest
      exact ⟨p :: before, after, key, elements, size, rfl, hlarge,
        not_overflows_cons hfit hfirst, he⟩

theorem checkOffsets_eq_ok_iff : checkOffsets batch = .ok () ↔ ¬ Overflows batch := by
  constructor
  · intro h hover
    obtain ⟨p, hp, elements, he, hlarge⟩ := overflows_iff.1 hover
    exact absurd (le_of_checkOffsets h p hp elements he) (Nat.not_le.2 hlarge)
  · intro h
    cases hc : checkOffsets batch with
    | ok u => rfl
    | error e =>
      obtain ⟨before, after, key, elements, size, rfl, hlarge, -⟩ :=
        exists_overflow_of_checkOffsets hc
      exact absurd ⟨key, elements, size, by simp, hlarge⟩ h

theorem refuses_of_register (h : r.register batch = .error e) : r.Refuses batch e := by
  unfold register at h
  split at h
  · next key hkey =>
    cases h
    obtain ⟨keys, rest, hsplit, htaken, hnone⟩ := Text.firstRepeat?_eq_some hkey
    obtain ⟨before, after, rfl, rfl, hafter⟩ := List.map_eq_append_iff.1 hsplit
    obtain ⟨⟨_, value⟩, after, rfl, rfl, rfl⟩ := List.map_eq_cons_iff.1 hafter
    exact .repeated rfl htaken (firstRepeat?_eq_none_iff.1 hnone)
  · next hnone =>
    cases hc : checkOffsets batch with
    | ok u => rw [hc] at h; cases h
    | error e =>
      rw [hc] at h
      cases h
      obtain ⟨before, after, key, elements, size, hsplit, hlarge, hfirst, rfl⟩ :=
        exists_overflow_of_checkOffsets hc
      exact .overflow (firstRepeat?_eq_none_iff.1 hnone) hsplit hlarge hfirst

theorem register_eq_ok_iff : r.register batch = .ok s ↔
    ¬ r.Repeats batch ∧ ¬ Overflows batch ∧ s.entries = r.entries ++ batch := by
  constructor
  · intro h
    refine ⟨fun hr => ?_, checkOffsets_eq_ok_iff.1 (checkOffsets_of_register h), entries_register h⟩
    unfold register at h
    split at h
    · cases h
    · next hnone => exact firstRepeat?_eq_none_iff.1 hnone hr
  · rintro ⟨hr, ho, he⟩
    have hnone := firstRepeat?_eq_none_iff.2 hr
    unfold register
    split
    · next key hkey => rw [hkey] at hnone; cases hnone
    · rw [checkOffsets_eq_ok_iff.2 ho]
      exact congrArg Except.ok (eq_of_entries_eq he.symm)

theorem not_repeats_iff : ¬ r.Repeats batch ↔ (r.keys ++ batch.map Prod.fst).Nodup := by
  rw [Repeats, not_or, Decidable.not_not, not_exists, List.nodup_append']
  simp only [not_and]
  constructor
  · rintro ⟨hbatch, hfresh⟩
    exact ⟨r.nodup_keys, hbatch, fun key hr hb => hfresh key hb hr⟩
  · rintro ⟨-, hbatch, hdisjoint⟩
    exact ⟨hbatch, fun key hb hr => hdisjoint hr hb⟩

def extended (r : Registry) (batch : Batch) (h : ¬ r.Repeats batch) : Registry :=
  ⟨r.entries ++ batch, by
    rw [List.map_append]
    exact not_repeats_iff.1 h⟩

theorem overflows_append : Overflows (batch ++ next) ↔ Overflows batch ∨ Overflows next := by
  simp only [overflows_iff, List.mem_append, or_and_right, exists_or]

theorem register_eq_extended (hr : ¬ r.Repeats batch) (ho : ¬ Overflows batch) :
    r.register batch = .ok (r.extended batch hr) :=
  register_eq_ok_iff.2 ⟨hr, ho, rfl⟩

theorem register_fails_iff :
    (∃ e, r.register batch = .error e) ↔ r.Repeats batch ∨ Overflows batch := by
  constructor
  · rintro ⟨e, h⟩
    by_contra hno
    rw [not_or] at hno
    rw [register_eq_extended hno.1 hno.2] at h
    cases h
  · intro hbad
    cases h : r.register batch with
    | error e => exact ⟨e, rfl⟩
    | ok s =>
      obtain ⟨hr, ho, -⟩ := register_eq_ok_iff.1 h
      exact absurd hbad (not_or.2 ⟨hr, ho⟩)

theorem repeats_append (hr : ¬ r.Repeats batch) :
    r.Repeats (batch ++ next) ↔ (r.extended batch hr).Repeats next := by
  rw [← not_iff_not, not_repeats_iff, not_repeats_iff, keys, extended, keys, List.map_append,
    List.map_append, List.append_assoc]

theorem Repeats.append_right (h : r.Repeats batch) : r.Repeats (batch ++ next) := by
  contrapose! h
  rw [not_repeats_iff, List.map_append, ← List.append_assoc] at h
  exact not_repeats_iff.2 (List.nodup_append.1 h).1

theorem register_append_iff : r.register (batch ++ next) = .ok t ↔
    ∃ s, r.register batch = .ok s ∧ s.register next = .ok t := by
  constructor
  · intro h
    obtain ⟨hr, ho, he⟩ := register_eq_ok_iff.1 h
    rw [overflows_append, not_or] at ho
    have hfirst : ¬ r.Repeats batch := mt Repeats.append_right hr
    refine ⟨_, register_eq_extended hfirst ho.1, register_eq_ok_iff.2 ⟨?_, ho.2, ?_⟩⟩
    · rwa [← repeats_append hfirst]
    · rw [he, extended, List.append_assoc]
  · rintro ⟨s, hs, ht⟩
    obtain ⟨hr, ho, he⟩ := register_eq_ok_iff.1 hs
    obtain ⟨hr', ho', he'⟩ := register_eq_ok_iff.1 ht
    have hsame : r.extended batch hr = s := eq_of_entries_eq he.symm
    refine register_eq_ok_iff.2 ⟨?_, ?_, ?_⟩
    · rwa [repeats_append hr, hsame]
    · rw [overflows_append, not_or]
      exact ⟨ho, ho'⟩
    · rw [he', he, List.append_assoc]

end Registry

end TensorKernels
