import TensorKernels.Json.Reader
import TensorKernels.Proofs.Text

set_option autoImplicit false

namespace TensorKernels

namespace Numeral

def ofInt : Int → Numeral
  | .ofNat m => ⟨false, Nat.toDigits 10 m, [], none⟩
  | .negSucc m => ⟨true, Nat.toDigits 10 (m + 1), [], none⟩

theorem exists_toDigits_cons {m : Nat} (h : 0 < m) :
    ∃ c cs, Nat.toDigits 10 m = c :: cs ∧ c ≠ '0' := by
  induction m using Nat.strongRecOn with
  | ind m ih =>
    by_cases hm : m < 10
    · rw [Nat.toDigits_of_lt_base hm]
      refine ⟨_, [], rfl, ?_⟩
      have hne : ∀ d < 10, 0 < d → Nat.digitChar d ≠ '0' := by decide
      exact hne m hm h
    · obtain ⟨c, cs, hcs, hc⟩ := ih (m / 10) (by omega) (by omega)
      rw [Nat.toDigits_of_base_le (by decide) (by omega), hcs]
      exact ⟨c, _, rfl, hc⟩

theorem isIntegral_toDigits (m : Nat) : isIntegral (Nat.toDigits 10 m) = true := by
  by_cases hm : m = 0
  · rw [hm]
    rfl
  · obtain ⟨c, cs, hcs, hc⟩ := exists_toDigits_cons (Nat.pos_of_ne_zero hm)
    rw [hcs]
    unfold isIntegral
    split
    · next h => cases h
    · next h =>
      cases h
      exact absurd rfl hc
    · rfl

theorem isDigit_of_mem_toDigits {m : Nat} {c : Char} (hc : c ∈ Nat.toDigits 10 m) :
    c.isDigit = true :=
  Nat.isDigit_of_mem_toDigits (by decide) (by decide) hc

theorem unsigned?_toDigits (negative : Bool) (m : Nat) :
    unsigned? negative (Nat.toDigits 10 m) = some ⟨negative, Nat.toDigits 10 m, [], none⟩ := by
  have hend : ∀ c ∈ ([] : List Char).head?, c.isDigit = false := nofun
  obtain ⟨htake, hdrop⟩ := span_append (fun _ => isDigit_of_mem_toDigits (m := m)) hend
  rw [List.append_nil] at htake hdrop
  unfold unsigned?
  rw [htake, hdrop, if_pos (isIntegral_toDigits m)]
  rfl

theorem toList_repr_ofNat (m : Nat) : (Int.ofNat m).repr.toList = Nat.toDigits 10 m :=
  Nat.toList_repr

theorem toList_repr_negSucc (m : Nat) :
    (Int.negSucc m).repr.toList = '-' :: Nat.toDigits 10 (m + 1) := by
  change ("-" ++ (m + 1).repr).toList = _
  rw [String.toList_append, Nat.toList_repr]
  rfl

theorem ofLiteral?_repr (n : Int) : ofLiteral? n.repr.toList = some (ofInt n) := by
  cases n with
  | ofNat m =>
    rw [toList_repr_ofNat]
    unfold ofLiteral?
    split
    · next cs h =>
      have hmem : '-' ∈ Nat.toDigits 10 m := h ▸ List.mem_cons_self
      exact absurd (isDigit_of_mem_toDigits hmem) (by decide)
    · exact unsigned?_toDigits false m
  | negSucc m =>
    rw [toList_repr_negSucc]
    exact unsigned?_toDigits true (m + 1)

theorem integer?_ofInt (n : Int) : (ofInt n).integer? = some n := by
  cases n with
  | ofNat m => simp [ofInt, integer?, Nat.ofDigitChars_toDigits]
  | negSucc m => simp [ofInt, integer?, Nat.ofDigitChars_toDigits, Int.negSucc_eq]

theorem eq_of_repr_eq {m n : Int} (h : m.repr.toList = n.repr.toList) : m = n := by
  have hparts := ofLiteral?_repr m
  rw [h, ofLiteral?_repr n, Option.some_inj] at hparts
  have hm := integer?_ofInt m
  rw [← hparts, integer?_ofInt n, Option.some_inj] at hm
  exact hm.symm

/-- An integer of 64 bits, with or without a sign, is in range. -/
theorem inRange_ofInt {n : Int} (h : n.natAbs ≤ 18446744073709551615) :
    (ofInt n).inRange = true := by
  cases n with
  | ofNat m =>
    apply inRange_integer
    rw [Nat.ofDigitChars_toDigits (by decide) (by decide)]
    exact h
  | negSucc m =>
    apply inRange_integer
    rw [Nat.ofDigitChars_toDigits (by decide) (by decide)]
    exact h

theorem exists_repr_cons (n : Int) : ∃ c w, n.repr.toList = c :: w ∧
    (c.isDigit || c == '-') = true ∧ ∀ d ∈ w, isMark d = true := by
  have hmark {m : Nat} {c : Char} (hc : c ∈ Nat.toDigits 10 m) : isMark c = true := by
    simp [isMark, isDigit_of_mem_toDigits hc]
  cases n with
  | ofNat m =>
    rw [toList_repr_ofNat]
    obtain ⟨c, w, hw⟩ := List.exists_cons_of_length_pos (Nat.length_toDigits_pos (b := 10) (n := m))
    have hc : c.isDigit = true := isDigit_of_mem_toDigits (hw ▸ List.mem_cons_self)
    refine ⟨c, w, hw, by rw [hc]; rfl, fun d hd => hmark (m := m) ?_⟩
    exact hw ▸ List.mem_cons_of_mem c hd
  | negSucc m =>
    rw [toList_repr_negSucc]
    exact ⟨'-', _, rfl, rfl, fun _ => hmark⟩

end Numeral

/-- No number and no word goes on at the beginning of the text. -/
def Ended (cs : List Char) : Prop := ∀ c ∈ cs.head?, Numeral.isMark c = false ∧ c.isAlpha = false

namespace JsonToken

variable {P : Int → Prop}

/-- The token stands at the front of a text, and what follows it is the rest. Integers have `P`. -/
inductive Spelled (P : Int → Prop) : JsonToken → List Char → List Char → Prop
  | mark {t : JsonToken} {c : Char} (h : punctuation? c = some t) (rest : List Char) :
      Spelled P t (c :: rest) rest
  | word {t : JsonToken} {w rest : List Char} (h : word? w = some t) (ended : Ended rest) :
      Spelled P t (w ++ rest) rest
  | int {n : Int} {rest : List Char} (h : P n) (ended : Ended rest) :
      Spelled P (int n) (n.repr.toList ++ rest) rest
  | str (s : String) (rest : List Char) :
      Spelled P (str (some s)) ((JsonText.quote s).toList ++ rest) rest

inductive Spells (P : Int → Prop) : List Char → List JsonToken → Prop
  | nil : Spells P [] []
  | blank {c : Char} {cs : List Char} {ts : List JsonToken} (h : isSpace c = true)
      (rest : Spells P cs ts) : Spells P (c :: cs) ts
  | token {t : JsonToken} {cs rest : List Char} {ts : List JsonToken} (h : Spelled P t cs rest)
      (tail : Spells P rest ts) : Spells P cs (t :: ts)

/-- What the token is read as: an integer may be too large. -/
def scanned : JsonToken → JsonToken
  | int n => if (Numeral.ofInt n).inRange then int n else outOfRange
  | t => t

theorem next?_mark {c : Char} {t : JsonToken} (h : punctuation? c = some t) (rest : List Char) :
    next? c rest = some (t.scanned, rest) ∧ isSpace c = false := by
  have ht : t.scanned = t ∧ isSpace c = false := by
    unfold punctuation? at h
    split at h <;> cases h <;> exact ⟨rfl, rfl⟩
  rw [next?, h, ht.1]
  exact ⟨rfl, ht.2⟩

theorem next?_word {t : JsonToken} {w rest : List Char} (h : word? w = some t)
    (ended : Ended rest) :
    ∃ c v, w = c :: v ∧ isSpace c = false ∧ next? c (v ++ rest) = some (t.scanned, rest) := by
  have hnext {c : Char} {v : List Char} (hp : punctuation? c = none) (hq : c ≠ '"')
      (hd : (c.isDigit || c == '-') = false) (hv : v.all Char.isAlpha = true) :
      next? c (v ++ rest) = (word? (c :: v)).map fun t => (t, rest) := by
    obtain ⟨htake, hdrop⟩ :=
      span_append (List.all_eq_true.1 hv) fun d hrest => (ended d hrest).2
    rw [next?, hp, htake, hdrop]
    dsimp only
    rw [if_neg hq, if_neg (by rw [hd]; decide)]
  have hwords : w = "null".toList ∧ t = null ∨ w = "true".toList ∧ t = bool true ∨
      w = "false".toList ∧ t = bool false := by
    unfold word? at h
    (repeat' split at h) <;> simp_all
  rcases hwords with ⟨rfl, rfl⟩ | ⟨rfl, rfl⟩ | ⟨rfl, rfl⟩ <;>
    exact ⟨_, _, rfl, rfl, hnext rfl (by decide) rfl rfl⟩

theorem next?_number {c : Char} {w rest : List Char} (hc : (c.isDigit || c == '-') = true)
    (hw : ∀ d ∈ w, Numeral.isMark d = true) (ended : Ended rest) :
    next? c (w ++ rest) = (number? (c :: w)).map fun t => (t, rest) := by
  obtain ⟨htake, hdrop⟩ := span_append hw fun d hrest => (ended d hrest).1
  have hp : punctuation? c = none := by
    unfold punctuation?
    split <;> first | rfl | exact absurd hc (by decide)
  have hq : c ≠ '"' := by
    rintro rfl
    exact absurd hc (by decide)
  rw [next?, hp, htake, hdrop]
  dsimp only
  rw [if_neg hq, if_pos hc]

theorem number?_repr (n : Int) : number? n.repr.toList = some (int n).scanned := by
  rw [number?, Numeral.ofLiteral?_repr, Option.map_some, Numeral.integer?_ofInt, scanned]

theorem next?_quote (s : String) (rest : List Char) :
    ∃ w, (JsonText.quote s).toList ++ rest = '"' :: w ∧
      next? '"' w = some (str (some s), rest) := by
  refine ⟨JsonText.escape s.toList ++ '"' :: rest, by simp [JsonText.quote], ?_⟩
  rw [next?]
  change Option.map _ (JsonText.body? _) = _
  rw [JsonText.body?_escape, Option.map_some]
  dsimp only
  rw [JsonText.characters?_toNat, Option.map_some, String.ofList_toList]

theorem isSpace_of_isNumeral {c : Char} (hc : (c.isDigit || c == '-') = true) :
    isSpace c = false := by
  cases hs : isSpace c with
  | false => rfl
  | true =>
    simp only [isSpace, Bool.or_eq_true, beq_iff_eq] at hs
    rcases hs with ((rfl | rfl) | rfl) | rfl <;> exact absurd hc (by decide)

theorem Spelled.exists_next? {t : JsonToken} {cs rest : List Char} (h : Spelled P t cs rest) :
    ∃ c w, cs = c :: w ∧ isSpace c = false ∧ next? c w = some (t.scanned, rest) := by
  cases h with
  | mark h =>
    obtain ⟨hnext, hspace⟩ := next?_mark h rest
    exact ⟨_, _, rfl, hspace, hnext⟩
  | word h ended =>
    obtain ⟨c, v, rfl, hspace, hnext⟩ := next?_word h ended
    exact ⟨c, v ++ _, rfl, hspace, hnext⟩
  | @int n _ _ ended =>
    obtain ⟨c, w, hrepr, hc, hw⟩ := Numeral.exists_repr_cons n
    refine ⟨c, w ++ rest, by rw [hrepr]; rfl, isSpace_of_isNumeral hc, ?_⟩
    rw [next?_number hc hw ended, ← hrepr, number?_repr, Option.map_some]
  | str s =>
    obtain ⟨w, hw, hnext⟩ := next?_quote s rest
    exact ⟨'"', w, hw, rfl, hnext⟩

theorem Spells.scan_eq {cs : List Char} {ts : List JsonToken} (h : Spells P cs ts) :
    scan cs = some (ts.map scanned) := by
  -- the text is cut where its tokens end
  induction h with
  | nil =>
    rw [scan]
    rfl
  | blank h _ ih => rw [scan, if_pos h, ih]
  | token h _ ih =>
    obtain ⟨c, w, rfl, hspace, hnext⟩ := h.exists_next?
    rw [scan, if_neg (by rw [hspace]; decide)]
    split
    · next hn =>
      rw [hnext] at hn
      cases hn
      rw [ih]
      rfl
    · next hn =>
      rw [hnext] at hn
      cases hn

theorem Spelled.int_or_scanned {t : JsonToken} {cs rest : List Char} (h : Spelled P t cs rest) :
    (∃ n, P n ∧ t = .int n ∧ cs = n.repr.toList ++ rest) ∨
      t.scanned = t ∧ (∀ n, t ≠ .int n) ∧ t ≠ .outOfRange := by
  cases h with
  | mark h =>
    unfold punctuation? at h
    split at h <;> cases h <;> exact .inr ⟨rfl, nofun, nofun⟩
  | word h =>
    unfold word? at h
    (repeat' split at h) <;> cases h <;> exact .inr ⟨rfl, nofun, nofun⟩
  | int h => exact .inl ⟨_, h, rfl, rfl⟩
  | str s => exact .inr ⟨rfl, nofun, nofun⟩

theorem Spells.scan_eq_of_fits {cs : List Char} {ts : List JsonToken} (h : Spells P cs ts)
    (hP : ∀ n, P n → n.natAbs ≤ 18446744073709551615) : scan cs = some ts := by
  have hsame : ts.map scanned = ts := by
    induction h with
    | nil => rfl
    | blank _ _ ih => exact ih
    | @token t _ _ _ h _ ih =>
      have ht : t.scanned = t := by
        rcases h.int_or_scanned with ⟨n, hn, rfl, -⟩ | ⟨ht, -⟩
        · rw [scanned, if_pos (Numeral.inRange_ofInt (hP n hn))]
        · exact ht
      rw [List.map_cons, ht, ih]
  rw [h.scan_eq, hsame]

theorem Spelled.unique {t u : JsonToken} {cs rest rest' : List Char} (ht : Spelled P t cs rest)
    (hu : Spelled P u cs rest') : t = u ∧ rest = rest' := by
  obtain ⟨c, w, rfl, -, hnext⟩ := ht.exists_next?
  obtain ⟨c', w', hcs, -, hnext'⟩ := hu.exists_next?
  cases hcs
  rw [hnext, Option.some_inj, Prod.mk.injEq] at hnext'
  obtain ⟨hscanned, rfl⟩ := hnext'
  refine ⟨?_, rfl⟩
  have hint (n : Int) : scanned (.int n) = .int n ∨ scanned (.int n) = .outOfRange := by
    rw [scanned]
    split
    · exact .inl rfl
    · exact .inr rfl
  rcases ht.int_or_scanned with ⟨n, -, rfl, hn⟩ | ⟨hts, htint, htout⟩
  · rcases hu.int_or_scanned with ⟨m, -, rfl, hm⟩ | ⟨hus, huint, huout⟩
    · -- the two texts have one rest, so that the integers have one text
      rw [hn, List.append_cancel_right_eq] at hm
      rw [Numeral.eq_of_repr_eq hm]
    · rw [hus] at hscanned
      rcases hint n with h | h
      · exact absurd (hscanned.symm.trans h) (huint n)
      · exact absurd (hscanned.symm.trans h) huout
  · rw [hts] at hscanned
    rcases hu.int_or_scanned with ⟨m, -, rfl, -⟩ | ⟨hus, -, -⟩
    · rcases hint m with h | h
      · exact absurd (hscanned.trans h) (htint m)
      · exact absurd (hscanned.trans h) htout
    · exact hscanned.trans hus

theorem Spells.unique {cs : List Char} {ts us : List JsonToken} (ht : Spells P cs ts)
    (hu : Spells P cs us) : ts = us := by
  -- the front of the text tells the first token
  induction ht generalizing us with
  | nil =>
    cases hu with
    | nil => rfl
    | token h =>
      obtain ⟨c, w, hcs, -⟩ := h.exists_next?
      cases hcs
  | blank h _ ih =>
    cases hu with
    | blank _ hrest => exact ih hrest
    | token hu =>
      obtain ⟨c, w, hcs, hspace, -⟩ := hu.exists_next?
      cases hcs
      rw [h] at hspace
      cases hspace
  | token h _ ih =>
    cases hu with
    | nil =>
      obtain ⟨c, w, hcs, -⟩ := h.exists_next?
      cases hcs
    | blank hc =>
      obtain ⟨c, w, hcs, hspace, -⟩ := h.exists_next?
      cases hcs
      rw [hc] at hspace
      cases hspace
    | token hu htail =>
      obtain ⟨rfl, rfl⟩ := h.unique hu
      rw [ih htail]

end JsonToken

end TensorKernels
