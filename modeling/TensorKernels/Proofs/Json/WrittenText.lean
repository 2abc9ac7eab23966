import TensorKernels.Json.Reader
import TensorKernels.Json.Value
import TensorKernels.Proofs.Json.Spelling

set_option autoImplicit false

namespace TensorKernels

structure Spacing.IsBlank (s : Spacing) : Prop where
  line : ∀ depth, ∀ c ∈ (s.line depth).toList, JsonToken.isSpace c = true
  colon : ∃ w, s.colon.toList = ':' :: w ∧ ∀ c ∈ w, JsonToken.isSpace c = true

namespace Spacing

theorem isBlank_compact : compact.IsBlank where
  line _ := nofun
  colon := ⟨[], rfl, nofun⟩

theorem isBlank_indented : indented.IsBlank where
  line depth := by
    have hline : (indented.line depth).toList = '\n' :: List.replicate (2 * depth) ' ' := by
      change ("\n" ++ String.ofList _).toList = _
      rw [String.toList_append, String.toList_ofList (l := List.replicate (2 * depth) ' ')]
      rfl
    rw [hline]
    intro c hc
    rcases List.mem_cons.1 hc with rfl | hc
    · rfl
    · rw [List.eq_of_mem_replicate hc]
      rfl
  colon := ⟨[' '], rfl, by simp [JsonToken.isSpace]⟩

end Spacing

theorem Ended.cons {c : Char} (h : Numeral.isMark c = false) (h' : c.isAlpha = false)
    (cs : List Char) : Ended (c :: cs) := by
  intro d hd
  cases hd
  exact ⟨h, h'⟩

theorem Ended.blanks_append {w cs : List Char} (hw : ∀ c ∈ w, JsonToken.isSpace c = true)
    (h : Ended cs) : Ended (w ++ cs) := by
  cases w with
  | nil => exact h
  | cons c w =>
    have hc := hw c List.mem_cons_self
    simp only [JsonToken.isSpace, Bool.or_eq_true, beq_iff_eq] at hc
    rcases hc with ((rfl | rfl) | rfl) | rfl <;> exact .cons rfl rfl _

theorem JsonToken.Spells.blanks_append {P : Int → Prop} {w cs : List Char} {ts : List JsonToken}
    (hw : ∀ c ∈ w, isSpace c = true) (h : Spells P cs ts) : Spells P (w ++ cs) ts := by
  induction w with
  | nil => exact h
  | cons c w ih =>
    rw [List.forall_mem_cons] at hw
    exact .blank hw.1 (ih hw.2)

namespace Json

/-- A value without reals that stands for something. Its integers have `P`. -/
inductive Plain (P : Int → Prop) : Json → Prop
  | null : Plain P null
  | bool (b : Bool) : Plain P (bool b)
  | int {n : Int} (h : P n) : Plain P (int n)
  | str (t : String) : Plain P (str t)
  | arr {items : List Json} (h : ∀ v ∈ items, Plain P v) : Plain P (arr items)
  | obj {fields : List (String × Json)} (h : ∀ f ∈ fields, Plain P f.2) : Plain P (obj fields)

mutual

def tokens : Json → List JsonToken
  | null | invalid => [.null]
  | bool b => [.bool b]
  | int n => [.int n]
  | real literal => [.real literal]
  | str t => [.str (some t)]
  | arr [] => [.beginArray, .endArray]
  | arr (v :: vs) => .beginArray :: (tokens v ++ (itemTokens vs ++ [.endArray]))
  | obj [] => [.beginObject, .endObject]
  | obj ((name, v) :: fs) =>
    .beginObject :: .str (some name) :: .colon :: (tokens v ++ (fieldTokens fs ++ [.endObject]))

def itemTokens : List Json → List JsonToken
  | [] => []
  | v :: vs => .comma :: (tokens v ++ itemTokens vs)

def fieldTokens : List (String × Json) → List JsonToken
  | [] => []
  | (name, v) :: fs => .comma :: .str (some name) :: .colon :: (tokens v ++ fieldTokens fs)

end

section Written

variable {P : Int → Prop} {s : Spacing} {rest : List Char} {ts : List JsonToken}

theorem toList_write_arr (s : Spacing) (depth : Nat) (v : Json) (vs : List Json) :
    (write s depth (arr (v :: vs))).toList = '[' :: ((s.line (depth + 1)).toList ++
      ((write s (depth + 1) v).toList ++ ((writeItems s (depth + 1) vs).toList ++
        ((s.line depth).toList ++ [']'])))) := by
  rw [write]
  simp only [String.toList_append, List.append_assoc]
  rfl

theorem toList_write_obj (s : Spacing) (depth : Nat) (name : String) (v : Json)
    (fs : List (String × Json)) :
    (write s depth (obj ((name, v) :: fs))).toList = '\x7b' :: ((s.line (depth + 1)).toList ++
      ((JsonText.quote name).toList ++ (s.colon.toList ++ ((write s (depth + 1) v).toList ++
        ((writeFields s (depth + 1) fs).toList ++ ((s.line depth).toList ++ ['\x7d'])))))) := by
  rw [write]
  simp only [String.toList_append, List.append_assoc]
  rfl

theorem toList_writeItems_cons (s : Spacing) (depth : Nat) (v : Json) (vs : List Json) :
    (writeItems s depth (v :: vs)).toList = ',' :: ((s.line depth).toList ++
      ((write s depth v).toList ++ (writeItems s depth vs).toList)) := by
  rw [writeItems]
  simp only [String.toList_append, List.append_assoc]
  rfl

theorem toList_writeFields_cons (s : Spacing) (depth : Nat) (name : String) (v : Json)
    (fs : List (String × Json)) :
    (writeFields s depth ((name, v) :: fs)).toList = ',' :: ((s.line depth).toList ++
      ((JsonText.quote name).toList ++ (s.colon.toList ++ ((write s depth v).toList ++
        (writeFields s depth fs).toList)))) := by
  rw [writeFields]
  simp only [String.toList_append, List.append_assoc]
  rfl

theorem spells_field (hs : s.IsBlank) (name : String) {cs : List Char}
    (h : JsonToken.Spells P cs ts) :
    JsonToken.Spells P ((JsonText.quote name).toList ++ (s.colon.toList ++ cs))
      (.str (some name) :: .colon :: ts) := by
  obtain ⟨w, hcolon, hw⟩ := hs.colon
  rw [hcolon]
  exact .token (.str name _) (.token (.mark rfl _) (h.blanks_append hw))

/-- How a value is spelled, whatever follows it. -/
def SpelledBy (P : Int → Prop) (s : Spacing) (v : Json) : Prop :=
  ∀ depth rest ts, Ended rest → JsonToken.Spells P rest ts →
    JsonToken.Spells P ((write s depth v).toList ++ rest) (tokens v ++ ts)

theorem ended_writeItems (s : Spacing) (depth : Nat) (vs : List Json) (h : Ended rest) :
    Ended ((writeItems s depth vs).toList ++ rest) := by
  cases vs with
  | nil => exact h
  | cons v vs =>
    rw [toList_writeItems_cons]
    exact .cons rfl rfl _

theorem ended_writeFields (s : Spacing) (depth : Nat) (fs : List (String × Json))
    (h : Ended rest) : Ended ((writeFields s depth fs).toList ++ rest) := by
  cases fs with
  | nil => exact h
  | cons f fs =>
    rw [toList_writeFields_cons]
    exact .cons rfl rfl _

theorem spells_items (hs : s.IsBlank) {vs : List Json} (h : ∀ v ∈ vs, SpelledBy P s v)
    (depth : Nat) (ended : Ended rest) (tail : JsonToken.Spells P rest ts) :
    JsonToken.Spells P ((writeItems s depth vs).toList ++ rest) (itemTokens vs ++ ts) := by
  induction vs with
  | nil => exact tail
  | cons v vs ih =>
    rw [List.forall_mem_cons] at h
    have hvs := h.1 depth _ _ (ended_writeItems s depth vs ended) (ih h.2)
    rw [toList_writeItems_cons, itemTokens, List.cons_append, List.cons_append]
    simp only [List.append_assoc]
    exact .token (.mark rfl _) (hvs.blanks_append (hs.line depth))

theorem spells_fields (hs : s.IsBlank) {fs : List (String × Json)}
    (h : ∀ f ∈ fs, SpelledBy P s f.2) (depth : Nat) (ended : Ended rest)
    (tail : JsonToken.Spells P rest ts) :
    JsonToken.Spells P ((writeFields s depth fs).toList ++ rest) (fieldTokens fs ++ ts) := by
  induction fs with
  | nil => exact tail
  | cons f fs ih =>
    rw [List.forall_mem_cons] at h
    have hfs := h.1 depth _ _ (ended_writeFields s depth fs ended) (ih h.2)
    rw [toList_writeFields_cons, fieldTokens, List.cons_append]
    simp only [List.cons_append, List.append_assoc]
    exact .token (.mark rfl _) ((spells_field hs f.1 hfs).blanks_append (hs.line depth))

theorem spells_end (hs : s.IsBlank) {c : Char} {t : JsonToken}
    (hc : JsonToken.punctuation? c = some t) (depth : Nat) (tail : JsonToken.Spells P rest ts) :
    Ended ((s.line depth).toList ++ c :: rest) ∧
      JsonToken.Spells P ((s.line depth).toList ++ c :: rest) (t :: ts) := by
  refine ⟨.blanks_append (hs.line depth) ?_, .blanks_append (hs.line depth) ?_⟩
  · unfold JsonToken.punctuation? at hc
    split at hc <;> first | exact .cons rfl rfl _ | cases hc
  · exact .token (.mark hc rest) tail

theorem spelledBy_arr (hs : s.IsBlank) {items : List Json} (h : ∀ v ∈ items, SpelledBy P s v) :
    SpelledBy P s (arr items) := by
  intro depth rest ts _ tail
  cases items with
  | nil =>
    rw [write, tokens]
    change JsonToken.Spells P ('[' :: ']' :: rest) _
    exact .token (.mark rfl _) (.token (.mark rfl _) tail)
  | cons v vs =>
    rw [List.forall_mem_cons] at h
    obtain ⟨ended, tail⟩ := spells_end (c := ']') hs rfl depth tail
    have hvs := h.1 (depth + 1) _ _ (ended_writeItems s (depth + 1) vs ended)
      (spells_items hs h.2 (depth + 1) ended tail)
    rw [toList_write_arr, tokens]
    simp only [List.cons_append, List.append_assoc, List.nil_append]
    exact .token (.mark rfl _) (hvs.blanks_append (hs.line _))

theorem spelledBy_obj (hs : s.IsBlank) {fields : List (String × Json)}
    (h : ∀ f ∈ fields, SpelledBy P s f.2) : SpelledBy P s (obj fields) := by
  intro depth rest ts _ tail
  cases fields with
  | nil =>
    rw [write, tokens]
    change JsonToken.Spells P ('\x7b' :: '\x7d' :: rest) _
    exact .token (.mark rfl _) (.token (.mark rfl _) tail)
  | cons f fs =>
    rw [List.forall_mem_cons] at h
    obtain ⟨ended, tail⟩ := spells_end (c := '\x7d') hs rfl depth tail
    have hfs := h.1 (depth + 1) _ _ (ended_writeFields s (depth + 1) fs ended)
      (spells_fields hs h.2 (depth + 1) ended tail)
    rw [toList_write_obj, tokens]
    simp only [List.cons_append, List.append_assoc, List.nil_append]
    exact .token (.mark rfl _) ((spells_field hs f.1 hfs).blanks_append (hs.line _))

theorem Plain.spelledBy (hs : s.IsBlank) {v : Json} (h : v.Plain P) : v.SpelledBy P s := by
  induction h with
  | null =>
    intro depth rest ts ended tail
    rw [write, tokens]
    exact .token (.word (by decide) ended) tail
  | bool b =>
    intro depth rest ts ended tail
    cases b with
    | true =>
      rw [write, tokens]
      exact .token (.word (by decide) ended) tail
    | false =>
      rw [write, tokens]
      exact .token (.word (by decide) ended) tail
  | int h =>
    intro depth rest ts ended tail
    rw [write, tokens]
    exact .token (.int h ended) tail
  | str t =>
    intro depth rest ts _ tail
    rw [write, tokens]
    exact .token (.str t _) tail
  | arr _ ih => exact spelledBy_arr hs ih
  | obj _ ih => exact spelledBy_obj hs ih

end Written

section Reading

variable {P : Int → Prop} {stack : List OpenContainer} {ts : List JsonToken}

/-- The tokens of a value make this value, whatever is open and whatever follows. -/
def Completes (v : Json) : Prop :=
  ∀ stack ts, (tokens v ++ ts).foldlM ReaderState.step? (.value stack) =
    ts.foldlM ReaderState.step? (.complete v stack)

/-- Where an array may end at once, its first element is read all the same. -/
theorem foldlM_firstItem (v : Json) (stack : List OpenContainer) (ts : List JsonToken) :
    (tokens v ++ ts).foldlM ReaderState.step? (.firstItem stack) =
      (tokens v ++ ts).foldlM ReaderState.step? (.value (.arr [] :: stack)) := by
  have hstep {t : JsonToken} (ht : t ≠ .endArray) :
      ReaderState.step? (.firstItem stack) t =
        ReaderState.step? (.value (.arr [] :: stack)) t := by
    cases t <;> first | exact absurd rfl ht | rfl
  have hfirst : ∃ t us, tokens v = t :: us ∧ t ≠ .endArray := by
    unfold tokens
    split <;> exact ⟨_, _, rfl, nofun⟩
  obtain ⟨t, us, htokens, ht⟩ := hfirst
  rw [htokens, List.cons_append, List.foldlM_cons, List.foldlM_cons, hstep ht]

theorem foldlM_items {vs : List Json} (h : ∀ v ∈ vs, Completes v) (v : Json) (before : List Json) :
    (itemTokens vs ++ .endArray :: ts).foldlM ReaderState.step?
        (.complete v (.arr before :: stack)) =
      ts.foldlM ReaderState.step? (.complete (.arr (before.reverse ++ v :: vs)) stack) := by
  induction vs generalizing v before with
  | nil =>
    rw [itemTokens, List.nil_append, List.foldlM_cons, ReaderState.step?, List.reverse_cons]
    rfl
  | cons w vs ih =>
    rw [List.forall_mem_cons] at h
    rw [itemTokens, List.cons_append, List.append_assoc, List.foldlM_cons, ReaderState.step?]
    change (tokens w ++ _).foldlM _ _ = _
    rw [h.1, ih h.2, List.reverse_cons, List.append_assoc]
    rfl

theorem ofFields_some (fields : List (String × Json)) :
    ofFields (fields.map fun f => (some f.1, f.2)) = obj fields := by
  have hnames : (fields.map fun f => (some f.1, f.2)).mapM
      (fun f : Option String × Json => f.1.map (·, f.2)) = some fields := by
    induction fields with
    | nil => rfl
    | cons f fields ih =>
      rw [List.map_cons, List.mapM_cons, ih]
      rfl
  rw [ofFields, hnames]

theorem foldlM_fields {fs : List (String × Json)} (h : ∀ f ∈ fs, Completes f.2) (name : String)
    (v : Json) (before : ReadFields) :
    (fieldTokens fs ++ .endObject :: ts).foldlM ReaderState.step?
        (.complete v (.obj before (some name) :: stack)) =
      ts.foldlM ReaderState.step? (.complete (ofFields (before.reverse ++ (some name, v) ::
        fs.map fun f => (some f.1, f.2))) stack) := by
  induction fs generalizing name v before with
  | nil =>
    rw [fieldTokens, List.nil_append, List.foldlM_cons, ReaderState.step?, List.reverse_cons]
    rfl
  | cons f fs ih =>
    rw [List.forall_mem_cons] at h
    rw [fieldTokens, List.cons_append, List.cons_append, List.cons_append, List.append_assoc]
    change (tokens f.2 ++ _).foldlM _ (ReaderState.value _) = _
    rw [h.1, ih h.2, List.reverse_cons, List.append_assoc]
    rfl

theorem Plain.completes {v : Json} (h : v.Plain P) : v.Completes := by
  induction h with
  | null | bool | int | str =>
    intro stack ts
    rw [tokens]
    rfl
  | @arr items _ ih =>
    intro stack ts
    cases items with
    | nil =>
      rw [tokens]
      rfl
    | cons v vs =>
      rw [List.forall_mem_cons] at ih
      rw [tokens, List.cons_append, List.append_assoc, List.append_assoc]
      change (tokens v ++ _).foldlM _ (ReaderState.firstItem _) = _
      rw [foldlM_firstItem, ih.1]
      exact foldlM_items ih.2 v []
  | @obj fields _ ih =>
    intro stack ts
    cases fields with
    | nil =>
      rw [tokens]
      rfl
    | cons f fs =>
      rw [List.forall_mem_cons] at ih
      rw [tokens, List.cons_append, List.cons_append, List.cons_append, List.append_assoc,
        List.append_assoc]
      change (tokens f.2 ++ _).foldlM _ (ReaderState.value _) = _
      rw [ih.1]
      exact (foldlM_fields ih.2 f.1 f.2 []).trans (by rw [← ofFields_some]; rfl)

theorem Plain.ofTokens?_tokens {v : Json} (h : v.Plain P) : ofTokens? v.tokens = some v := by
  have hrun := h.completes [] []
  rw [List.append_nil] at hrun
  rw [ofTokens?, hrun]
  rfl

end Reading

variable {P : Int → Prop} {s : Spacing} {v w : Json}

theorem Plain.spells_write (hs : s.IsBlank) (h : v.Plain P) (depth : Nat) :
    JsonToken.Spells P (write s depth v).toList v.tokens := by
  have hspells := h.spelledBy hs depth [] [] nofun .nil
  rwa [List.append_nil, List.append_nil] at hspells

theorem Plain.parse?_write (hs : s.IsBlank) (h : v.Plain P)
    (hP : ∀ n, P n → n.natAbs ≤ 18446744073709551615) (depth : Nat) :
    parse? (write s depth v) = some v := by
  rw [parse?, (h.spells_write hs depth).scan_eq_of_fits hP]
  exact h.ofTokens?_tokens

/-- The text tells the value, also where its integers are too large to be read. -/
theorem Plain.eq_of_write_eq (hs : s.IsBlank) (hv : v.Plain P) (hw : w.Plain P) (depth : Nat)
    (h : write s depth v = write s depth w) : v = w := by
  have hspells := hv.spells_write hs depth
  rw [h] at hspells
  have htokens := hspells.unique (hw.spells_write hs depth)
  have hread := hv.ofTokens?_tokens
  rw [htokens, hw.ofTokens?_tokens, Option.some_inj] at hread
  exact hread.symm

end Json

end TensorKernels
