import TensorKernels.Proofs.Index.RenderedText
import TensorKernels.Proofs.Text

/-! No text that reads as an expression has fewer parentheses than the text that is written for it.
Every reading of an expression has parentheses wherever the written text has them, which is by
induction on the reading. Without any one pair of its parentheses the written text still reads, since
operators may be put between any two texts that read, but it reads as another expression. -/

set_option autoImplicit false

namespace TensorKernels

open Text (Balanced DropsPair)

theorem ExprToken.count_enclosed (p : Prop) [Decidable p] (ts : List ExprToken) :
    (enclosed p ts).count .opening = ts.count .opening + if p then 1 else 0 := by
  by_cases hp : p <;> simp [enclosed, hp]

namespace Reads

variable {k : Nat} {ts us : List ExprToken} {l r : Expr}

/-- An operator that binds tighter than an addition before it takes the right operand of the
addition. -/
theorem exists_operator (h : Reads 1 ts l) {o : BinOp} (hr : Reads (o.precedence + 1) us r) :
    ∃ e, Reads 1 (ts ++ .op o :: us) e := by
  have hlevel : o.precedence = 1 ∨ o.precedence = 2 := by cases o <;> decide
  have hbelow {vs : List ExprToken} {a : Expr} (ha : Reads o.precedence vs a) :
      Reads 1 (vs ++ .op o :: us) (.bin o a r) := (Reads.op ha hr).mono (by omega)
  rcases hlevel with ho | ho
  · exact ⟨_, hbelow (h.mono (Nat.le_of_eq ho))⟩
  · rcases h.level_cases (by decide) with h | ⟨o', vs, ws, a, b, ho', rfl, rfl, ha, hb⟩
    · exact ⟨_, hbelow (h.mono (Nat.le_of_eq ho))⟩
    · have hinner := Reads.op (hb.mono (Nat.le_of_eq ho)) hr
      have hsum := Reads.op (ha.mono (Nat.le_of_eq ho')) (hinner.mono (by omega))
      rw [List.append_assoc, List.cons_append]
      exact ⟨_, hsum.mono (Nat.le_of_eq ho'.symm)⟩

theorem exists_join (h : Reads 1 ts l) (o : BinOp) (hr : Reads k us r) :
    ∃ e, Reads 1 (ts ++ .op o :: us) e := by
  induction hr with
  | name s => exact h.exists_operator ((Reads.name s).mono o.precedence_lt)
  | number n => exact h.exists_operator ((Reads.number n).mono o.precedence_lt)
  | parens hr _ => exact h.exists_operator ((Reads.parens hr).mono o.precedence_lt)
  | op _ hr ih =>
    obtain ⟨e, he⟩ := ih
    have hbin := he.exists_operator hr
    rwa [List.append_assoc] at hbin
  | tighter _ ih => exact ih

/-- A reading has all parentheses of the written tokens, and those that its level asks for. -/
theorem openings_le (h : Reads k ts l) :
    (ExprToken.enclosed (l.precedence < k) l.tokens).count .opening ≤ ts.count .opening := by
  induction h with
  | name s => exact Nat.le_refl 0
  | number n => exact Nat.le_refl 0
  | @parens ts e _ ih =>
    have hcount : (ExprToken.opening :: ts ++ [ExprToken.closing]).count .opening =
        ts.count .opening + 1 := by simp
    rw [ExprToken.count_enclosed] at ih ⊢
    rw [hcount]
    split <;> omega
  | @op o ts us l r _ _ ihl ihr =>
    have hlevel : ¬ (Expr.bin o l r).precedence < o.precedence := Nat.lt_irrefl _
    have hright : r.precedence < o.precedence + 1 ↔ r.precedence ≤ o.precedence := Nat.lt_succ_iff
    have hop : ExprToken.op o ≠ .opening := nofun
    simp only [hright] at ihr
    rw [ExprToken.count_enclosed, if_neg hlevel, Nat.add_zero, Expr.tokens]
    simp only [List.count_append, List.count_cons_of_ne hop]
    exact Nat.add_le_add ihl ihr
  | @tighter k ts e _ ih =>
    rw [ExprToken.count_enclosed] at ih ⊢
    split at ih <;> split <;> omega

end Reads

namespace ExprToken

theorem eq_opening_iff {c : Char} {t : ExprToken} (h : punctuation? c = some t) :
    c = '(' ↔ t = opening := by
  unfold punctuation? at h
  split at h <;> cases h <;> simp

theorem ne_opening_of_word? {cs : List Char} {t : ExprToken} (h : word? cs = some t) :
    t ≠ opening := by
  unfold word? at h
  split at h
  · cases h
    nofun
  · split at h
    · cases h
    · obtain ⟨n, -, rfl⟩ := Option.map_eq_some_iff.1 h
      nofun

theorem count_of_next? {c : Char} {cs rest : List Char} {t : ExprToken}
    (h : next? c cs = some (t, rest)) :
    (c :: cs).count '(' = (if t = opening then 1 else 0) + rest.count '(' := by
  unfold next? at h
  split at h
  · next u hu =>
    cases h
    simp only [← eq_opening_iff hu, List.count_cons, beq_iff_eq]
    omega
  · next hnone =>
    obtain ⟨u, hu, e⟩ := Option.map_eq_some_iff.1 h
    obtain ⟨rfl, rfl⟩ := Prod.mk.inj e
    have hc : c ≠ '(' := by
      rintro rfl
      cases hnone
    have hword : '(' ∉ cs.takeWhile Text.isWordChar := fun hmem =>
      absurd (List.mem_takeWhile_imp hmem) (by decide)
    have hsplit := congrArg (List.count '(')
      (List.takeWhile_append_dropWhile (p := Text.isWordChar) (l := cs))
    rw [List.count_append, List.count_eq_zero.2 hword] at hsplit
    rw [List.count_cons_of_ne hc, if_neg (ne_opening_of_word? hu), ← hsplit]

theorem count_of_scan {cs : List Char} {ts : List ExprToken} (h : scan cs = some ts) :
    cs.count '(' = ts.count opening := by
  fun_induction scan cs generalizing ts with
  | case1 =>
    cases h
    rfl
  | case2 cs ih =>
    rw [List.count_cons_of_ne (by decide)]
    exact ih h
  | case3 c cs hc t rest hnext ih =>
    obtain ⟨us, hus, rfl⟩ := Option.map_eq_some_iff.1 h
    rw [count_of_next? hnext, ih hus, List.count_cons, Nat.add_comm]
    simp
  | case4 c cs hc hnext => cases h

end ExprToken

/-- A text that is cut into tokens which read as an expression, also within a longer text. -/
def Readable (cs : List Char) : Prop := ∃ ts e, ExprToken.Cuts cs ts ∧ Reads 1 ts e

namespace Readable

variable {cs ds : List Char}

theorem enclosed (h : Readable cs) : Readable ('(' :: (cs ++ [')'])) := by
  obtain ⟨ts, e, hcuts, he⟩ := h
  rw [← String.toList_ofList (l := cs)] at hcuts
  have hcuts := hcuts.enclosed true
  have htext : (Expr.parenthesized true (String.ofList cs)).toList = '(' :: (cs ++ [')']) := by
    simp [Expr.parenthesized]
  rw [htext] at hcuts
  exact ⟨_, e, hcuts, (Reads.parens he).mono (by decide)⟩

theorem operator (h : Readable cs) (o : BinOp) (h' : Readable ds) :
    Readable (cs ++ ' ' :: (o.symbol.toList ++ ' ' :: ds)) := by
  obtain ⟨ts, l, hcs, hl⟩ := h
  obtain ⟨us, r, hds, hr⟩ := h'
  obtain ⟨e, he⟩ := hl.exists_join o hr
  exact ⟨_, e, hcs.operator hds o, he⟩

theorem exists_textReads {text : String} (h : Readable text.toList) :
    ∃ e, ∀ e', TextReads text e' ↔ e' = e := by
  obtain ⟨ts, e, hcuts, he⟩ := h
  have hend : ExprToken.EndsWord [] := by
    intro c hc
    cases hc
  have hscan : ExprToken.scan text.toList = some ts := by
    simpa [ExprToken.scan] using hcuts [] hend
  refine ⟨e, fun e' => ?_⟩
  constructor
  · rintro ⟨us, hus, he'⟩
    rw [hscan, Option.some_inj] at hus
    subst hus
    exact he'.unique he
  · rintro rfl
    exact ⟨ts, hscan, he⟩

end Readable

/-- A readable text whose parentheses have their partners, and which is readable without any pair. -/
structure Grouped (cs : List Char) : Prop where
  readable : Readable cs
  balanced : Balanced cs
  loosened : ∀ ds, DropsPair cs ds → Readable ds

namespace Grouped

variable {cs ds : List Char}

theorem of_notMem (h : Readable cs) (hopening : '(' ∉ cs) (hclosing : ')' ∉ cs) : Grouped cs where
  readable := h
  balanced := Text.balanced_of_notMem hopening hclosing
  loosened _ hdrop := absurd hdrop.mem hopening

theorem enclosed (h : Grouped cs) : Grouped ('(' :: (cs ++ [')'])) where
  readable := h.readable.enclosed
  balanced := h.balanced.enclosed
  loosened ds hdrop := by
    rcases hdrop.enclosed_cases h.balanced with rfl | ⟨cs', hcs', rfl⟩
    · exact h.readable
    · exact (h.loosened cs' hcs').enclosed

theorem parenthesized {s : String} (h : Grouped s.toList) (b : Bool) :
    Grouped (Expr.parenthesized b s).toList := by
  cases b with
  | false => exact h
  | true =>
    have htext : (Expr.parenthesized true s).toList = '(' :: (s.toList ++ [')']) := by
      simp [Expr.parenthesized]
    rw [htext]
    exact h.enclosed

theorem operator (h : Grouped cs) (o : BinOp) (h' : Grouped ds) :
    Grouped (cs ++ ' ' :: (o.symbol.toList ++ ' ' :: ds)) := by
  have hmiddle : ' ' :: (o.symbol.toList ++ ' ' :: ds) = ' ' :: (o.symbol.toList ++ [' ']) ++ ds := by
    simp
  have hopening : '(' ∉ ' ' :: (o.symbol.toList ++ [' ']) := by cases o <;> decide
  have hclosing : ')' ∉ ' ' :: (o.symbol.toList ++ [' ']) := by cases o <;> decide
  have hbalanced := Text.balanced_of_notMem hopening hclosing
  refine ⟨h.readable.operator o h'.readable, ?_, fun us hdrop => ?_⟩
  · rw [hmiddle]
    exact h.balanced.append (hbalanced.append h'.balanced)
  · rw [hmiddle] at hdrop
    rcases hdrop.append_cases h.balanced with ⟨cs', hcs', rfl⟩ | ⟨rest, hrest, rfl⟩
    · rw [← hmiddle]
      exact (h.loosened cs' hcs').operator o h'.readable
    · rcases hrest.append_cases hbalanced with ⟨middle, hdrop, -⟩ | ⟨ds', hds', rfl⟩
      · exact absurd hdrop.mem hopening
      · have htext : cs ++ (' ' :: (o.symbol.toList ++ [' ']) ++ ds') =
            cs ++ ' ' :: (o.symbol.toList ++ ' ' :: ds') := by simp
        rw [htext]
        exact h.readable.operator o (h'.loosened ds' hds')

end Grouped

namespace Expr

theorem notMem_word {c : Char} (hc : Text.isWordChar c = false) {cs : List Char}
    (h : ∀ x ∈ cs, Text.isWordChar x = true) : c ∉ cs := fun hmem =>
  absurd (h c hmem) (by rw [hc]; decide)

theorem grouped_word {cs : List Char} (hword : ∀ c ∈ cs, Text.isWordChar c = true)
    (h : Readable cs) : Grouped cs :=
  .of_notMem h (notMem_word (by decide) hword) (notMem_word (by decide) hword)

theorem readable_render {e : Expr} (h : e.WellSpelled) : Readable e.render.toList :=
  ⟨e.tokens, e, cuts_render h, (reads_tokens h).mono e.precedence_pos⟩

theorem grouped_render {e : Expr} (h : e.WellSpelled) : Grouped e.render.toList := by
  induction e with
  | var name =>
    have hword := List.all_eq_true.1 (Text.all_isWordChar_of_isIdentifier h)
    exact grouped_word hword (readable_render h)
  | const value =>
    obtain ⟨n, rfl⟩ := Int.eq_ofNat_of_zero_le h
    have hdigits : (const (n : Int)).render.toList = Nat.toDigits 10 n :=
      Numeral.toList_repr_ofNat n
    refine grouped_word (fun c hc => ?_) (readable_render h)
    rw [hdigits] at hc
    exact Text.isWordChar_of_isDigit (Numeral.isDigit_of_mem_toDigits hc)
  | bin op lhs rhs ihl ihr =>
    have hl := (ihl h.1).parenthesized (lhs.precedence < op.precedence)
    have hr := (ihr h.2).parenthesized (rhs.precedence ≤ op.precedence)
    have hbin := hl.operator op hr
    simpa [render] using hbin

theorem count_render_le {e : Expr} (h : e.WellSpelled) {text : String} (hread : TextReads text e) :
    e.render.toList.count '(' ≤ text.toList.count '(' := by
  obtain ⟨ts, hts, hread⟩ := hread
  have hle := hread.openings_le
  have hlevel : ¬ e.precedence < 1 := Nat.not_lt.2 e.precedence_pos
  rw [ExprToken.count_enclosed, if_neg hlevel, Nat.add_zero] at hle
  rwa [ExprToken.count_of_scan (scan_render h), ExprToken.count_of_scan hts]

/-- The text of an expression has the fewest parentheses: without any one pair of them it reads as
another expression, and every text that reads as this one has as many pairs at least. -/
theorem fewest_parentheses {e : Expr} (h : e.WellSpelled) :
    (∀ text : String, DropsPair e.render.toList text.toList →
      ∃ e', e' ≠ e ∧ ∀ e'', TextReads text e'' ↔ e'' = e') ∧
    ∀ text : String, TextReads text e → e.render.toList.count '(' ≤ text.toList.count '(' := by
  refine ⟨fun text hdrop => ?_, fun text hread => count_render_le h hread⟩
  obtain ⟨e', he'⟩ := ((grouped_render h).loosened text.toList hdrop).exists_textReads
  refine ⟨e', ?_, he'⟩
  rintro rfl
  have hle := count_render_le h ((he' e').2 rfl)
  rw [hdrop.count_eq] at hle
  omega

/-- Without the inner pair the quotient is divided first. -/
theorem fewest_parentheses_quotient : ∃ e : Expr, e.WellSpelled ∧
    e.render = "(a + b) * (c / (d * 2))" ∧
    DropsPair e.render.toList "(a + b) * (c / d * 2)".toList ∧
    ¬ TextReads "(a + b) * (c / d * 2)" e ∧ (∃ e', TextReads "(a + b) * (c / d * 2)" e') ∧
    ¬ TextReads "(a + b) * c / d * 2" e := by
  let e : Expr := (.var "a" + .var "b") * (.var "c" / (.var "d" * .const 2))
  have h : e.WellSpelled := by decide
  have htext : e.render = "(a + b) * (c / (d * 2))" := by decide
  obtain ⟨hpairs, hcount⟩ := fewest_parentheses h
  have hdrop : DropsPair e.render.toList "(a + b) * (c / d * 2)".toList :=
    ⟨"(a + b) * (c / ".toList, "d * 2".toList, ")".toList, by decide, by decide, by decide⟩
  obtain ⟨e', hne, he'⟩ := hpairs _ hdrop
  refine ⟨e, h, htext, hdrop, fun hread => hne ((he' e).1 hread).symm, ⟨e', (he' e').2 rfl⟩,
    fun hread => ?_⟩
  have hle := hcount _ hread
  rw [htext] at hle
  exact absurd hle (by decide)

end Expr

end TensorKernels
