import TensorKernels.Index.Grammar
import TensorKernels.Proofs.Index.Unambiguous
import TensorKernels.Proofs.Json.Spelling

set_option autoImplicit false

namespace TensorKernels

/-- The names are identifiers, and no number needs a sign. -/
def Expr.WellSpelled : Expr → Prop
  | .var name => Text.isIdentifier name.toList = true
  | .const value => 0 ≤ value
  | .bin _ lhs rhs => lhs.WellSpelled ∧ rhs.WellSpelled

instance Expr.decidableWellSpelled : DecidablePred WellSpelled
  | .var name => inferInstanceAs (Decidable (Text.isIdentifier name.toList = true))
  | .const value => inferInstanceAs (Decidable (0 ≤ value))
  | .bin _ lhs rhs =>
    haveI := decidableWellSpelled lhs
    haveI := decidableWellSpelled rhs
    inferInstanceAs (Decidable (lhs.WellSpelled ∧ rhs.WellSpelled))

namespace ExprToken

def enclosed (b : Bool) (ts : List ExprToken) : List ExprToken :=
  if b then opening :: ts ++ [closing] else ts

def EndsWord (rest : List Char) : Prop := ∀ c ∈ rest.head?, Text.isWordChar c = false

/-- The characters are cut into the tokens, whatever comes after them that is no part of a word. -/
def Cuts (cs : List Char) (ts : List ExprToken) : Prop :=
  ∀ rest, EndsWord rest → scan (cs ++ rest) = (scan rest).map (ts ++ ·)

theorem punctuation?_of_isWordChar {c : Char} (h : Text.isWordChar c = true) :
    punctuation? c = none := by
  unfold punctuation?
  split <;> first | rfl | exact absurd h (by decide)

theorem scan_cons {c : Char} {cs rest : List Char} {t : ExprToken} (hc : c ≠ ' ')
    (h : next? c cs = some (t, rest)) : scan (c :: cs) = (scan rest).map (t :: ·) := by
  rw [scan, if_neg hc]
  split
  · next ht =>
    cases h.symm.trans ht
    rfl
  · next hn => cases h.symm.trans hn

theorem scan_blank (cs : List Char) : scan (' ' :: cs) = scan cs := by
  rw [scan, if_pos rfl]

theorem next?_punctuation {c : Char} {t : ExprToken} (h : punctuation? c = some t)
    (cs : List Char) : next? c cs = some (t, cs) := by
  unfold next?
  rw [h]

theorem cuts_word {c : Char} {w : List Char} {t : ExprToken}
    (hw : ∀ x ∈ c :: w, Text.isWordChar x = true) (h : word? (c :: w) = some t) :
    Cuts (c :: w) [t] := by
  intro rest hrest
  rw [List.forall_mem_cons] at hw
  obtain ⟨htake, hdrop⟩ := span_append hw.2 hrest
  have hnext : next? c (w ++ rest) = some (t, rest) := by
    unfold next?
    rw [punctuation?_of_isWordChar hw.1, htake, hdrop, h]
    rfl
  have hblank : c ≠ ' ' := by
    rintro rfl
    exact absurd hw.1 (by decide)
  exact scan_cons hblank hnext

theorem cuts_name {s : String} (h : Text.isIdentifier s.toList = true) : Cuts s.toList [name s] := by
  have hall := List.all_eq_true.1 (Text.all_isWordChar_of_isIdentifier h)
  have hword : word? s.toList = some (name s) := by
    rw [word?, if_pos h, String.ofList_toList]
  cases hs : s.toList with
  | nil =>
    rw [hs] at h
    cases h
  | cons c w =>
    rw [hs] at hall hword
    exact cuts_word hall hword

theorem word?_toDigits (n : Nat) : word? (Nat.toDigits 10 n) = some (number n) := by
  have hdigits : ∀ c ∈ Nat.toDigits 10 n, c.isDigit = true := fun _ =>
    Numeral.isDigit_of_mem_toDigits
  have hidentifier : ¬ Text.isIdentifier (Nat.toDigits 10 n) = true := by
    cases hcs : Nat.toDigits 10 n with
    | nil => decide
    | cons c cs =>
      have hc := hdigits c (hcs ▸ List.mem_cons_self)
      simp [Text.isIdentifier, hc]
  have hzero : ¬ ((Nat.toDigits 10 n).head? = some '0' ∧ Nat.toDigits 10 n ≠ ['0']) := by
    rintro ⟨hhead, hne⟩
    rcases Nat.eq_zero_or_pos n with rfl | hn
    · exact hne rfl
    · obtain ⟨c, cs, hcs, hc⟩ := Numeral.exists_toDigits_cons hn
      rw [hcs] at hhead
      exact hc (Option.some.inj hhead)
  rw [word?, if_neg hidentifier, if_neg hzero, Text.readDigits?_toDigits]
  rfl

theorem cuts_number (n : Nat) : Cuts (Nat.toDigits 10 n) [number n] := by
  have hword := word?_toDigits n
  have hdigits : ∀ c ∈ Nat.toDigits 10 n, Text.isWordChar c = true := fun _ hc =>
    Text.isWordChar_of_isDigit (Numeral.isDigit_of_mem_toDigits hc)
  cases hcs : Nat.toDigits 10 n with
  | nil =>
    rw [hcs] at hword
    cases hword
  | cons c cs =>
    rw [hcs] at hword hdigits
    exact cuts_word hdigits hword

theorem Cuts.enclosed {s : String} {ts : List ExprToken} (h : Cuts s.toList ts) (b : Bool) :
    Cuts (Expr.parenthesized b s).toList (enclosed b ts) := by
  cases b with
  | false => exact h
  | true =>
    intro rest hrest
    have hclose : scan (')' :: rest) = (scan rest).map (closing :: ·) :=
      scan_cons (by decide) (next?_punctuation rfl rest)
    have hopen : scan ('(' :: (s.toList ++ ')' :: rest)) = _ :=
      scan_cons (by decide) (next?_punctuation rfl _)
    have htext : (Expr.parenthesized true s).toList ++ rest = '(' :: (s.toList ++ ')' :: rest) := by
      simp [Expr.parenthesized]
    rw [htext, hopen, h _ (by rintro _ ⟨⟩; decide), hclose]
    simp [ExprToken.enclosed, Function.comp_def]

theorem Cuts.operator {cs ds : List Char} {ts us : List ExprToken} (hcs : Cuts cs ts)
    (hds : Cuts ds us) (o : BinOp) :
    Cuts (cs ++ ' ' :: (o.symbol.toList ++ ' ' :: ds)) (ts ++ op o :: us) := by
  intro rest hrest
  have hop : scan (o.symbol.toList ++ (' ' :: (ds ++ rest))) =
      (scan (' ' :: (ds ++ rest))).map (op o :: ·) := by
    cases o <;> exact scan_cons (by decide) (next?_punctuation rfl _)
  calc scan (cs ++ ' ' :: (o.symbol.toList ++ ' ' :: ds) ++ rest)
    _ = scan (cs ++ ' ' :: (o.symbol.toList ++ ' ' :: (ds ++ rest))) := by
      rw [List.append_assoc, List.cons_append, List.append_assoc, List.cons_append]
    _ = (scan (' ' :: (o.symbol.toList ++ ' ' :: (ds ++ rest)))).map (ts ++ ·) :=
      hcs _ (by rintro _ ⟨⟩; decide)
    _ = ((scan (ds ++ rest)).map (op o :: ·)).map (ts ++ ·) := by rw [scan_blank, hop, scan_blank]
    _ = (((scan rest).map (us ++ ·)).map (op o :: ·)).map (ts ++ ·) := by rw [hds rest hrest]
    _ = (scan rest).map (ts ++ op o :: us ++ ·) := by simp [Function.comp_def]

end ExprToken

def Expr.tokens : Expr → List ExprToken
  | .var name => [.name name]
  | .const value => [.number value.toNat]
  | .bin op lhs rhs =>
    ExprToken.enclosed (lhs.precedence < op.precedence) lhs.tokens ++ .op op ::
      ExprToken.enclosed (rhs.precedence ≤ op.precedence) rhs.tokens

namespace Expr

open ExprToken

theorem cuts_render {e : Expr} (h : e.WellSpelled) : Cuts e.render.toList e.tokens := by
  induction e with
  | var name => exact cuts_name h
  | const value =>
    obtain ⟨n, rfl⟩ := Int.eq_ofNat_of_zero_le h
    change Cuts (Int.ofNat n).repr.toList _
    rw [Numeral.toList_repr_ofNat]
    exact cuts_number n
  | bin op lhs rhs ihl ihr =>
    have hl := (ihl h.1).enclosed (lhs.precedence < op.precedence)
    have hr := (ihr h.2).enclosed (rhs.precedence ≤ op.precedence)
    have hbin := hl.operator hr op
    simpa [render, tokens] using hbin

theorem scan_render {e : Expr} (h : e.WellSpelled) : scan e.render.toList = some e.tokens := by
  have hscan := cuts_render h [] nofun
  simpa [scan] using hscan

theorem precedence_pos (e : Expr) : 1 ≤ e.precedence := by
  cases e with
  | bin op _ _ => cases op <;> exact Nat.le_add_left 1 _
  | _ => exact Nat.le_add_left 1 2

theorem reads_enclosed {e : Expr} {ts : List ExprToken} {k : Nat} {b : Bool}
    (h : Reads e.precedence ts e) (hk : k ≤ 3) (hb : b = false → k ≤ e.precedence) :
    Reads k (enclosed b ts) e := by
  cases b with
  | false => exact h.mono (hb rfl)
  | true => exact (Reads.parens (h.mono e.precedence_pos)).mono hk

theorem reads_tokens {e : Expr} (h : e.WellSpelled) : Reads e.precedence e.tokens e := by
  induction e with
  | var name => exact .name name
  | const value =>
    have hread := Reads.number value.toNat
    rwa [Int.toNat_of_nonneg h] at hread
  | bin op lhs rhs ihl ihr =>
    have hop := op.precedence_lt
    refine .op (reads_enclosed (ihl h.1) (Nat.le_of_lt hop) fun hb => ?_)
      (reads_enclosed (ihr h.2) hop fun hb => ?_)
    · exact Nat.le_of_not_lt (of_decide_eq_false hb)
    · exact Nat.lt_of_not_le (of_decide_eq_false hb)

theorem textReads_render_iff {e : Expr} (h : e.WellSpelled) (e' : Expr) :
    TextReads e.render e' ↔ e' = e := by
  have hread : Reads 1 e.tokens e := (reads_tokens h).mono e.precedence_pos
  constructor
  · rintro ⟨ts, hts, hread'⟩
    rw [scan_render h, Option.some_inj] at hts
    subst hts
    exact hread'.unique hread
  · rintro rfl
    exact ⟨_, scan_render h, hread⟩

end Expr

theorem dividesTo_iff {a b q r : Int} :
    DividesTo a b q r ↔ b ≠ 0 ∧ q = a.tdiv b ∧ r = a.tmod b := by
  constructor
  · rintro ⟨hb, ha, hsmall, hnonneg, hnonpos⟩
    refine ⟨hb, ?_⟩
    have hdividend : r + b * q = a := by rw [Int.add_comm, Int.mul_comm, ha]
    rcases Int.le_total 0 a with h | h
    · have hr := hnonneg h
      obtain ⟨hq, hr⟩ := (Int.tdiv_tmod_unique h hb).2 ⟨hdividend, hr, by omega⟩
      exact ⟨hq.symm, hr.symm⟩
    · have hr := hnonpos h
      obtain ⟨hq, hr⟩ := (Int.tdiv_tmod_unique' h hb).2 ⟨hdividend, by omega, hr⟩
      exact ⟨hq.symm, hr.symm⟩
  · rintro ⟨hb, rfl, rfl⟩
    refine ⟨hb, Int.tdiv_mul_add_tmod a b, ?_, Int.tmod_nonneg b, fun h => ?_⟩
    · rw [Int.natAbs_tmod]
      exact Nat.mod_lt _ (Int.natAbs_pos.2 hb)
    · exact ((Int.tdiv_tmod_unique' h hb).1 ⟨rfl, rfl⟩).2.2

theorem BinOp.yields_iff {o : BinOp} {a b n : Int} : o.Yields a b n ↔ o.value? a b = some n := by
  constructor
  · rintro (h | h | ⟨h, hq⟩ | ⟨h, hq⟩)
    · exact int64?_eq_some.2 ⟨rfl, h⟩
    · exact int64?_eq_some.2 ⟨rfl, h⟩
    · obtain ⟨hb, rfl, -⟩ := dividesTo_iff.1 h
      rw [value?, if_neg hb]
      exact int64?_eq_some.2 ⟨rfl, hq⟩
    · obtain ⟨hb, rfl, rfl⟩ := dividesTo_iff.1 h
      rw [value?, if_neg hb, int64?_eq_some.2 ⟨rfl, hq⟩]
      rfl
  · intro h
    cases o with
    | add =>
      obtain ⟨rfl, hn⟩ := int64?_eq_some.1 h
      exact .add hn
    | mul =>
      obtain ⟨rfl, hn⟩ := int64?_eq_some.1 h
      exact .mul hn
    | div =>
      rw [value?] at h
      split at h
      · cases h
      · next hb =>
        obtain ⟨rfl, hn⟩ := int64?_eq_some.1 h
        exact .div (dividesTo_iff.2 ⟨hb, rfl, rfl⟩) hn
    | rem =>
      rw [value?] at h
      split at h
      · cases h
      · next hb =>
        obtain ⟨q, hq, rfl⟩ := Option.map_eq_some_iff.1 h
        obtain ⟨rfl, hn⟩ := int64?_eq_some.1 hq
        exact .rem (dividesTo_iff.2 ⟨hb, rfl, rfl⟩) hn

theorem Expr.eval_bin_eq_some {env : Bindings} {op : BinOp} {lhs rhs : Expr} {n : Int} :
    (bin op lhs rhs).eval env = some n ↔
      ∃ a b, lhs.eval env = some a ∧ rhs.eval env = some b ∧ op.value? a b = some n := by
  simp [eval, Option.bind_eq_some_iff]

/-- The value of tokens is the value of the tree that they read as. -/
theorem evaluates_iff {env : Bindings} {k : Nat} {ts : List ExprToken} {n : Int} :
    Evaluates env k ts n ↔ ∃ e, Reads k ts e ∧ e.eval env = some n := by
  constructor
  · intro h
    induction h with
    | @name s n hs => exact ⟨.var s, .name s, hs⟩
    | number m => exact ⟨.const m, .number m, rfl⟩
    | parens _ ih =>
      obtain ⟨e, hread, he⟩ := ih
      exact ⟨e, .parens hread, he⟩
    | op _ _ hop ihl ihr =>
      obtain ⟨l, hl, hlv⟩ := ihl
      obtain ⟨r, hr, hrv⟩ := ihr
      exact ⟨_, .op hl hr, Expr.eval_bin_eq_some.2 ⟨_, _, hlv, hrv, BinOp.yields_iff.1 hop⟩⟩
    | tighter _ ih =>
      obtain ⟨e, hread, he⟩ := ih
      exact ⟨e, .tighter hread, he⟩
  · rintro ⟨e, hread, he⟩
    induction hread generalizing n with
    | name s => exact .name he
    | number m =>
      cases he
      exact .number m
    | parens _ ih => exact .parens (ih he)
    | op _ _ ihl ihr =>
      obtain ⟨a, b, ha, hb, hop⟩ := Expr.eval_bin_eq_some.1 he
      exact .op (ihl ha) (ihr hb) (BinOp.yields_iff.2 hop)
    | tighter _ ih => exact .tighter (ih he)

namespace Expr

theorem textEvaluates_iff {env : Bindings} {text : String} {n : Int} :
    TextEvaluates env text n ↔ ∃ e, TextReads text e ∧ e.eval env = some n := by
  constructor
  · rintro ⟨ts, hts, hvalue⟩
    obtain ⟨e, hread, he⟩ := evaluates_iff.1 hvalue
    exact ⟨e, ⟨ts, hts, hread⟩, he⟩
  · rintro ⟨e, ⟨ts, hts, hread⟩, he⟩
    exact ⟨ts, hts, evaluates_iff.2 ⟨e, hread, he⟩⟩

/-- The text of an expression reads as this expression alone; so no other expression has the text, and
the value of the text is that of the expression. -/
theorem reads_back {e : Expr} (h : e.WellSpelled) :
    (∀ e', TextReads e.render e' ↔ e' = e) ∧
    (∀ e' : Expr, e'.WellSpelled → e'.render = e.render → e' = e) ∧
    ∀ env n, TextEvaluates env e.render n ↔ e.eval env = some n := by
  have hread := textReads_render_iff h
  refine ⟨hread, fun e' h' htext => ?_, fun env n => ?_⟩
  · rw [← hread e', ← htext, textReads_render_iff h']
  · rw [textEvaluates_iff]
    simp [hread]

/-- Parentheses on the right keep a product below a quotient, and the remainder of a negative number
is negative. -/
theorem reads_back_quotient_of_product :
    TextReads "a / (b * 3) + x % y" (.var "a" / (.var "b" * .const 3) + .var "x" % .var "y") ∧
      ¬ TextReads "a / (b * 3) + x % y" (.var "a" / .var "b" * .const 3 + .var "x" % .var "y") ∧
      TextEvaluates (.ofList [("a", 7), ("b", 1), ("x", -7), ("y", 2)]) "a / (b * 3) + x % y" 1 := by
  let e : Expr := .var "a" / (.var "b" * .const 3) + .var "x" % .var "y"
  have h : e.WellSpelled := by decide
  obtain ⟨hread, -, hvalue⟩ := reads_back h
  have htext : e.render = "a / (b * 3) + x % y" := by decide
  rw [htext] at hread hvalue
  refine ⟨(hread e).2 rfl, fun hne => ?_, (hvalue _ 1).2 (by decide)⟩
  exact absurd ((hread _).1 hne) (by decide)

end Expr

end TensorKernels
