import TensorKernels.Index.Map
import TensorKernels.Text

/-! How a device compiler reads the text of an expression, and what it computes from it. The text is
cut into names, numbers, operators and parentheses, which blanks may separate; the grammar relates
tokens to trees, with a level for each strength of binding, and to values without a tree. -/

set_option autoImplicit false

namespace TensorKernels

inductive ExprToken
  | name (s : String)
  | number (n : Nat)
  | op (o : BinOp)
  | opening
  | closing
  deriving DecidableEq, Repr

namespace ExprToken

def punctuation? : Char → Option ExprToken
  | '+' => some (op .add)
  | '*' => some (op .mul)
  | '/' => some (op .div)
  | '%' => some (op .rem)
  | '(' => some opening
  | ')' => some closing
  | _ => none

def word? (cs : List Char) : Option ExprToken :=
  if Text.isIdentifier cs then some (name (String.ofList cs))
  else if cs.head? = some '0' ∧ cs ≠ ['0'] then none
  else (Text.readDigits? cs).map number

/-- The first token of a text that starts with `c`, and what follows; a word is as long as it can be. -/
def next? (c : Char) (cs : List Char) : Option (ExprToken × List Char) :=
  match punctuation? c with
  | some t => some (t, cs)
  | none =>
    (word? (c :: cs.takeWhile Text.isWordChar)).map fun t => (t, cs.dropWhile Text.isWordChar)

theorem length_le_of_next? {c : Char} {cs rest : List Char} {t : ExprToken}
    (h : next? c cs = some (t, rest)) : rest.length ≤ cs.length := by
  unfold next? at h
  split at h
  · simp_all
  · obtain ⟨u, -, e⟩ := Option.map_eq_some_iff.1 h
    simp only [Prod.mk.injEq] at e
    obtain ⟨-, rfl⟩ := e
    exact (List.dropWhile_sublist _).length_le

def scan : List Char → Option (List ExprToken)
  | [] => some []
  | c :: cs =>
    if c = ' ' then scan cs
    else
      match _h : next? c cs with
      | some (t, rest) => (scan rest).map (t :: ·)
      | none => none
termination_by cs => cs.length
decreasing_by
  · simp
  · have := length_le_of_next? _h
    simp only [List.length_cons]
    omega

end ExprToken

/-- `Reads k ts e` says that the tokens `ts` read as `e` where only operators of level `k` or above
may stand outside parentheses. A leaf has the level above all operators. -/
inductive Reads : Nat → List ExprToken → Expr → Prop
  | name (s : String) : Reads 3 [.name s] (.var s)
  | number (n : Nat) : Reads 3 [.number n] (.const n)
  | parens {ts : List ExprToken} {e : Expr} :
    Reads 1 ts e → Reads 3 (.opening :: ts ++ [.closing]) e
  | op {o : BinOp} {ts us : List ExprToken} {l r : Expr} :
    Reads o.precedence ts l → Reads (o.precedence + 1) us r →
      Reads o.precedence (ts ++ .op o :: us) (.bin o l r)
  | tighter {k : Nat} {ts : List ExprToken} {e : Expr} : Reads (k + 1) ts e → Reads k ts e

namespace Reads

theorem of_add {j d : Nat} {ts : List ExprToken} {e : Expr} (h : Reads (j + d) ts e) :
    Reads j ts e := by
  induction d with
  | zero => exact h
  | succ d ih => exact ih (tighter h)

theorem mono {j k : Nat} {ts : List ExprToken} {e : Expr} (h : Reads k ts e) (hjk : j ≤ k) :
    Reads j ts e :=
  of_add (d := k - j) (by rwa [Nat.add_sub_cancel' hjk])

end Reads

def IsInt64 (n : Int) : Prop := -9223372036854775808 ≤ n ∧ n ≤ 9223372036854775807

/-- The fraction of a quotient is discarded, so what remains has the sign of the dividend. -/
structure DividesTo (a b quotient remainder : Int) : Prop where
  divisor : b ≠ 0
  dividend : quotient * b + remainder = a
  small : remainder.natAbs < b.natAbs
  nonneg : 0 ≤ a → 0 ≤ remainder
  nonpos : a ≤ 0 → remainder ≤ 0

/-- A remainder is defined where the quotient is. -/
inductive BinOp.Yields : BinOp → Int → Int → Int → Prop
  | add {a b : Int} : IsInt64 (a + b) → Yields .add a b (a + b)
  | mul {a b : Int} : IsInt64 (a * b) → Yields .mul a b (a * b)
  | div {a b q r : Int} : DividesTo a b q r → IsInt64 q → Yields .div a b q
  | rem {a b q r : Int} : DividesTo a b q r → IsInt64 q → Yields .rem a b r

/-- `Evaluates env k ts n` says that the tokens `ts` have the value `n` where only operators of level
`k` or above may stand outside parentheses. -/
inductive Evaluates (env : Bindings) : Nat → List ExprToken → Int → Prop
  | name {s : String} {n : Int} : env.get? s = some n → Evaluates env 3 [.name s] n
  | number (n : Nat) : Evaluates env 3 [.number n] n
  | parens {ts : List ExprToken} {n : Int} :
    Evaluates env 1 ts n → Evaluates env 3 (.opening :: ts ++ [.closing]) n
  | op {o : BinOp} {ts us : List ExprToken} {a b n : Int} :
    Evaluates env o.precedence ts a → Evaluates env (o.precedence + 1) us b → o.Yields a b n →
      Evaluates env o.precedence (ts ++ .op o :: us) n
  | tighter {k : Nat} {ts : List ExprToken} {n : Int} :
    Evaluates env (k + 1) ts n → Evaluates env k ts n

def TextReads (text : String) (e : Expr) : Prop :=
  ∃ ts, ExprToken.scan text.toList = some ts ∧ Reads 1 ts e

def TextEvaluates (env : Bindings) (text : String) (n : Int) : Prop :=
  ∃ ts, ExprToken.scan text.toList = some ts ∧ Evaluates env 1 ts n

end TensorKernels
