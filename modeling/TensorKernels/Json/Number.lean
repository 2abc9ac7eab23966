import TensorKernels.Text
import TensorKernels.Word

set_option autoImplicit false

namespace TensorKernels

structure Numeral where
  negative : Bool
  whole : List Char
  fraction : List Char
  exponent : Option Int

namespace Numeral

def isMark (c : Char) : Bool :=
  c.isDigit || c == '-' || c == '+' || c == '.' || c == 'e' || c == 'E'

def isIntegral : List Char → Bool
  | [] => false
  | '0' :: ds => ds.isEmpty
  | _ => true

def exponent? : List Char → Option (Option Int)
  | [] => some none
  | c :: cs => if c = 'e' ∨ c = 'E' then (Text.readInt? cs).map some else none

def tail? : List Char → Option (List Char × Option Int)
  | '.' :: cs =>
    let fraction := cs.takeWhile Char.isDigit
    if fraction.isEmpty then none
    else (exponent? (cs.dropWhile Char.isDigit)).map (fraction, ·)
  | cs => (exponent? cs).map ([], ·)

def unsigned? (negative : Bool) (cs : List Char) : Option Numeral :=
  let whole := cs.takeWhile Char.isDigit
  if isIntegral whole then
    (tail? (cs.dropWhile Char.isDigit)).map fun (fraction, exponent) =>
      ⟨negative, whole, fraction, exponent⟩
  else none

def ofLiteral? : List Char → Option Numeral
  | '-' :: cs => unsigned? true cs
  | cs => unsigned? false cs

/-- The integer that a number without fraction and exponent is. The negative zero is none. -/
def integer? (n : Numeral) : Option Int :=
  if n.fraction.isEmpty && n.exponent.isNone then
    match n.negative, Nat.ofDigitChars 10 n.whole 0 with
    | true, 0 => none
    | true, m => some (-(m : Int))
    | false, m => some m
  else none

/-- Takes in digits as long as 64 bits hold the number, and counts them. -/
def absorb (m : Nat) : List Char → Nat × Nat
  | [] => (m, 0)
  | c :: cs =>
    let next := 10 * m + (c.toNat - '0'.toNat)
    if next ≤ 18446744073709551615 then
      let (m, count) := absorb next cs
      (m, count + 1)
    else (m, 0)

theorem le_ofDigitChars (m : Nat) (cs : List Char) : m ≤ Nat.ofDigitChars 10 cs m := by
  induction cs generalizing m with
  | nil => simp
  | cons c cs ih =>
    rw [Nat.ofDigitChars_cons]
    have := ih (10 * m + (c.toNat - '0'.toNat))
    omega

theorem absorb_eq {m : Nat} {cs : List Char}
    (h : Nat.ofDigitChars 10 cs m ≤ 18446744073709551615) :
    absorb m cs = (Nat.ofDigitChars 10 cs m, cs.length) := by
  induction cs generalizing m with
  | nil => simp [absorb]
  | cons c cs ih =>
    rw [Nat.ofDigitChars_cons] at h ⊢
    have := le_ofDigitChars (10 * m + (c.toNat - '0'.toNat)) cs
    rw [absorb]
    simp only [ih h]
    rw [if_pos (by omega)]
    rfl

def inRange (n : Numeral) : Bool :=
  let (m, i) := absorb 0 n.whole
  let (m, j) := absorb m n.fraction
  Binary64.inRange m (n.whole.length - i - j + n.exponent.getD 0)

theorem inRange_integer (negative : Bool) {whole : List Char}
    (h : Nat.ofDigitChars 10 whole 0 ≤ 18446744073709551615) :
    inRange ⟨negative, whole, [], none⟩ = true := by
  simpa [inRange, absorb_eq h, absorb] using Binary64.inRange_word h

end Numeral

end TensorKernels
