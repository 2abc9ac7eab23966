set_option autoImplicit false

namespace TensorKernels.Text

def isWordChar (c : Char) : Bool := c.isAlphanum || c == '_'

def isIdentifier : List Char → Bool
  | [] => false
  | c :: cs => isWordChar c && !c.isDigit && cs.all isWordChar

theorem isWordChar_of_isDigit {c : Char} (h : c.isDigit = true) : isWordChar c = true := by
  simp [isWordChar, Char.isAlphanum, h]

theorem all_isWordChar_of_isIdentifier {cs : List Char} (h : isIdentifier cs = true) :
    cs.all isWordChar = true := by
  cases cs <;> simp_all [isIdentifier]

/-- The twenty-five code points with the property `White_Space`. -/
def blankPoints : List Nat :=
  [0x09, 0x0A, 0x0B, 0x0C, 0x0D, 0x20, 0x85, 0xA0, 0x1680, 0x2000, 0x2001, 0x2002, 0x2003, 0x2004,
    0x2005, 0x2006, 0x2007, 0x2008, 0x2009, 0x200A, 0x2028, 0x2029, 0x202F, 0x205F, 0x3000]

def isBlank (c : Char) : Bool := blankPoints.contains c.toNat

/-- What is left once the longest stretch of members of `p` is taken off both ends. -/
def stripBoth (p : Char → Bool) (cs : List Char) : List Char :=
  ((cs.dropWhile p).reverse.dropWhile p).reverse

def trim (cs : List Char) : List Char := stripBoth isBlank cs

/-- The number with these digits. There has to be one digit at least; leading zeros are allowed. -/
def readDigits? (cs : List Char) : Option Nat :=
  if cs ≠ [] ∧ cs.all Char.isDigit then some (Nat.ofDigitChars 10 cs 0) else none

theorem readDigits?_toDigits (n : Nat) : readDigits? (Nat.toDigits 10 n) = some n := by
  have h : ((Nat.toDigits 10 n).all Char.isDigit) = true := by
    simpa using fun c hc => Nat.isDigit_of_mem_toDigits (by decide) (by decide) hc
  simp [readDigits?, h, Nat.ofDigitChars_toDigits]

def readNat? : List Char → Option Nat
  | '+' :: cs => readDigits? cs
  | cs => readDigits? cs

def readInt? : List Char → Option Int
  | '-' :: cs => (readDigits? cs).map fun n => -(n : Int)
  | cs => (readNat? cs).map Int.ofNat

def hexByte (b : UInt8) : List Char :=
  [Nat.digitChar (b.toNat / 16), Nat.digitChar (b.toNat % 16)]

def hex (bs : List UInt8) : String := String.ofList (bs.flatMap hexByte)

/-- The low bytes of `n`, the least significant first. -/
def littleEndian : Nat → Nat → List UInt8
  | 0, _ => []
  | k + 1, n => UInt8.ofNat (n % 256) :: littleEndian k (n / 256)

@[simp] theorem length_littleEndian (k n : Nat) : (littleEndian k n).length = k := by
  induction k generalizing n with
  | zero => rfl
  | succ k ih => simp [littleEndian, ih]

variable {α : Type} [DecidableEq α]

def firstRepeat? (seen : List α) : List α → Option α
  | [] => none
  | a :: as => if a ∈ seen then some a else firstRepeat? (a :: seen) as

theorem firstRepeat?_eq_none {seen as : List α} :
    firstRepeat? seen as = none ↔ as.Nodup ∧ ∀ a ∈ as, a ∉ seen := by
  induction as generalizing seen with
  | nil => simp [firstRepeat?]
  | cons a as ih =>
    by_cases h : a ∈ seen
    · simp [firstRepeat?, h]
    · simp only [firstRepeat?, h, if_false, ih, List.nodup_cons, List.mem_cons, not_or]
      constructor
      · rintro ⟨hn, hs⟩
        refine ⟨⟨fun ha => (hs a ha).1 rfl, hn⟩, ?_⟩
        rintro b (rfl | hb)
        · exact h
        · exact (hs b hb).2
      · rintro ⟨⟨ha, hn⟩, hs⟩
        exact ⟨hn, fun b hb => ⟨fun e => ha (e ▸ hb), hs b (.inr hb)⟩⟩

theorem nodup_of_firstRepeat? {as : List α} (h : firstRepeat? [] as = none) : as.Nodup :=
  (firstRepeat?_eq_none.1 h).1

theorem firstRepeat?_eq_some {seen as : List α} {a : α} (h : firstRepeat? seen as = some a) :
    ∃ before after, as = before ++ a :: after ∧ (a ∈ seen ∨ a ∈ before) ∧
      firstRepeat? seen before = none := by
  induction as generalizing seen with
  | nil => cases h
  | cons b as ih =>
    by_cases hb : b ∈ seen
    · rw [firstRepeat?, if_pos hb, Option.some_inj] at h
      subst h
      exact ⟨[], as, rfl, .inl hb, rfl⟩
    · rw [firstRepeat?, if_neg hb] at h
      obtain ⟨before, after, rfl, hmem, hnone⟩ := ih h
      refine ⟨b :: before, after, rfl, ?_, by rw [firstRepeat?, if_neg hb, hnone]⟩
      rcases hmem with hmem | hmem
      · rcases List.mem_cons.1 hmem with rfl | hmem
        · exact .inr List.mem_cons_self
        · exact .inl hmem
      · exact .inr (List.mem_cons_of_mem b hmem)

end TensorKernels.Text
