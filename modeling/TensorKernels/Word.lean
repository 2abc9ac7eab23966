set_option autoImplicit false

namespace TensorKernels

def uint32? (n : Int) : Option UInt32 :=
  if 0 ≤ n ∧ n ≤ 4294967295 then some (UInt32.ofNat n.toNat) else none

def int32? (n : Int) : Option Int32 :=
  if -2147483648 ≤ n ∧ n ≤ 2147483647 then some (Int32.ofInt n) else none

def int64? (n : Int) : Option Int :=
  if -9223372036854775808 ≤ n ∧ n ≤ 9223372036854775807 then some n else none

theorem isSome_uint32? {n : Int} : (uint32? n).isSome ↔ 0 ≤ n ∧ n ≤ 4294967295 := by
  unfold uint32?
  split <;> simp_all

theorem isSome_int32? {n : Int} : (int32? n).isSome ↔ -2147483648 ≤ n ∧ n ≤ 2147483647 := by
  unfold int32?
  split <;> simp_all

theorem toNat_of_uint32? {n : Int} {w : UInt32} (h : uint32? n = some w) : (w.toNat : Int) = n := by
  unfold uint32? at h
  split at h
  · next hn =>
    cases h
    rw [UInt32.toNat_ofNat_of_lt' (by change n.toNat < 4294967296; omega)]
    omega
  · cases h

theorem uint32?_toNat (w : UInt32) : uint32? w.toNat = some w := by
  have := w.toNat_lt
  rw [uint32?, if_pos (by omega), Int.toNat_natCast, UInt32.ofNat_toNat]

theorem toInt_of_int32? {n : Int} {w : Int32} (h : int32? n = some w) : w.toInt = n := by
  unfold int32? at h
  split at h
  · cases h
    rw [Int32.toInt_ofInt, Int.bmod_eq_of_le (by change -2147483648 ≤ n; omega)
      (by change n < 2147483648; omega)]
  · cases h

theorem int32?_toInt (w : Int32) : int32? w.toInt = some w := by
  have hlow := w.le_toInt
  have hhigh := w.toInt_lt
  rw [int32?, if_pos (by omega), Int32.ofInt_toInt]

theorem int64?_eq_some {n m : Int} :
    int64? n = some m ↔ n = m ∧ -9223372036854775808 ≤ n ∧ n ≤ 9223372036854775807 := by
  unfold int64?
  split
  · simp_all
  · simp only [reduceCtorEq, false_iff]
    rintro ⟨-, h⟩
    exact absurd h ‹_›

def maxInt32 : Nat := 2147483647

end TensorKernels

namespace TensorKernels.Binary64

/-- The nearest number of 53 significant bits; of two that are equally near, the one with an even
last bit. -/
def nearest (n : Nat) : Nat :=
  let excess := n.log2 - 52
  let kept := n >>> excess
  let lost := n - kept <<< excess
  if 2 * lost < 1 <<< excess ∨ (2 * lost = 1 <<< excess ∧ kept % 2 = 0) then kept <<< excess
  else (kept + 1) <<< excess

theorem nearest_eq_self {n : Nat} (h : n < 9007199254740992) : nearest n = n := by
  have e : n.log2 - 52 = 0 := by
    by_cases hn : n = 0
    · subst hn; rfl
    · have := (Nat.log2_lt (k := 53) hn).2 h
      omega
  simp [nearest, e]

theorem nearest_le_two_mul (n : Nat) : nearest n ≤ 2 * n := by
  have hk : n >>> (n.log2 - 52) <<< (n.log2 - 52) ≤ n := by
    rw [Nat.shiftRight_eq_div_pow, Nat.shiftLeft_eq]
    exact Nat.div_mul_le_self n _
  have hs : (n >>> (n.log2 - 52) + 1) <<< (n.log2 - 52) =
      n >>> (n.log2 - 52) <<< (n.log2 - 52) + 1 <<< (n.log2 - 52) := by
    simp only [Nat.shiftLeft_eq, Nat.add_mul]
  have hp : n = 0 ∨ 1 <<< (n.log2 - 52) ≤ n := by
    by_cases hn : n = 0
    · exact .inl hn
    · right
      calc 1 <<< (n.log2 - 52)
        _ = 2 ^ (n.log2 - 52) := by rw [Nat.shiftLeft_eq, Nat.one_mul]
        _ ≤ 2 ^ n.log2 := Nat.pow_le_pow_right (by decide) (Nat.sub_le _ _)
        _ ≤ n := Nat.log2_self_le hn
  rcases hp with rfl | hp
  · decide
  · dsimp only [nearest]
    split
    · omega
    · rw [hs]
      omega

def limit : Nat := 1 <<< 1024

/-- Whether `m * 10 ^ e` is small enough. Both factors are rounded before they are multiplied. -/
def inRange (m : Nat) (e : Int) : Bool :=
  m == 0 || e < 0 || (e ≤ 308 && nearest (nearest m * nearest (Nat.pow 10 e.toNat)) < limit)

theorem inRange_word {m : Nat} (h : m ≤ 18446744073709551615) : inRange m 0 = true := by
  have h1 : nearest 1 = 1 := nearest_eq_self (by decide)
  have h2 := nearest_le_two_mul m
  have h3 := nearest_le_two_mul (nearest m)
  have h4 : 73786976294838206460 < limit := by decide
  have h5 : nearest (nearest m) < limit := by omega
  simp [inRange, h1, h5]

end TensorKernels.Binary64
