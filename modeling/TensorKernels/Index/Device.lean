import TensorKernels.Index.Map

/-! A device computes indices as signed integers of 32 bits that wrap around. Where all values of an
expression are natural numbers of 31 bits, wrapped evaluation gives the exact value. -/

set_option autoImplicit false

namespace TensorKernels

namespace BinOp

def wrappedValue? : BinOp → Int32 → Int32 → Option Int32
  | add, a, b => some (a + b)
  | mul, a, b => some (a * b)
  | div, a, b => if b = 0 then none else some (a / b)
  | rem, a, b => if b = 0 then none else some (a % b)

end BinOp

/-- Whether a signed integer of 32 bits holds the number, and it is not negative. -/
def IsIndex (n : Int) : Prop := 0 ≤ n ∧ n ≤ maxInt32

namespace Expr

/-- Scalars are given to a device as words. -/
def evalWrapped (env : Bindings) : Expr → Option Int32
  | var name => (env.get? name).map Int32.ofInt
  | const value => some (Int32.ofInt value)
  | bin op lhs rhs => do
    let a ← lhs.evalWrapped env
    let b ← rhs.evalWrapped env
    op.wrappedValue? a b

/-- Every part of the expression has a value, and all of them are indices. -/
def Indexed (env : Bindings) : Expr → Prop
  | var name => ∃ n, env.get? name = some n ∧ IsIndex n
  | const value => IsIndex value
  | bin op lhs rhs =>
    lhs.Indexed env ∧ rhs.Indexed env ∧ ∃ n, (bin op lhs rhs).eval env = some n ∧ IsIndex n

theorem Indexed.exists_eval {env : Bindings} {e : Expr} (h : e.Indexed env) :
    ∃ n, e.eval env = some n ∧ IsIndex n := by
  cases e with
  | var name => exact h
  | const value => exact ⟨value, rfl, h⟩
  | bin op lhs rhs => exact h.2.2

end Expr

theorem toInt_ofInt_of_isIndex {n : Int} (h : IsIndex n) : (Int32.ofInt n).toInt = n := by
  obtain ⟨h0, h1⟩ := h
  simp only [maxInt32] at h1
  rw [Int32.toInt_ofInt, Int.bmod_eq_of_le (by change -2147483648 ≤ n; omega)
    (by change n < 2147483648; omega)]

theorem bmod_of_isIndex {n : Int} (h : IsIndex n) : n.bmod 4294967296 = n :=
  Int32.toInt_ofInt .. ▸ toInt_ofInt_of_isIndex h

theorem ofInt_eq_zero_iff {n : Int} (h : IsIndex n) : Int32.ofInt n = 0 ↔ n = 0 := by
  constructor
  · intro e
    simpa [toInt_ofInt_of_isIndex h] using congrArg Int32.toInt e
  · rintro rfl
    rfl

theorem BinOp.wrappedValue?_ofInt {op : BinOp} {a b n : Int} (ha : IsIndex a) (hb : IsIndex b)
    (hn : IsIndex n) (h : op.value? a b = some n) :
    op.wrappedValue? (Int32.ofInt a) (Int32.ofInt b) = some (Int32.ofInt n) := by
  have key {w : Int32} (hw : w.toInt = n) : some w = some (Int32.ofInt n) := by
    rw [Option.some_inj, ← Int32.toInt_inj, hw, toInt_ofInt_of_isIndex hn]
  cases op <;> simp only [value?, wrappedValue?, ofInt_eq_zero_iff hb] at h ⊢
  · apply key
    rw [Int32.toInt_add, toInt_ofInt_of_isIndex ha, toInt_ofInt_of_isIndex hb,
      (int64?_eq_some.1 h).1]
    exact bmod_of_isIndex hn
  · apply key
    rw [Int32.toInt_mul, toInt_ofInt_of_isIndex ha, toInt_ofInt_of_isIndex hb,
      (int64?_eq_some.1 h).1]
    exact bmod_of_isIndex hn
  · split at h
    · simp at h
    · next hz =>
      rw [if_neg hz]
      apply key
      rw [Int32.toInt_div, toInt_ofInt_of_isIndex ha, toInt_ofInt_of_isIndex hb,
        (int64?_eq_some.1 h).1]
      exact bmod_of_isIndex hn
  · split at h
    · simp at h
    · next hz =>
      obtain ⟨-, -, e⟩ := Option.map_eq_some_iff.1 h
      rw [if_neg hz]
      apply key
      rw [Int32.toInt_mod, toInt_ofInt_of_isIndex ha, toInt_ofInt_of_isIndex hb, e]

theorem Expr.evalWrapped_of_indexed {env : Bindings} {e : Expr} (h : e.Indexed env) :
    e.evalWrapped env = (e.eval env).map Int32.ofInt := by
  induction e with
  | var name => rfl
  | const value => rfl
  | bin op lhs rhs ihl ihr =>
    obtain ⟨hl, hr, n, hn, hi⟩ := h
    obtain ⟨a, ha, hai⟩ := hl.exists_eval
    obtain ⟨b, hb, hbi⟩ := hr.exists_eval
    have happ : op.value? a b = some n := by simpa [eval, ha, hb] using hn
    rw [hn, evalWrapped, ihl hl, ihr hr, ha, hb]
    exact BinOp.wrappedValue?_ofInt hai hbi hi happ

theorem Expr.Indexed.divisor_ne_zero {env : Bindings} {op : BinOp} {lhs rhs : Expr} {b : Int}
    (h : (bin op lhs rhs).Indexed env) (hop : op = .div ∨ op = .rem) (hb : rhs.eval env = some b) :
    b ≠ 0 := by
  rintro rfl
  obtain ⟨hl, -, n, hn, -⟩ := h
  obtain ⟨a, ha, -⟩ := hl.exists_eval
  have hvalue : op.value? a 0 = some n := by simpa [eval, ha, hb] using hn
  rcases hop with rfl | rfl <;> cases hvalue

namespace IndexMap

/-- The named values of a map on a device, each kept in a word. -/
def extendWrapped (env : Bindings) : List (String × Expr) → Option Bindings
  | [] => some env
  | (name, e) :: rest => do
    let value ← e.evalWrapped env
    extendWrapped (env.bind name value.toInt) rest

def evalWrapped (m : IndexMap) (gid : Int32) (scalars : Bindings) : Option Int32 := do
  let env ← extendWrapped (scalars.bind m.indexVar gid.toInt) m.bindings
  m.source.evalWrapped env

/-- Every part of the named values and of the source has a value, and all of them are indices. -/
def IndexedFrom (source : Expr) : Bindings → List (String × Expr) → Prop
  | env, [] => source.Indexed env
  | env, (name, e) :: rest =>
    e.Indexed env ∧ ∃ n, e.eval env = some n ∧ IndexedFrom source (env.bind name n) rest

def Indexed (m : IndexMap) (gid : Int) (scalars : Bindings) : Prop :=
  IsIndex gid ∧ IndexedFrom m.source (scalars.bind m.indexVar gid) m.bindings

theorem IndexedFrom.bind_evalWrapped {source : Expr} {env : Bindings} {bs : List (String × Expr)}
    (h : IndexedFrom source env bs) :
    (do let env ← extendWrapped env bs; source.evalWrapped env) =
      (do let env ← extend env bs; source.eval env).map Int32.ofInt := by
  induction bs generalizing env with
  | nil => exact Expr.evalWrapped_of_indexed h
  | cons b bs ih =>
    obtain ⟨he, n, hn, hrest⟩ := h
    obtain ⟨n', hn', hi⟩ := he.exists_eval
    obtain rfl : n' = n := Option.some_inj.1 (hn'.symm.trans hn)
    have hw : b.2.evalWrapped env = some (Int32.ofInt n') := by
      rw [Expr.evalWrapped_of_indexed he, hn]
      rfl
    have hstep := ih hrest
    simp only [extendWrapped, extend, hn, hw, Option.bind_eq_bind, Option.bind_some,
      toInt_ofInt_of_isIndex hi] at hstep ⊢
    exact hstep

theorem Indexed.evalWrapped_eq {m : IndexMap} {gid : Int} {scalars : Bindings}
    (h : m.Indexed gid scalars) :
    m.evalWrapped (Int32.ofInt gid) scalars = (m.eval gid scalars).map Int32.ofInt := by
  rw [evalWrapped, toInt_ofInt_of_isIndex h.1]
  exact h.2.bind_evalWrapped

end IndexMap

/-- `Visits limit threads gid gids`: a thread that is at `gid` goes on with the indices `gids`. It
stops at the first index that is not below the limit. -/
inductive Visits (limit : Int32) (threads : UInt32) : Int32 → List Int32 → Prop
  | stop {gid : Int32} : ¬ gid < limit → Visits limit threads gid []
  | step {gid : Int32} {gids : List Int32} : gid < limit →
    Visits limit threads (gid + threads.toInt32) gids → Visits limit threads gid (gid :: gids)

theorem Visits.unique {limit gid : Int32} {threads : UInt32} {gids others : List Int32}
    (h : Visits limit threads gid gids) (h' : Visits limit threads gid others) : gids = others := by
  induction h generalizing others with
  | stop hn =>
    cases h' with
    | stop => rfl
    | step hp => exact absurd hp hn
  | step hp _ ih =>
    cases h' with
    | stop hn => exact absurd hp hn
    | step _ h' => rw [ih h']

end TensorKernels
