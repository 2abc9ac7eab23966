import Mathlib.Tactic.Positivity
import TensorKernels.Index.Gather

set_option autoImplicit false

namespace TensorKernels

namespace Tensor

theorem toNat_foldl_mul (ds : List UInt32) (n : UInt64) :
    (ds.foldl (fun (n : UInt64) d => n * d.toUInt64) n).toNat =
      n.toNat * (ds.map UInt32.toNat).foldr (· * ·) 1 % 2 ^ 64 := by
  induction ds generalizing n with
  | nil =>
    rw [List.foldl_nil, List.map_nil, List.foldr_nil, Nat.mul_one]
    exact (Nat.mod_eq_of_lt n.toNat_lt).symm
  | cons d ds ih =>
    calc
      _ = (n * d.toUInt64).toNat * (ds.map UInt32.toNat).foldr (· * ·) 1 % 2 ^ 64 := ih _
      _ = n.toNat * d.toNat % 2 ^ 64 * (ds.map UInt32.toNat).foldr (· * ·) 1 % 2 ^ 64 := by
        rw [UInt64.toNat_mul, UInt32.toNat_toUInt64]
      _ = n.toNat * d.toNat * (ds.map UInt32.toNat).foldr (· * ·) 1 % 2 ^ 64 :=
        Nat.mod_mul_mod _ _ _
      _ = _ := by rw [Nat.mul_assoc, List.map_cons, List.foldr_cons]

theorem size_eq_mod (t : Tensor) : t.size = t.count % 2 ^ 64 := by
  rw [size, toNat_foldl_mul, UInt64.toNat_one, Nat.one_mul, count]

theorem size_lt (t : Tensor) : t.size < 2 ^ 64 := UInt64.toNat_lt _

theorem size_eq_count {t : Tensor} (h : t.count < 2 ^ 64) : t.size = t.count := by
  rw [size_eq_mod, Nat.mod_eq_of_lt h]

/-- The tensor is in the order NHWC and has these extents. -/
structure IsNhwc (t : Tensor) (n h w c : Nat) : Prop where
  order : t.order = .nhwc
  shape : t.shape.map UInt32.toNat = [n, h, w, c]

theorem exists_shape {t : Tensor} (ht : t.order = .nhwc) :
    ∃ n h w c : UInt32, t.shape = [n, h, w, c] := by
  have hl : t.shape.length = 4 := by rw [t.length_shape, ht]; rfl
  match hs : t.shape, hl with
  | [n, h, w, c], _ => exact ⟨n, h, w, c, rfl⟩

theorem exists_isNhwc {t : Tensor} (ht : t.order = .nhwc) : ∃ n h w c, t.IsNhwc n h w c := by
  obtain ⟨n, h, w, c, hs⟩ := exists_shape ht
  exact ⟨n.toNat, h.toNat, w.toNat, c.toNat, ht, by rw [hs]; rfl⟩

namespace IsNhwc

variable {t : Tensor} {n h w c : Nat}

theorem count_eq (ht : t.IsNhwc n h w c) : t.count = n * h * w * c := by
  rw [count, ht.shape]
  simp only [List.foldr_cons, List.foldr_nil, Nat.mul_one, Nat.mul_assoc]

theorem pos (ht : t.IsNhwc n h w c) : 0 < n ∧ 0 < h ∧ 0 < w ∧ 0 < c := by
  have hp : ∀ d ∈ [n, h, w, c], 0 < d := by
    rw [← ht.shape]
    intro d hd
    obtain ⟨u, hu, rfl⟩ := List.mem_map.1 hd
    have hne := t.shape_pos u hu
    exact Nat.pos_of_ne_zero fun e => hne (UInt32.toNat_inj.1 e)
  simpa using hp

def ofAxis (n h w c : Nat) : Axis → Nat
  | .n => n
  | .h => h
  | .w => w
  | .c => c

theorem extent_eq (ht : t.IsNhwc n h w c) (a : Axis) :
    ∃ d, t.extent a = .ok d ∧ d.toNat = ofAxis n h w c a := by
  obtain ⟨n', h', w', c', hs⟩ := exists_shape ht.order
  have he := ht.shape
  simp only [hs, List.map_cons, List.map_nil, List.cons.injEq, and_true] at he
  obtain ⟨rfl, rfl, rfl, rfl⟩ := he
  have hd {i : Nat} {d : UInt32} (hp : Order.nhwc.position? a = some i) (hi : t.shape[i]? = some d) :
      t.extent a = .ok d := by
    rw [extent, extent?, ht.order, hp, Option.bind_some, hi]
  cases a with
  | n => exact ⟨n', hd (i := 0) rfl (by rw [hs]; rfl), rfl⟩
  | h => exact ⟨h', hd (i := 1) rfl (by rw [hs]; rfl), rfl⟩
  | w => exact ⟨w', hd (i := 2) rfl (by rw [hs]; rfl), rfl⟩
  | c => exact ⟨c', hd (i := 3) rfl (by rw [hs]; rfl), rfl⟩

theorem le_count (ht : t.IsNhwc n h w c) (a : Axis) : ofAxis n h w c a ≤ t.count := by
  obtain ⟨hn, hh, hw, hc⟩ := ht.pos
  rw [ht.count_eq]
  have hpos : 0 < n * h * w * c := by positivity
  apply Nat.le_of_dvd hpos
  cases a with
  | n => exact ⟨h * w * c, by simp only [ofAxis, Nat.mul_assoc]⟩
  | h => exact ⟨n * w * c, by simp only [ofAxis, Nat.mul_assoc, Nat.mul_left_comm]⟩
  | w => exact ⟨n * h * c, by simp only [ofAxis, Nat.mul_assoc, Nat.mul_left_comm]⟩
  | c => exact ⟨n * h * w, by simp only [ofAxis, Nat.mul_comm]⟩

end IsNhwc

end Tensor

def blockBindings (r n c1 c2 h1 h2 w1 w2 : Nat) : Bindings :=
  .ofList [("r", r), ("N", n), ("C1", c1), ("C2", c2), ("H1", h1), ("H2", h2), ("W1", w1), ("W2", w2)]

theorem Operator.scalars_eq {op : Operator} {n h1 w1 c1 n2 h2 w2 c2 : Nat}
    (hx : op.x.IsNhwc n h1 w1 c1) (hy : op.y.IsNhwc n2 h2 w2 c2) :
    op.scalars = .ok (blockBindings op.block.toNat n c1 c2 h1 h2 w1 w2) := by
  obtain ⟨_, hn, rfl⟩ := hx.extent_eq .n
  obtain ⟨_, hc1, rfl⟩ := hx.extent_eq .c
  obtain ⟨_, hc2, rfl⟩ := hy.extent_eq .c
  obtain ⟨_, hh1, rfl⟩ := hx.extent_eq .h
  obtain ⟨_, hh2, rfl⟩ := hy.extent_eq .h
  obtain ⟨_, hw1, rfl⟩ := hx.extent_eq .w
  obtain ⟨_, hw2, rfl⟩ := hy.extent_eq .w
  simp only [scalars, hn, hc1, hc2, hh1, hh2, hw1, hw2]
  rfl

end TensorKernels
