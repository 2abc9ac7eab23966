import TensorKernels.Tensor

set_option autoImplicit false

namespace TensorKernels

/-- There are `n` images of `h` by `w` blocks, and a block has `r` by `r` pixels of `c` channels. -/
structure BlockShape where
  n : Nat
  h : Nat
  w : Nat
  c : Nat
  r : Nat

namespace BlockShape

def volume (s : BlockShape) : Nat := s.n * s.h * s.w * s.c * s.r * s.r

theorem volume_eq_deep (s : BlockShape) : s.volume = s.n * s.h * s.w * (s.c * s.r * s.r) := by
  simp only [volume, Nat.mul_assoc]

theorem volume_eq_wide (s : BlockShape) :
    s.volume = s.n * (s.h * s.r) * (s.w * s.r) * s.c := by
  simp only [volume, Nat.mul_left_comm, Nat.mul_comm]

theorem channels_eq (s : BlockShape) : s.c * s.r * s.r = s.r * s.r * s.c := by
  rw [Nat.mul_assoc, Nat.mul_comm]

/-- Every extent of the two tensors and the block size are below the bound. -/
structure Below (s : BlockShape) (B : Nat) : Prop where
  n : s.n < B
  h : s.h < B
  w : s.w < B
  deepChannels : s.c * s.r * s.r < B
  height : s.h * s.r < B
  width : s.w * s.r < B
  c : s.c < B
  r : s.r < B

end BlockShape

/-- The block `(row, column)` of an image, the pixel `(down, right)` of the block, and the channel. -/
structure BlockElement where
  image : Nat
  row : Nat
  column : Nat
  down : Nat
  right : Nat
  channel : Nat

namespace BlockElement

structure Within (p : BlockElement) (s : BlockShape) : Prop where
  image : p.image < s.n
  row : p.row < s.h
  column : p.column < s.w
  down : p.down < s.r
  right : p.right < s.r
  channel : p.channel < s.c

def deepChannel (p : BlockElement) (s : BlockShape) : Nat :=
  (p.down * s.r + p.right) * s.c + p.channel

def deep (p : BlockElement) (s : BlockShape) : Nat :=
  flatIndex s.h s.w (s.c * s.r * s.r) p.image p.row p.column (p.deepChannel s)

def wide (p : BlockElement) (s : BlockShape) : Nat :=
  flatIndex (s.h * s.r) (s.w * s.r) s.c p.image (p.row * s.r + p.down) (p.column * s.r + p.right)
    p.channel

variable {p q : BlockElement} {s : BlockShape}

theorem Within.deepChannel_lt (hp : p.Within s) : p.deepChannel s < s.c * s.r * s.r := by
  rw [s.channels_eq]
  exact mul_add_lt (mul_add_lt hp.down hp.right) hp.channel

theorem Within.deep_lt (hp : p.Within s) : p.deep s < s.volume := by
  rw [s.volume_eq_deep]
  exact flatIndex_lt hp.image hp.row hp.column hp.deepChannel_lt

theorem Within.volume_pos (hp : p.Within s) : 0 < s.volume :=
  Nat.lt_of_le_of_lt (Nat.zero_le _) hp.deep_lt

theorem Within.wide_lt (hp : p.Within s) : p.wide s < s.volume := by
  rw [s.volume_eq_wide]
  exact flatIndex_lt hp.image (mul_add_lt hp.row hp.down) (mul_add_lt hp.column hp.right) hp.channel

theorem Within.below (hp : p.Within s) {B : Nat} (hB : s.volume < B) : s.Below B := by
  have hlt {d e : Nat} (hd : s.volume = d * e) : d < B :=
    calc d
      _ ≤ s.volume := Nat.le_of_dvd hp.volume_pos ⟨e, hd⟩
      _ < B := hB
  constructor
  · exact hlt (e := s.h * s.w * s.c * s.r * s.r) (by simp only [BlockShape.volume, Nat.mul_assoc])
  · exact hlt (e := s.n * s.w * s.c * s.r * s.r)
      (by simp only [BlockShape.volume, Nat.mul_assoc, Nat.mul_left_comm])
  · exact hlt (e := s.n * s.h * s.c * s.r * s.r)
      (by simp only [BlockShape.volume, Nat.mul_assoc, Nat.mul_left_comm])
  · exact hlt (e := s.n * s.h * s.w) (by rw [s.volume_eq_deep, Nat.mul_comm])
  · exact hlt (e := s.n * (s.w * s.r) * s.c)
      (by rw [s.volume_eq_wide]; simp only [Nat.mul_assoc, Nat.mul_left_comm])
  · exact hlt (e := s.n * (s.h * s.r) * s.c)
      (by rw [s.volume_eq_wide]; simp only [Nat.mul_assoc, Nat.mul_left_comm])
  · exact hlt (e := s.n * (s.h * s.r) * (s.w * s.r)) (by rw [s.volume_eq_wide, Nat.mul_comm])
  · exact hlt (e := s.n * s.h * s.w * s.c * s.r) (by rw [BlockShape.volume, Nat.mul_comm])

theorem Within.eq_of_deep_eq (hp : p.Within s) (hq : q.Within s) (e : p.deep s = q.deep s) :
    p = q := by
  obtain ⟨hi, hj, hk, hl⟩ :=
    flatIndex_inj hp.row hp.column hp.deepChannel_lt hq.row hq.column hq.deepChannel_lt e
  obtain ⟨hab, hc⟩ := eq_of_mul_add_eq hp.channel hq.channel hl
  obtain ⟨ha, hb⟩ := eq_of_mul_add_eq hp.right hq.right hab
  cases p
  cases q
  simp_all

theorem Within.eq_of_wide_eq (hp : p.Within s) (hq : q.Within s) (e : p.wide s = q.wide s) :
    p = q := by
  obtain ⟨hi, hj, hk, hl⟩ :=
    flatIndex_inj (mul_add_lt hp.row hp.down) (mul_add_lt hp.column hp.right) hp.channel
      (mul_add_lt hq.row hq.down) (mul_add_lt hq.column hq.right) hq.channel e
  obtain ⟨hj, ha⟩ := eq_of_mul_add_eq hp.down hq.down hj
  obtain ⟨hk, hb⟩ := eq_of_mul_add_eq hp.right hq.right hk
  cases p
  cases q
  simp_all

theorem exists_mul_add {g m n : Nat} (hg : g < m * n) : ∃ a b, a < m ∧ b < n ∧ g = a * n + b := by
  have hn : 0 < n := Nat.pos_of_ne_zero fun e => by simp [e] at hg
  refine ⟨g / n, g % n, Nat.div_lt_of_lt_mul (Nat.mul_comm m n ▸ hg), Nat.mod_lt g hn, ?_⟩
  rw [Nat.mul_comm, Nat.div_add_mod]

theorem exists_flatIndex {g n h w c : Nat} (hg : g < n * h * w * c) :
    ∃ i j k l, i < n ∧ j < h ∧ k < w ∧ l < c ∧ g = flatIndex h w c i j k l := by
  obtain ⟨g', l, hg', hl, rfl⟩ := exists_mul_add hg
  obtain ⟨g'', k, hg'', hk, rfl⟩ := exists_mul_add hg'
  obtain ⟨i, j, hi, hj, rfl⟩ := exists_mul_add hg''
  exact ⟨i, j, k, l, hi, hj, hk, hl, rfl⟩

theorem exists_deep {g : Nat} (hg : g < s.volume) : ∃ p : BlockElement, p.Within s ∧ g = p.deep s := by
  rw [s.volume_eq_deep] at hg
  obtain ⟨i, j, k, l, hi, hj, hk, hl, rfl⟩ := exists_flatIndex hg
  rw [s.channels_eq] at hl
  obtain ⟨ab, channel, hab, hchannel, rfl⟩ := exists_mul_add hl
  obtain ⟨down, right, hdown, hright, rfl⟩ := exists_mul_add hab
  exact ⟨⟨i, j, k, down, right, channel⟩, ⟨hi, hj, hk, hdown, hright, hchannel⟩, rfl⟩

theorem exists_wide {g : Nat} (hg : g < s.volume) : ∃ p : BlockElement, p.Within s ∧ g = p.wide s := by
  rw [s.volume_eq_wide] at hg
  obtain ⟨i, j, k, l, hi, hj, hk, hl, rfl⟩ := exists_flatIndex hg
  obtain ⟨row, down, hrow, hdown, rfl⟩ := exists_mul_add hj
  obtain ⟨column, right, hcolumn, hright, rfl⟩ := exists_mul_add hk
  exact ⟨⟨i, row, column, down, right, l⟩, ⟨hi, hrow, hcolumn, hdown, hright, hl⟩, rfl⟩

end BlockElement

/-- The elements fill the flat indices below the volume, each index once. -/
structure BlockShape.Enumerates (s : BlockShape) (index : BlockElement → Nat) : Prop where
  lt {p : BlockElement} : p.Within s → index p < s.volume
  exists_eq {g : Nat} : g < s.volume → ∃ p : BlockElement, p.Within s ∧ g = index p
  inj {p q : BlockElement} : p.Within s → q.Within s → index p = index q → p = q

theorem BlockShape.enumerates_deep (s : BlockShape) : s.Enumerates (·.deep s) :=
  ⟨fun hp => hp.deep_lt, BlockElement.exists_deep, fun hp hq => hp.eq_of_deep_eq hq⟩

theorem BlockShape.enumerates_wide (s : BlockShape) : s.Enumerates (·.wide s) :=
  ⟨fun hp => hp.wide_lt, BlockElement.exists_wide, fun hp hq => hp.eq_of_wide_eq hq⟩

end TensorKernels
