import Mathlib.Data.List.Iterate
import Mathlib.Data.List.Nodup
import TensorKernels.Index.Gather

set_option autoImplicit false

namespace TensorKernels

theorem stride_pos (workers : Nat) : 0 < stride workers :=
  Nat.lt_of_lt_of_le Nat.one_pos (Nat.le_max_right workers 1)

theorem pairwise_gridStride (worker workers total : Nat) :
    (gridStride worker workers total).Pairwise (· < ·) :=
  List.pairwise_lt_range' (stride workers) (stride_pos workers)

theorem lt_div_iff_mul_lt {i d step : Nat} (hs : 0 < step) :
    i < (d + step - 1) / step ↔ i * step < d := by
  rw [← Nat.add_one_le_iff, Nat.le_div_iff_mul_le hs, Nat.add_mul, Nat.one_mul]
  omega

theorem mem_gridStride {worker workers total i : Nat} :
    i ∈ gridStride worker workers total ↔
      worker ≤ i ∧ i < total ∧ i % stride workers = worker % stride workers := by
  have hs := stride_pos workers
  rw [gridStride, List.mem_range']
  constructor
  · rintro ⟨k, hk, rfl⟩
    have hlt := (lt_div_iff_mul_lt hs).1 hk
    rw [Nat.mul_comm] at hlt
    refine ⟨Nat.le_add_right _ _, by omega, ?_⟩
    rw [Nat.add_mul_mod_self_left]
  · rintro ⟨hle, hlt, hmod⟩
    obtain ⟨k, hk⟩ := Nat.dvd_of_mod_eq_zero (Nat.sub_mod_eq_zero_of_mod_eq hmod)
    have hi : i = worker + stride workers * k := by omega
    refine ⟨k, (lt_div_iff_mul_lt hs).2 ?_, hi⟩
    rw [Nat.mul_comm]
    omega

/-- A walk from `start` has `count` elements below the total and then leaves it behind. -/
structure Strides (start step count total : Nat) : Prop where
  below : ∀ i < count, start + step * i < total
  behind : total ≤ start + step * count

namespace Strides

variable {start step count total : Nat}

theorem lt (h : Strides start step (count + 1) total) : start < total :=
  h.below 0 (Nat.succ_pos count)

theorem next (h : Strides start step (count + 1) total) :
    Strides (start + step) step count total where
  below i hi := by
    have hlt := h.below (i + 1) (Nat.succ_lt_succ hi)
    rwa [Nat.mul_succ, Nat.add_comm (step * i), ← Nat.add_assoc] at hlt
  behind := by
    have hle := h.behind
    rwa [Nat.mul_succ, Nat.add_comm (step * count), ← Nat.add_assoc] at hle

theorem end_lt {bound : Nat} (h : Strides start step count total) (hstart : start < bound)
    (hbound : total + step ≤ bound) : start + step * count < bound := by
  cases count with
  | zero => exact hstart
  | succ count =>
    have hlt := h.below count (Nat.lt_succ_self count)
    rw [Nat.mul_succ]
    omega

end Strides

theorem strides_gridStride (worker workers total : Nat) :
    Strides worker (stride workers) (gridStride worker workers total).length total := by
  have hs := stride_pos workers
  rw [gridStride, List.length_range']
  constructor
  · intro i hi
    have hlt := (lt_div_iff_mul_lt hs).1 hi
    rw [Nat.mul_comm] at hlt
    omega
  · have hle := (not_congr (lt_div_iff_mul_lt (d := total - worker) hs)).1 (Nat.lt_irrefl _)
    rw [Nat.mul_comm] at hle
    omega

theorem mem_visits {workers total i : Nat} : i ∈ visits workers total ↔ i < total := by
  have hs := stride_pos workers
  simp only [visits, List.mem_flatMap, List.mem_range, mem_gridStride]
  constructor
  · rintro ⟨_, _, _, hlt, _⟩
    exact hlt
  · intro hlt
    exact ⟨i % stride workers, Nat.mod_lt i hs, Nat.mod_le i _, hlt, (Nat.mod_mod i _).symm⟩

theorem disjoint_gridStride {workers a b : Nat} (ha : a < stride workers) (hb : b < stride workers)
    (hne : a ≠ b) (total : Nat) :
    (gridStride a workers total).Disjoint (gridStride b workers total) := by
  intro i hi hj
  apply hne
  calc a
    _ = a % stride workers := (Nat.mod_eq_of_lt ha).symm
    _ = i % stride workers := (mem_gridStride.1 hi).2.2.symm
    _ = b % stride workers := (mem_gridStride.1 hj).2.2
    _ = b := Nat.mod_eq_of_lt hb

theorem nodup_visits (workers total : Nat) : (visits workers total).Nodup := by
  rw [visits, List.nodup_flatMap]
  refine ⟨fun worker _ => (pairwise_gridStride worker workers total).imp Nat.ne_of_lt, ?_⟩
  exact List.pairwise_lt_range.imp_of_mem fun ha hb hlt =>
    disjoint_gridStride (List.mem_range.1 ha) (List.mem_range.1 hb) (Nat.ne_of_lt hlt) total

theorem visits_perm (workers total : Nat) : (visits workers total).Perm (List.range total) :=
  (List.perm_ext_iff_of_nodup (nodup_visits workers total) List.nodup_range).2 fun i => by
    rw [mem_visits, List.mem_range]

/-- Words of 64 bits that go on by `step`, where sums wrap around. -/
def wordStride (start step : UInt64) (count : Nat) : List UInt64 :=
  List.iterate (· + step) start count

theorem toNat_wordStride {start step count : Nat} (hstep : start + step * count < 2 ^ 64) :
    (wordStride (.ofNat start) (.ofNat step) (count + 1)).map UInt64.toNat =
      List.range' start (count + 1) step := by
  induction count generalizing start with
  | zero =>
    have hstart : (UInt64.ofNat start).toNat = start := UInt64.toNat_ofNat_of_lt' hstep
    rw [wordStride, List.iterate, List.iterate, List.map_cons, List.map_nil, hstart]
    rfl
  | succ count ih =>
    have hnext : start + step + step * count < 2 ^ 64 := by
      rw [Nat.mul_succ] at hstep
      omega
    have hstart : (UInt64.ofNat start).toNat = start :=
      UInt64.toNat_ofNat_of_lt' (by change start < 2 ^ 64; omega)
    have hrest := ih hnext
    rw [UInt64.ofNat_add] at hrest
    rw [wordStride, List.iterate, List.map_cons, hstart, List.range'_succ]
    exact congrArg (start :: ·) hrest

/-- What a worker visits. The additions that lead from one element to the next are done in words; they
give these elements, and then a number that is not below the total. -/
structure StridesThrough (worker workers total : Nat) : Prop where
  ascending : (gridStride worker workers total).Pairwise (· < ·)
  mem_iff : ∀ i, i ∈ gridStride worker workers total ↔
    worker ≤ i ∧ i < total ∧ i % max workers 1 = worker % max workers 1
  words : ∃ last, total ≤ last ∧ (wordStride (.ofNat worker) (.ofNat (max workers 1))
    ((gridStride worker workers total).length + 1)).map UInt64.toNat =
      gridStride worker workers total ++ [last]

/-- Every element goes to one worker. -/
structure StridesShare (workers total : Nat) : Prop where
  disjoint : ∀ a < workers, ∀ b < workers, a ≠ b →
    (gridStride a workers total).Disjoint (gridStride b workers total)
  perm : ((List.range workers).flatMap fun worker => gridStride worker workers total).Perm
    (List.range total)

section

variable {worker workers total : Nat}

theorem strides_through (hworker : worker ≤ 2 ^ 63) (hworkers : workers ≤ 2 ^ 63)
    (htotal : total ≤ 2 ^ 63) : StridesThrough worker workers total where
  ascending := pairwise_gridStride worker workers total
  mem_iff _ := mem_gridStride
  words := by
    have hstrides := strides_gridStride worker workers total
    have hstride : stride workers ≤ 2 ^ 63 := Nat.max_le.2 ⟨hworkers, by decide⟩
    have hend : worker + stride workers * (gridStride worker workers total).length < 2 ^ 64 :=
      hstrides.end_lt (by omega) (by omega)
    have hrange : gridStride worker workers total =
        List.range' worker (gridStride worker workers total).length (stride workers) := by
      rw [gridStride, List.length_range']
    refine ⟨_, hstrides.behind, ?_⟩
    rw [← stride, toNat_wordStride hend, List.range'_concat, ← hrange]

theorem strides_share (h : 1 ≤ workers) : StridesShare workers total := by
  have hstride : stride workers = workers := Nat.max_eq_left h
  have hperm := visits_perm workers total
  rw [visits, hstride] at hperm
  refine ⟨fun a ha b hb hne => ?_, hperm⟩
  rw [← hstride] at ha hb
  exact disjoint_gridStride ha hb hne total

end

/-- Up to 2^63 the elements of the workers are the residue classes of their numbers, none is found by
a sum that wraps around, and the workers share out all elements. -/
theorem gridStride_partitions {workers total : Nat} (hworkers : workers ≤ 2 ^ 63)
    (htotal : total ≤ 2 ^ 63) :
    (∀ worker ≤ 2 ^ 63, StridesThrough worker workers total) ∧
      (1 ≤ workers → StridesShare workers total) :=
  ⟨fun _ hworker => strides_through hworker hworkers htotal, strides_share⟩

/-- The sum that leaves the last element behind is the largest word. -/
theorem gridStride_partitions_largest :
    gridStride (2 ^ 63 - 1) (2 ^ 63) (2 ^ 63) = [2 ^ 63 - 1] ∧
      wordStride (.ofNat (2 ^ 63 - 1)) (.ofNat (2 ^ 63)) 2 = [.ofNat (2 ^ 63 - 1), -1] ∧
      StridesThrough (2 ^ 63 - 1) (2 ^ 63) (2 ^ 63) ∧ StridesShare (2 ^ 63) (2 ^ 63) := by
  have hmax : 2 ^ 63 ≤ 2 ^ 63 := Nat.le_refl _
  obtain ⟨hthrough, hshare⟩ := gridStride_partitions hmax hmax
  exact ⟨by decide +kernel, by decide +kernel, hthrough (2 ^ 63 - 1) (by decide), hshare (by decide)⟩

end TensorKernels
