import TensorKernels.Proofs.Index.DeviceIndices
import TensorKernels.Proofs.Index.Strides

/-! A thread goes on by the number of threads, in words of 32 bits. It visits the elements that a
worker visits, and then stops, exactly if the first index that it leaves out is still an index;
otherwise that index wraps around and the thread goes on with a negative one. -/

set_option autoImplicit false

namespace TensorKernels

section

variable {n : Nat}

theorem toInt_ofNat_neg (h : maxInt32 < n) (h' : n ≤ 2 * maxInt32) : (Int32.ofNat n).toInt < 0 := by
  rw [maxInt32] at h h'
  rw [Int32.toInt_ofNat', Int32.size, Int.bmod_def]
  split <;> omega

theorem ofNat_lt_iff {limit : Int32} {total : Nat} (hlimit : limit.toInt = total)
    (hn : n ≤ maxInt32) : Int32.ofNat n < limit ↔ n < total := by
  rw [Int32.lt_iff_toInt_lt, toInt_ofNat_of_le hn, hlimit]
  omega

theorem ofNat_lt_of_wraps {limit : Int32} {total : Nat} (hlimit : limit.toInt = total)
    (h : maxInt32 < n) (h' : n ≤ 2 * maxInt32) : Int32.ofNat n < limit := by
  have hneg := toInt_ofNat_neg h h'
  rw [Int32.lt_iff_toInt_lt, hlimit]
  omega

theorem ofNat_add_threads (threads : UInt32) :
    Int32.ofNat n + threads.toInt32 = Int32.ofNat (n + threads.toNat) := by
  rw [toInt32_eq, Int32.ofNat_add]

end

namespace Strides

variable {start step count total : Nat}

theorem eq_zero_of_wraps (h : Strides start step (count + 1) total) (ht : total ≤ maxInt32)
    (hw : maxInt32 < start + step) : count = 0 := by
  by_contra hne
  have hlt := h.below 1 (by omega)
  omega

end Strides

section

variable {limit : Int32} {threads : UInt32} {start count total : Nat}

theorem total_le (hlimit : limit.toInt = total) : total ≤ maxInt32 := by
  have hlt := limit.toInt_lt
  rw [hlimit] at hlt
  rw [maxInt32]
  omega

theorem visits_range'_iff (hlimit : limit.toInt = total) (hthreads : threads.toNat ≤ maxInt32)
    (hstart : start ≤ maxInt32) (h : Strides start threads.toNat count total) :
    Visits limit threads (.ofNat start) ((List.range' start count threads.toNat).map .ofNat) ↔
      start + threads.toNat * count ≤ maxInt32 := by
  -- all steps but the last one stay within the words
  induction count generalizing start with
  | zero =>
    have hstop : ¬ Int32.ofNat start < limit := by
      rw [ofNat_lt_iff hlimit hstart]
      exact Nat.not_lt.2 h.behind
    exact iff_of_true (.stop hstop) hstart
  | succ count ih =>
    have hlt := (ofNat_lt_iff hlimit hstart).2 h.lt
    have hstep : Visits limit threads (.ofNat start)
        ((List.range' start (count + 1) threads.toNat).map .ofNat) ↔
        Visits limit threads (.ofNat (start + threads.toNat))
          ((List.range' (start + threads.toNat) count threads.toNat).map .ofNat) := by
      rw [List.range'_succ, List.map_cons, ← ofNat_add_threads]
      refine ⟨fun hv => ?_, .step hlt⟩
      cases hv with
      | step _ hv => exact hv
    rw [hstep, Nat.mul_succ, Nat.add_comm (threads.toNat * count), ← Nat.add_assoc]
    by_cases hnext : start + threads.toNat ≤ maxInt32
    · exact ih hnext h.next
    · -- the next index is negative, where no run stops
      have hwraps := Nat.not_le.1 hnext
      obtain rfl := h.eq_zero_of_wraps (total_le hlimit) hwraps
      refine iff_of_false (fun hv => ?_) hnext
      cases hv with
      | stop hn => exact hn (ofNat_lt_of_wraps hlimit hwraps (by omega))

theorem Visits.exists_neg {gids : List Int32} (hv : Visits limit threads (.ofNat start) gids)
    (hlimit : limit.toInt = total) (hthreads : threads.toNat ≤ maxInt32)
    (hstart : start ≤ maxInt32) (h : Strides start threads.toNat count total)
    (hwraps : maxInt32 < start + threads.toNat * count) : ∃ gid ∈ gids, gid < 0 := by
  induction count generalizing start gids with
  | zero => exact absurd hstart (Nat.not_le.2 hwraps)
  | succ count ih =>
    have hlt := (ofNat_lt_iff hlimit hstart).2 h.lt
    cases hv with
    | stop hn => exact absurd hlt hn
    | step _ hv =>
      rw [ofNat_add_threads] at hv
      by_cases hnext : start + threads.toNat ≤ maxInt32
      · rw [Nat.mul_succ, Nat.add_comm (threads.toNat * count), ← Nat.add_assoc] at hwraps
        obtain ⟨gid, hgid, hneg⟩ := ih hv hnext h.next hwraps
        exact ⟨gid, List.mem_cons_of_mem _ hgid, hneg⟩
      · have hwraps := Nat.not_le.1 hnext
        cases hv with
        | stop hn => exact absurd (ofNat_lt_of_wraps hlimit hwraps (by omega)) hn
        | step _ _ =>
          refine ⟨_, List.mem_cons_of_mem _ List.mem_cons_self, ?_⟩
          rw [Int32.lt_iff_toInt_lt]
          exact toInt_ofNat_neg hwraps (by omega)

end

/-- The first index that a worker leaves out is an index of 32 bits. -/
def StrideFits (worker workers total : Nat) : Prop :=
  worker + stride workers * (gridStride worker workers total).length ≤ maxInt32

section

variable {worker workers total : Nat}

theorem strideFits_of_le (hworker : worker ≤ maxInt32) (h : total + stride workers ≤ 2 ^ 31) :
    StrideFits worker workers total := by
  rw [StrideFits, maxInt32] at *
  exact Nat.le_of_lt_succ ((strides_gridStride worker workers total).end_lt
    (Nat.lt_succ_of_le hworker) h)

end

section

variable {limit : Int32} {threads worker : UInt32} {total : Nat}

theorem visits_gridStride_iff (hlimit : limit.toInt = total) (hworker : worker < threads)
    (hthreads : threads.toNat ≤ maxInt32) :
    Visits limit threads worker.toInt32
      ((gridStride worker.toNat threads.toNat total).map .ofNat) ↔
      StrideFits worker.toNat threads.toNat total := by
  have hlt := UInt32.lt_iff_toNat_lt.1 hworker
  have hs : stride threads.toNat = threads.toNat := Nat.max_eq_left (by omega)
  have hstrides := strides_gridStride worker.toNat threads.toNat total
  rw [hs] at hstrides
  have hvisits := visits_range'_iff hlimit hthreads (by omega) hstrides
  rw [toInt32_eq, StrideFits, hs, ← hvisits, gridStride, List.length_range', hs]

theorem Visits.exists_neg_of_not_fits {gids : List Int32}
    (hv : Visits limit threads worker.toInt32 gids) (hlimit : limit.toInt = total)
    (hworker : worker < threads) (hthreads : threads.toNat ≤ maxInt32)
    (hfits : ¬ StrideFits worker.toNat threads.toNat total) : ∃ gid ∈ gids, gid < 0 := by
  have hlt := UInt32.lt_iff_toNat_lt.1 hworker
  have hs : stride threads.toNat = threads.toNat := Nat.max_eq_left (by omega)
  have hstrides := strides_gridStride worker.toNat threads.toNat total
  rw [StrideFits, hs, Nat.not_le] at hfits
  rw [hs] at hstrides
  rw [toInt32_eq] at hv
  exact hv.exists_neg hlimit hthreads (by omega) hstrides hfits

end

/-- A quarter of all words as the number of threads brings the first thread back to its start. -/
theorem not_visits_quarter {limit : Int32} (hlimit : 1073741824 < limit) (gids : List Int32) :
    ¬ Visits limit 1073741824 0 gids := by
  have hcycle {gid : Int32} {gids : List Int32} (hv : Visits limit 1073741824 gid gids) :
      gid ∉ [0, 1073741824, -2147483648, -1073741824] := by
    intro hmem
    induction hv with
    | @stop gid hn =>
      have hle : ∀ g ∈ [(0 : Int32), 1073741824, -2147483648, -1073741824], g ≤ 1073741824 := by simp
      exact hn (Int32.lt_of_le_of_lt (hle gid hmem) hlimit)
    | @step gid gids _ _ ih =>
      have hnext : ∀ g ∈ [(0 : Int32), 1073741824, -2147483648, -1073741824],
          g + (1073741824 : UInt32).toInt32 ∈ [(0 : Int32), 1073741824, -2147483648, -1073741824] := by
        simp
      exact ih (hnext gid hmem)
  exact fun hv => hcycle hv List.mem_cons_self

namespace Operator

/-- The limit of an accepted operator, where it is the number of output elements. -/
theorem Checked.evalWrapped_limit {op : Operator} (hop : op.Checked) {scalars : Bindings}
    (hs : op.scalars = .ok scalars) (h : blockLimit.eval scalars = some (op.y.size : Int)) :
    blockLimit.evalWrapped scalars = some (.ofNat op.y.size) := by
  obtain ⟨n, h1, w1, c1, hx⟩ := Tensor.exists_isNhwc hop.order_x
  obtain ⟨n2, h2, w2, c2, hy⟩ := Tensor.exists_isNhwc hop.order_y
  rw [scalars_eq hx hy] at hs
  cases hs
  have hsize : op.y.size = n * h2 * w2 * c2 := Int.ofNat_inj.1 (eq_of_eval_blockLimit h)
  have hlt : n * h2 * w2 * c2 < 2 ^ 31 := hsize ▸ Nat.lt_succ_of_le hop.size_y
  rw [hsize]
  exact (blockLimit_computes rfl rfl rfl rfl ⟨hx.pos.1, hy.pos.2⟩ hlt).evalWrapped_eq
    (Nat.le_refl _)

/-- On an accepted operator a thread visits what a worker visits and stops exactly if its first index
behind the limit fits a signed word. Where it does not fit, a run that stops at all has visited a
negative index. -/
theorem loop_visits_iff {op : Operator} {ctx : LoweringEnv} {taken taken' : TakenNames}
    {kernels : List Kernel} {scalars : Bindings} {loop : GatherLoop}
    (h : (Handlers.standard.dispatch op ctx).outcome taken = (.ok kernels, taken'))
    (hscalars : op.scalars = .ok scalars)
    (hloop : (op.kind.outline op.kind.indexMap).loop = some loop)
    (hlimit : loop.limit.eval scalars = some (op.y.size : Int)) :
    ∃ limit, loop.limit.evalWrapped scalars = some limit ∧
      ∀ threads worker : UInt32, worker < threads → threads.toNat < 2 ^ 31 →
        (Visits limit threads worker.toInt32
          ((gridStride worker.toNat threads.toNat op.y.size).map .ofNat) ↔
            StrideFits worker.toNat threads.toNat op.y.size) ∧
        (¬ StrideFits worker.toNat threads.toNat op.y.size → ∀ gids,
          Visits limit threads worker.toInt32 gids → ∃ gid ∈ gids, gid < 0) ∧
        (op.y.size + threads.toNat ≤ 2 ^ 31 → StrideFits worker.toNat threads.toNat op.y.size) := by
  obtain ⟨r, hm, -, -⟩ := Handlers.standard_ok h
  have hop := checked_of_metadata hm
  rw [OperatorKind.loop_outline] at hloop
  cases hloop
  refine ⟨_, hop.evalWrapped_limit hscalars hlimit, fun threads worker hworker hthreads => ?_⟩
  have htotal := toInt_ofNat_of_le hop.size_y
  have hle : threads.toNat ≤ maxInt32 := Nat.le_of_lt_succ hthreads
  have hlt := UInt32.lt_iff_toNat_lt.1 hworker
  refine ⟨visits_gridStride_iff htotal hworker hle,
    fun hfits gids hv => hv.exists_neg_of_not_fits htotal hworker hle hfits, fun hsum => ?_⟩
  have hs : stride threads.toNat = threads.toNat := Nat.max_eq_left (by omega)
  exact strideFits_of_le (by omega) (by rwa [hs])

/-- Of 2 ^ 30 threads the last one visits one element of the largest square image and stops at the
greatest of all indices. -/
theorem loop_visits_iff_last_thread : ∃ op ctx kernel taken scalars loop limit,
    (Handlers.standard.dispatch op ctx).outcome .empty = (.ok [kernel], taken) ∧
      op.scalars = .ok scalars ∧ (op.kind.outline op.kind.indexMap).loop = some loop ∧
      loop.limit.eval scalars = some (op.y.size : Int) ∧ op.y.size = 2147395600 ∧
      loop.limit.evalWrapped scalars = some limit ∧
      Visits limit 1073741824 1073741823 [1073741823] := by
  let op : Operator := ⟨.depth2space, 0, ⟨"x", .nhwc, [1, 23170, 23170, 4], rfl, by simp⟩,
    ⟨"y", .nhwc, [1, 46340, 46340, 1], rfl, by simp⟩, 2, by decide⟩
  let layout : MemoryLayout :=
    ⟨[("x", ⟨.static, .fixed 0, 0⟩), ("y", ⟨.dynamic, .fixed 0, 0⟩)], by decide⟩
  have hop : op.Spreads 1 23170 23170 1 2 := ⟨rfl, ⟨rfl, rfl⟩, ⟨rfl, rfl⟩, rfl⟩
  have hy : op.y.size = 2147395600 := by decide +kernel
  have hlimit : blockLimit.eval (IndexMap.spreadScalars ⟨1, 23170, 23170, 1, 2⟩) =
      some (op.y.size : Int) := by decide +kernel
  obtain ⟨kernel, taken, hdispatch⟩ :=
    Handlers.exists_standard_ok op ⟨layout, .standard⟩ (by decide +kernel)
  obtain ⟨limit, hwrapped, hvisits⟩ := loop_visits_iff hdispatch hop.scalars_eq rfl hlimit
  have hgrid : gridStride 1073741823 1073741824 op.y.size = [1073741823] := by rw [hy]; rfl
  have hfits : StrideFits 1073741823 1073741824 op.y.size := by
    rw [StrideFits, hgrid]
    decide
  have hlast := (hvisits 1073741824 1073741823 (by decide) (by decide)).1.2 hfits
  change Visits limit 1073741824 1073741823
    ((gridStride 1073741823 1073741824 op.y.size).map .ofNat) at hlast
  rw [hgrid] at hlast
  exact ⟨op, _, kernel, taken, _, _, limit, hdispatch, hop.scalars_eq, rfl, hlimit, hy, hwrapped,
    hlast⟩

/-- On two elements the second of 2 ^ 31 - 1 threads should visit the index 1 alone, and it goes on
with two negative ones. -/
theorem loop_visits_negative_index : ∃ op ctx kernel taken scalars loop limit,
    (Handlers.standard.dispatch op ctx).outcome .empty = (.ok [kernel], taken) ∧
      op.scalars = .ok scalars ∧ (op.kind.outline op.kind.indexMap).loop = some loop ∧
      loop.limit.eval scalars = some (op.y.size : Int) ∧ op.y.size = 2 ∧
      loop.limit.evalWrapped scalars = some limit ∧ gridStride 1 2147483647 2 = [1] ∧
      ¬ Visits limit 2147483647 1 [1] ∧ Visits limit 2147483647 1 [1, -2147483648, -1] := by
  let op : Operator := ⟨.depth2space, 0, ⟨"x", .nhwc, [1, 1, 1, 2], rfl, by simp⟩,
    ⟨"y", .nhwc, [1, 1, 1, 2], rfl, by simp⟩, 1, by decide⟩
  let layout : MemoryLayout :=
    ⟨[("x", ⟨.static, .fixed 0, 2⟩), ("y", ⟨.dynamic, .fixed 0, 2⟩)], by decide⟩
  have hop : op.Spreads 1 1 1 2 1 := ⟨rfl, ⟨rfl, rfl⟩, ⟨rfl, rfl⟩, rfl⟩
  have hlimit : blockLimit.eval (IndexMap.spreadScalars ⟨1, 1, 1, 2, 1⟩) =
      some (op.y.size : Int) := by decide +kernel
  have hcomputes := (hop.computesBelow (Nat.lt_succ_self _)).limit
  obtain ⟨kernel, taken, hdispatch⟩ :=
    Handlers.exists_standard_ok op ⟨layout, .standard⟩ (by decide +kernel)
  have hvisits : Visits 2 2147483647 1 [1, -2147483648, -1] :=
    .step (by decide) (.step (by decide) (.step (by decide) (.stop (by decide))))
  refine ⟨op, _, kernel, taken, _, _, 2, hdispatch, hop.scalars_eq, rfl, hlimit, rfl,
    hcomputes.evalWrapped_eq (by decide), rfl, fun h => ?_, hvisits⟩
  cases h.unique hvisits

end Operator

end TensorKernels
