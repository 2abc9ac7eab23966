import TensorKernels.Index.Device
import TensorKernels.Proofs.Index.BlockSources
import TensorKernels.Proofs.Lowering.Dispatch

set_option autoImplicit false

namespace TensorKernels

theorem isIndex_natCast {n : Nat} (h : n < 2 ^ 31) : IsIndex n := by
  unfold IsIndex maxInt32
  omega

namespace Expr

variable {B : Nat} {env : Bindings} {e : Expr} {v : Nat}

theorem Computes.indexed (h : e.Computes B env v) (hB : B ≤ 2 ^ 31) : e.Indexed env := by
  have hindex {e : Expr} {v : Nat} (h : e.Computes B env v) :
      ∃ n, e.eval env = some n ∧ IsIndex n :=
    ⟨v, h.eval_eq (by omega), isIndex_natCast (Nat.lt_of_lt_of_le h.lt hB)⟩
  induction h with
  | var hv hlt => exact hindex (.var hv hlt)
  | const hlt => exact isIndex_natCast (Nat.lt_of_lt_of_le hlt hB)
  | add ha hb hlt iha ihb => exact ⟨iha, ihb, hindex (.add ha hb hlt)⟩
  | mul ha hb hlt iha ihb => exact ⟨iha, ihb, hindex (.mul ha hb hlt)⟩
  | div ha hb hpos iha ihb => exact ⟨iha, ihb, hindex (.div ha hb hpos)⟩
  | rem ha hb hpos iha ihb => exact ⟨iha, ihb, hindex (.rem ha hb hpos)⟩

theorem Computes.evalWrapped_eq (h : e.Computes B env v) (hB : B ≤ 2 ^ 31) :
    e.evalWrapped env = some (Int32.ofNat v) := by
  rw [evalWrapped_of_indexed (h.indexed hB), h.eval_eq (by omega)]
  rfl

end Expr

namespace IndexMap

variable {B gid v : Nat} {env env' scalars : Bindings} {m : IndexMap} {s : BlockShape}

theorem Extends.indexedFrom {source : Expr} {bs : List (String × Expr)} (h : Extends B env bs env')
    (hs : source.Computes B env' v) (hB : B ≤ 2 ^ 31) : IndexedFrom source env bs := by
  induction h with
  | nil _ => exact hs.indexed hB
  | cons he _ ih => exact ⟨he.indexed hB, _, he.eval_eq (by omega), ih hs⟩

theorem Computes.indexed (h : m.Computes B scalars gid v) (hg : gid < B) (hB : B ≤ 2 ^ 31) :
    m.Indexed gid scalars := by
  obtain ⟨_, hx, hs⟩ := h
  exact ⟨isIndex_natCast (Nat.lt_of_lt_of_le hg hB), hx.indexedFrom hs hB⟩

theorem Computes.evalWrapped_eq (h : m.Computes B scalars gid v) (hg : gid < B) (hB : B ≤ 2 ^ 31) :
    m.evalWrapped (Int32.ofNat gid) scalars = some (Int32.ofNat v) := by
  have heval := (h.indexed hg hB).evalWrapped_eq
  rw [h.eval_eq (by omega)] at heval
  exact heval

end IndexMap

/-- The number of output elements, as the loop of a block rearrangement computes it. -/
def blockLimit : Expr := .var "N" * .var "H2" * .var "W2" * .var "C2"

namespace OperatorKind

theorem loop_outline (kind : OperatorKind) (map : IndexMap) :
    (kind.outline map).loop = some ⟨blockLimit, map, "y", "x"⟩ := rfl

end OperatorKind

theorem blockLimit_computes {B n h w c : Nat} {env : Bindings} (hN : env.get? "N" = some (n : Int))
    (hH : env.get? "H2" = some (h : Int)) (hW : env.get? "W2" = some (w : Int))
    (hC : env.get? "C2" = some (c : Int)) (pos : 0 < n ∧ 0 < h ∧ 0 < w ∧ 0 < c)
    (hlt : n * h * w * c < B) : blockLimit.Computes B env (n * h * w * c) := by
  obtain ⟨pn, ph, pw, pc⟩ := pos
  have image : n ≤ n * h := Nat.le_mul_of_pos_right _ ph
  have height : h ≤ n * h := Nat.le_mul_of_pos_left _ pn
  have row : n * h ≤ n * h * w := Nat.le_mul_of_pos_right _ pw
  have width : w ≤ n * h * w := Nat.le_mul_of_pos_left _ (Nat.mul_pos pn ph)
  have pixel : n * h * w ≤ n * h * w * c := Nat.le_mul_of_pos_right _ pc
  have channel : c ≤ n * h * w * c :=
    Nat.le_mul_of_pos_left _ (Nat.mul_pos (Nat.mul_pos pn ph) pw)
  exact .mul (.mul (.mul (.var hN (by omega)) (.var hH (by omega)) (by omega))
    (.var hW (by omega)) (by omega)) (.var hC (by omega)) hlt

namespace Expr

variable {env : Bindings} {a b : Expr} {v : Int}

theorem eval_mul_eq_some (h : (a * b).eval env = some v) :
    ∃ u w, a.eval env = some u ∧ b.eval env = some w ∧ v = u * w := by
  change (do let u ← a.eval env; let w ← b.eval env; BinOp.mul.value? u w) = some v at h
  obtain ⟨u, hu, h⟩ := Option.bind_eq_some_iff.1 h
  obtain ⟨w, hw, h⟩ := Option.bind_eq_some_iff.1 h
  exact ⟨u, w, hu, hw, (int64?_eq_some.1 h).1.symm⟩

end Expr

theorem eq_of_eval_blockLimit {r n c1 c2 h1 h2 w1 w2 : Nat} {v : Int}
    (h : blockLimit.eval (blockBindings r n c1 c2 h1 h2 w1 w2) = some v) :
    v = (n * h2 * w2 * c2 : Nat) := by
  obtain ⟨_, _, hpixel, hC, rfl⟩ := Expr.eval_mul_eq_some h
  obtain ⟨_, _, hrow, hW, rfl⟩ := Expr.eval_mul_eq_some hpixel
  obtain ⟨_, _, hN, hH, rfl⟩ := Expr.eval_mul_eq_some hrow
  cases hN
  cases hH
  cases hW
  cases hC
  push_cast
  rfl

namespace Operator

variable {op : Operator} {n h w c r : Nat}

/-- The scalars, the limit and the sources of a block rearrangement, all below a bound on the volume. -/
structure ComputesBelow (op : Operator) (B : Nat) (scalars : Bindings) : Prop where
  scalars_eq : op.scalars = .ok scalars
  limit : blockLimit.Computes B scalars op.y.count
  source : ∀ gid < op.y.count, ∃ v < op.x.count, op.kind.indexMap.Computes B scalars gid v

theorem Spreads.computesBelow {B : Nat} (hop : op.Spreads n h w c r) (hB : op.y.count < B) :
    op.ComputesBelow B (IndexMap.spreadScalars ⟨n, h, w, c, r⟩) := by
  obtain ⟨hx, hy⟩ := hop.count_eq
  refine ⟨hop.scalars_eq, ?_, fun gid hg => ?_⟩
  · rw [hop.y.count_eq] at hB ⊢
    exact blockLimit_computes rfl rfl rfl rfl hop.y.pos hB
  · rw [hy] at hg hB
    obtain ⟨p, hp, rfl⟩ := BlockElement.exists_wide hg
    rw [hop.kind, hx]
    exact ⟨_, hp.deep_lt, IndexMap.depth2space_computes hp hB⟩

theorem Packs.computesBelow {B : Nat} (hop : op.Packs n h w c r) (hB : op.y.count < B) :
    op.ComputesBelow B (IndexMap.packScalars ⟨n, h, w, c, r⟩) := by
  obtain ⟨hx, hy⟩ := hop.count_eq
  refine ⟨hop.scalars_eq, ?_, fun gid hg => ?_⟩
  · rw [hop.y.count_eq] at hB ⊢
    exact blockLimit_computes rfl rfl rfl rfl hop.y.pos hB
  · rw [hy] at hg hB
    obtain ⟨p, hp, rfl⟩ := BlockElement.exists_deep hg
    rw [hop.kind, hx]
    exact ⟨_, hp.wide_lt, IndexMap.space2depth_computes hp hB⟩

theorem exists_computesBelow {B : Nat} (hop : op.Spreads n h w c r ∨ op.Packs n h w c r)
    (hB : op.y.count < B) : ∃ scalars, op.ComputesBelow B scalars := by
  rcases hop with hop | hop
  · exact ⟨_, hop.computesBelow hB⟩
  · exact ⟨_, hop.computesBelow hB⟩

theorem exists_scalars_eq (hop : op.Spreads n h w c r ∨ op.Packs n h w c r) :
    ∃ scalars, op.scalars = .ok scalars := by
  rcases hop with hop | hop
  · exact ⟨_, hop.scalars_eq⟩
  · exact ⟨_, hop.scalars_eq⟩

theorem count_eq_count (hop : op.Spreads n h w c r ∨ op.Packs n h w c r) :
    op.x.count = op.y.count := by
  rcases hop with hop | hop
  · exact hop.count_eq.1.trans hop.count_eq.2.symm
  · exact hop.count_eq.1.trans hop.count_eq.2.symm

/-- The limit is computed without a loss, so that it is the number of elements or nothing. -/
theorem eq_count_of_limit (hop : op.Spreads n h w c r ∨ op.Packs n h w c r) {scalars : Bindings}
    (hscalars : op.scalars = .ok scalars) {v : Int} (hv : blockLimit.eval scalars = some v) :
    v = op.y.count := by
  rcases hop with hop | hop
  · rw [Operator.scalars_eq hop.x hop.y] at hscalars
    cases hscalars
    rw [eq_of_eval_blockLimit hv, hop.y.count_eq]
  · rw [Operator.scalars_eq hop.x hop.y] at hscalars
    cases hscalars
    rw [eq_of_eval_blockLimit hv, hop.y.count_eq]

/-- What a device computes for an operator are indices, without a zero divisor: a quotient or
remainder by zero has no value. It reads the elements that the map gives. -/
structure ReadsSources (op : Operator) (scalars : Bindings) (loop : GatherLoop) : Prop where
  limit_indexed : loop.limit.Indexed scalars
  limit_eval : loop.limit.eval scalars = some (op.y.size : Int)
  limit_evalWrapped : loop.limit.evalWrapped scalars = some (Int32.ofNat op.y.size)
  source : ∀ gid < op.y.size, loop.map.Indexed gid scalars ∧
    ∃ source < op.x.size, loop.map.eval gid scalars = some (source : Int) ∧
      loop.map.evalWrapped (Int32.ofNat gid) scalars = some (Int32.ofNat source)

theorem ComputesBelow.readsSources {scalars : Bindings} (h : op.ComputesBelow (2 ^ 31) scalars)
    (hx : op.x.size = op.x.count) (hy : op.y.size = op.y.count) :
    op.ReadsSources scalars ⟨blockLimit, op.kind.indexMap, "y", "x"⟩ := by
  refine ⟨h.limit.indexed (Nat.le_refl _), ?_, ?_, fun gid hg => ?_⟩
  · rw [hy]
    exact h.limit.eval_eq (by omega)
  · rw [hy]
    exact h.limit.evalWrapped_eq (Nat.le_refl _)
  · rw [hy] at hg
    rw [hx]
    obtain ⟨v, hv, hm⟩ := h.source gid hg
    have hgid := Nat.lt_trans hg h.limit.lt
    exact ⟨hm.indexed hgid (Nat.le_refl _), v, hv, hm.eval_eq (by omega),
      hm.evalWrapped_eq hgid (Nat.le_refl _)⟩

/-- An operator has passed the check of its size. The limit of its loop is the size exactly if the
count of the elements has not wrapped around, and then the device computes nothing but indices and
reads the sources. Both tensors have one number of elements, so that the check of the output is
enough. -/
theorem device_reads_source_iff (hop : op.Spreads n h w c r ∨ op.Packs n h w c r)
    (hsize : checkSize op.y = .ok ()) :
    ∃ scalars loop, op.scalars = .ok scalars ∧
      (op.kind.outline op.kind.indexMap).loop = some loop ∧
      (loop.limit.eval scalars = some (op.y.size : Int) ↔ op.y.count < 2 ^ 64) ∧
      (op.y.count < 2 ^ 64 → op.ReadsSources scalars loop) := by
  obtain ⟨scalars, hscalars⟩ := exists_scalars_eq hop
  have hreads (hcount : op.y.count < 2 ^ 64) :
      op.ReadsSources scalars ⟨blockLimit, op.kind.indexMap, "y", "x"⟩ := by
    have hy := Tensor.size_eq_count hcount
    have hx := Tensor.size_eq_count (t := op.x) (count_eq_count hop ▸ hcount)
    have hlt : op.y.count < 2 ^ 31 := hy ▸ Nat.lt_succ_of_le (le_of_checkSize hsize)
    obtain ⟨scalars', hcomputes⟩ := exists_computesBelow hop hlt
    obtain rfl := Except.ok.inj (hscalars.symm.trans hcomputes.scalars_eq)
    exact hcomputes.readsSources hx hy
  refine ⟨scalars, _, hscalars, op.kind.loop_outline _, ⟨fun hlimit => ?_, fun hcount => ?_⟩, hreads⟩
  · have hcount := eq_count_of_limit hop hscalars hlimit
    rw [← Int.ofNat_inj.1 hcount]
    exact op.y.size_lt
  · exact (hreads hcount).limit_eval

/-- The largest square image that still fits: its last element is read from the last one. -/
theorem device_reads_source_largest_square : ∃ op : Operator, op.Spreads 1 23170 23170 1 2 ∧
    checkSize op.y = .ok () ∧ op.y.count < 2 ^ 64 ∧ ∃ scalars loop, op.scalars = .ok scalars ∧
      (op.kind.outline op.kind.indexMap).loop = some loop ∧
      loop.limit.evalWrapped scalars = some 2147395600 ∧
      loop.map.Indexed 2147395599 scalars ∧
      ∃ source < op.x.size, loop.map.eval 2147395599 scalars = some (source : Int) ∧
        loop.map.evalWrapped 2147395599 scalars = some (Int32.ofNat source) := by
  let op : Operator := ⟨.depth2space, 0, ⟨"x", .nhwc, [1, 23170, 23170, 4], rfl, by simp⟩,
    ⟨"y", .nhwc, [1, 46340, 46340, 1], rfl, by simp⟩, 2, by decide⟩
  have hop : op.Spreads 1 23170 23170 1 2 := ⟨rfl, ⟨rfl, rfl⟩, ⟨rfl, rfl⟩, rfl⟩
  have hsize : checkSize op.y = .ok () := rfl
  have hcount : op.y.count < 2 ^ 64 := by decide +kernel
  have hy : op.y.size = 2147395600 := by decide +kernel
  obtain ⟨scalars, loop, hscalars, hloop, -, hreads⟩ := device_reads_source_iff (.inl hop) hsize
  obtain ⟨-, -, hlimit, hgids⟩ := hreads hcount
  obtain ⟨hindexed, hsource⟩ := hgids 2147395599 (by rw [hy]; decide)
  rw [hy] at hlimit
  exact ⟨op, hop, hsize, hcount, scalars, loop, hscalars, hloop, hlimit, hindexed, hsource⟩

/-- More than 2 ^ 64 elements that are counted as 65536 of them are accepted, and the limit of the
loop has no value. -/
theorem device_limit_of_wrapped_count : ∃ op ctx kernel taken scalars loop,
    op.Spreads 65536 193 65537 22253377 1 ∧
      (Handlers.standard.dispatch op ctx).outcome .empty = (.ok [kernel], taken) ∧
      op.scalars = .ok scalars ∧ (op.kind.outline op.kind.indexMap).loop = some loop ∧
      op.y.size = 65536 ∧ loop.limit.eval scalars = none ∧ ¬ loop.limit.Indexed scalars := by
  let x : Tensor := ⟨"x", .nhwc, [65536, 193, 65537, 22253377], rfl, by simp⟩
  let y : Tensor := ⟨"y", .nhwc, [65536, 193, 65537, 22253377], rfl, by simp⟩
  let op : Operator := ⟨.depth2space, 0, x, y, 1, by decide⟩
  let layout : MemoryLayout :=
    ⟨[("x", ⟨.static, .fixed 0, 0⟩), ("y", ⟨.dynamic, .fixed 0, 0⟩)], by decide⟩
  have hop : op.Spreads 65536 193 65537 22253377 1 := ⟨rfl, ⟨rfl, rfl⟩, ⟨rfl, rfl⟩, rfl⟩
  obtain ⟨kernel, taken, hdispatch⟩ :=
    Handlers.exists_standard_ok op ⟨layout, .standard⟩ (by decide +kernel)
  have hlimit : blockLimit.eval (IndexMap.spreadScalars ⟨65536, 193, 65537, 22253377, 1⟩) = none := by
    decide +kernel
  refine ⟨op, _, kernel, taken, _, _, hop, hdispatch, hop.scalars_eq, rfl, by decide +kernel,
    hlimit, fun hindexed => ?_⟩
  obtain ⟨n, hn, -⟩ := hindexed.exists_eval
  cases hlimit.symm.trans hn

end Operator

end TensorKernels
