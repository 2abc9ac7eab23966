import Mathlib.Data.List.Perm.Subperm
import TensorKernels.Proofs.Index.BlockMap
import TensorKernels.Proofs.Index.Gathering

set_option autoImplicit false

namespace TensorKernels

namespace Operator

/-- The operator moves groups of channels of `x` to blocks of pixels of `y`. -/
structure Spreads (op : Operator) (n h w c r : Nat) : Prop where
  kind : op.kind = .depth2space
  x : op.x.IsNhwc n h w (c * r * r)
  y : op.y.IsNhwc n (h * r) (w * r) c
  block : op.block.toNat = r

/-- The operator moves blocks of pixels of `x` to groups of channels of `y`. -/
structure Packs (op : Operator) (n h w c r : Nat) : Prop where
  kind : op.kind = .space2depth
  x : op.x.IsNhwc n (h * r) (w * r) c
  y : op.y.IsNhwc n h w (c * r * r)
  block : op.block.toNat = r

variable {op : Operator} {n h w c r : Nat}

theorem Spreads.scalars_eq (hop : op.Spreads n h w c r) :
    op.scalars = .ok (IndexMap.spreadScalars ⟨n, h, w, c, r⟩) := by
  rw [Operator.scalars_eq hop.x hop.y, hop.block]
  rfl

theorem Packs.scalars_eq (hop : op.Packs n h w c r) :
    op.scalars = .ok (IndexMap.packScalars ⟨n, h, w, c, r⟩) := by
  rw [Operator.scalars_eq hop.x hop.y, hop.block]
  rfl

theorem Spreads.count_eq (hop : op.Spreads n h w c r) :
    op.x.count = (BlockShape.mk n h w c r).volume ∧ op.y.count = (BlockShape.mk n h w c r).volume := by
  constructor
  · calc op.x.count
      _ = n * h * w * (c * r * r) := hop.x.count_eq
      _ = _ := (BlockShape.volume_eq_deep ⟨n, h, w, c, r⟩).symm
  · calc op.y.count
      _ = n * (h * r) * (w * r) * c := hop.y.count_eq
      _ = _ := (BlockShape.volume_eq_wide ⟨n, h, w, c, r⟩).symm

theorem Packs.count_eq (hop : op.Packs n h w c r) :
    op.x.count = (BlockShape.mk n h w c r).volume ∧ op.y.count = (BlockShape.mk n h w c r).volume := by
  constructor
  · calc op.x.count
      _ = n * (h * r) * (w * r) * c := hop.x.count_eq
      _ = _ := (BlockShape.volume_eq_wide ⟨n, h, w, c, r⟩).symm
  · calc op.y.count
      _ = n * h * w * (c * r * r) := hop.y.count_eq
      _ = _ := (BlockShape.volume_eq_deep ⟨n, h, w, c, r⟩).symm

theorem size_eq_of_count_eq {volume : Nat} (hcount : op.x.count = volume ∧ op.y.count = volume)
    (hV : volume < 2 ^ 63) : op.x.size = volume ∧ op.y.size = volume := by
  obtain ⟨hx, hy⟩ := hcount
  rw [Tensor.size_eq_count (by omega), Tensor.size_eq_count (by omega)]
  exact ⟨hx, hy⟩

end Operator

namespace IndexMap

variable {m : IndexMap} {scalars : Bindings} {s : BlockShape} {target source : BlockElement → Nat}

theorem Computes.sourceIndex?_eq {B gid v : Nat} (h : m.Computes B scalars gid v) (hB : B ≤ 2 ^ 63) :
    m.sourceIndex? scalars gid = some v := by
  rw [sourceIndex?, h.eval_eq hB]
  rfl

theorem sources_of_enumerates (ht : s.Enumerates target) (hs : s.Enumerates source)
    (hm : ∀ p : BlockElement, p.Within s → m.Computes (2 ^ 63) scalars (target p) (source p)) :
    ∃ indices, m.sources scalars s.volume = some indices ∧ indices.Perm (List.range s.volume) ∧
      ∀ p : BlockElement, p.Within s → indices[target p]? = some (source p) := by
  have hsource (p : BlockElement) (hp : p.Within s) :
      m.sourceIndex? scalars (target p) = some (source p) :=
    (hm p hp).sourceIndex?_eq (Nat.le_refl _)
  obtain ⟨indices, hindices, hlength, hget⟩ := exists_mapM_range (f := m.sourceIndex? scalars)
    (n := s.volume) fun g hg => by
      obtain ⟨p, hp, rfl⟩ := ht.exists_eq hg
      rw [hsource p hp]
      rfl
  have hgets (p : BlockElement) (hp : p.Within s) : indices[target p]? = some (source p) := by
    rw [hget _ (ht.lt hp), hsource p hp]
  refine ⟨indices, hindices, ?_, hgets⟩
  have hnodup : indices.Nodup := by
    rw [List.nodup_iff_getElem?_ne_getElem?]
    intro g g' hlt hg' e
    obtain ⟨p, hp, rfl⟩ := ht.exists_eq (g := g) (by omega)
    obtain ⟨q, hq, rfl⟩ := ht.exists_eq (g := g') (by omega)
    rw [hgets p hp, hgets q hq, Option.some_inj] at e
    rw [hs.inj hp hq e] at hlt
    omega
  have hsub : indices ⊆ List.range s.volume := by
    intro v hv
    obtain ⟨g, hg, rfl⟩ := List.getElem_of_mem hv
    obtain ⟨p, hp, rfl⟩ := ht.exists_eq (g := g) (by omega)
    have e := hgets p hp
    rw [List.getElem?_eq_getElem hg, Option.some_inj] at e
    rw [e, List.mem_range]
    exact hs.lt hp
  exact (List.subperm_of_subset hnodup hsub).perm_of_length_le (by simp [hlength])

theorem depth2space_sources (hB : s.volume < 2 ^ 63) :
    ∃ indices, depth2space.sources (spreadScalars s) s.volume = some indices ∧
      indices.Perm (List.range s.volume) ∧
      ∀ p : BlockElement, p.Within s → indices[p.wide s]? = some (p.deep s) :=
  sources_of_enumerates s.enumerates_wide s.enumerates_deep fun _ hp => depth2space_computes hp hB

theorem space2depth_sources (hB : s.volume < 2 ^ 63) :
    ∃ indices, space2depth.sources (packScalars s) s.volume = some indices ∧
      indices.Perm (List.range s.volume) ∧
      ∀ p : BlockElement, p.Within s → indices[p.deep s]? = some (p.wide s) :=
  sources_of_enumerates s.enumerates_deep s.enumerates_wide fun _ hp => space2depth_computes hp hB

end IndexMap

theorem BlockElement.exists_wide_eq {n h w c r i j k l : Nat} (hi : i < n) (hj : j < h * r)
    (hk : k < w * r) (hl : l < c) : ∃ p : BlockElement, p.Within ⟨n, h, w, c, r⟩ ∧
      p.wide ⟨n, h, w, c, r⟩ = flatIndex (h * r) (w * r) c i j k l ∧
      p.deep ⟨n, h, w, c, r⟩ =
        flatIndex h w (c * r * r) i (j / r) (k / r) ((j % r * r + k % r) * c + l) := by
  have hr : 0 < r := Nat.pos_of_ne_zero fun e => by simp [e] at hj
  refine ⟨⟨i, j / r, k / r, j % r, k % r, l⟩, ⟨hi, ?_, ?_, ?_, ?_, hl⟩, ?_, rfl⟩
  · exact Nat.div_lt_of_lt_mul (Nat.mul_comm h r ▸ hj)
  · exact Nat.div_lt_of_lt_mul (Nat.mul_comm w r ▸ hk)
  · exact Nat.mod_lt j hr
  · exact Nat.mod_lt k hr
  · simp only [wide, Nat.div_add_mod']

/-- Every source is within the input, and what is read for an output element is the input element
that the coordinates say. -/
theorem sources_rearrange_blocks {n h w c r : Nat} (hV : n * h * w * c * r * r < 2 ^ 63) :
    (∀ op : Operator, op.Spreads n h w c r → ∃ scalars indices, op.scalars = .ok scalars ∧
      IndexMap.depth2space.sources scalars op.y.size = some indices ∧
      indices.Perm (List.range op.y.size) ∧ op.x.size = op.y.size ∧
      ∀ i j k l, i < n → j < h * r → k < w * r → l < c →
        indices[flatIndex (h * r) (w * r) c i j k l]? =
          some (flatIndex h w (c * r * r) i (j / r) (k / r) ((j % r * r + k % r) * c + l))) ∧
    ∀ op : Operator, op.Packs n h w c r → ∃ scalars indices, op.scalars = .ok scalars ∧
      IndexMap.space2depth.sources scalars op.y.size = some indices ∧
      indices.Perm (List.range op.y.size) ∧ op.x.size = op.y.size ∧
      ∀ i j k a b l, i < n → j < h → k < w → a < r → b < r → l < c →
        indices[flatIndex h w (c * r * r) i j k ((a * r + b) * c + l)]? =
          some (flatIndex (h * r) (w * r) c i (j * r + a) (k * r + b) l) := by
  constructor
  · intro op hop
    obtain ⟨indices, hs, hperm, hget⟩ := IndexMap.depth2space_sources (s := ⟨n, h, w, c, r⟩) hV
    obtain ⟨hx, hy⟩ := Operator.size_eq_of_count_eq hop.count_eq hV
    refine ⟨_, indices, hop.scalars_eq, hy ▸ hs, hy ▸ hperm, hx.trans hy.symm, ?_⟩
    intro i j k l hi hj hk hl
    obtain ⟨p, hp, hw, hd⟩ := BlockElement.exists_wide_eq hi hj hk hl
    rw [← hw, ← hd]
    exact hget p hp
  · intro op hop
    obtain ⟨indices, hs, hperm, hget⟩ := IndexMap.space2depth_sources (s := ⟨n, h, w, c, r⟩) hV
    obtain ⟨hx, hy⟩ := Operator.size_eq_of_count_eq hop.count_eq hV
    refine ⟨_, indices, hop.scalars_eq, hy ▸ hs, hy ▸ hperm, hx.trans hy.symm, ?_⟩
    intro i j k a b l hi hj hk ha hb hl
    exact hget ⟨i, j, k, a, b, l⟩ ⟨hi, hj, hk, ha, hb, hl⟩

/-- From (2, 1, 2, 12) to (2, 2, 4, 3) the element at (1, 1, 3, 2) is read from (1, 0, 1, 11). -/
theorem sources_spread_two_images : 2 * 1 * 2 * 3 * 2 * 2 < 2 ^ 63 ∧
    ∃ op : Operator, op.Spreads 2 1 2 3 2 ∧ ∃ scalars indices, op.scalars = .ok scalars ∧
      IndexMap.depth2space.sources scalars op.y.size = some indices ∧
      indices[flatIndex 2 4 3 1 1 3 2]? = some (flatIndex 1 2 12 1 0 1 11) := by
  let op : Operator := ⟨.depth2space, 7, ⟨"x", .nhwc, [2, 1, 2, 12], rfl, by simp⟩,
    ⟨"y", .nhwc, [2, 2, 4, 3], rfl, by simp⟩, 2, by decide⟩
  have hop : op.Spreads 2 1 2 3 2 := ⟨rfl, ⟨rfl, rfl⟩, ⟨rfl, rfl⟩, rfl⟩
  obtain ⟨scalars, indices, hs, hi, -, -, hget⟩ := (sources_rearrange_blocks (by decide)).1 op hop
  exact ⟨by decide, op, hop, scalars, indices, hs, hi,
    hget 1 1 3 2 (by decide) (by decide) (by decide) (by decide)⟩

namespace IndexMap

variable {α : Type} {m m' : IndexMap} {scalars scalars' : Bindings} {s : BlockShape}
  {target source : BlockElement → Nat}

theorem gather_of_enumerates (ht : s.Enumerates target) (hs : s.Enumerates source)
    (hm : ∀ p : BlockElement, p.Within s → m.Computes (2 ^ 63) scalars (target p) (source p))
    {input : List α} (hinput : input.length = s.volume) :
    ∃ output, m.gather scalars input.toArray s.volume = some output ∧ output.length = s.volume ∧
      ∀ p : BlockElement, p.Within s → output[target p]? = input[source p]? := by
  have hfetch (p : BlockElement) (hp : p.Within s) :
      m.fetch? scalars input.toArray (target p) = input[source p]? := by
    rw [fetch?, (hm p hp).sourceIndex?_eq (Nat.le_refl _), Option.bind_eq_bind, Option.bind_some,
      List.getElem?_toArray]
  obtain ⟨output, hout, hlength, hget⟩ := exists_mapM_range
    (f := m.fetch? scalars input.toArray) (n := s.volume) fun g hg => by
      obtain ⟨p, hp, rfl⟩ := ht.exists_eq hg
      rw [hfetch p hp, List.getElem?_eq_getElem (hinput ▸ hs.lt hp)]
      rfl
  refine ⟨output, hout, hlength, fun p hp => ?_⟩
  rw [hget _ (ht.lt hp), hfetch p hp]

theorem gather_gather (ht : s.Enumerates target) (hs : s.Enumerates source)
    (hm : ∀ p : BlockElement, p.Within s → m.Computes (2 ^ 63) scalars (target p) (source p))
    (hm' : ∀ p : BlockElement, p.Within s → m'.Computes (2 ^ 63) scalars' (source p) (target p))
    {input : List α} (hinput : input.length = s.volume) :
    ∃ middle, m.gather scalars input.toArray s.volume = some middle ∧
      m'.gather scalars' middle.toArray s.volume = some input := by
  obtain ⟨middle, hmiddle, hlength, hget⟩ := gather_of_enumerates ht hs hm hinput
  obtain ⟨output, hout, hlength', hget'⟩ := gather_of_enumerates hs ht hm' hlength
  have hsame : output = input := by
    apply List.ext_getElem?
    intro g
    by_cases hg : g < s.volume
    · obtain ⟨p, hp, rfl⟩ := hs.exists_eq hg
      rw [hget' p hp, hget p hp]
    · rw [List.getElem?_eq_none (by omega), List.getElem?_eq_none (by omega)]
  exact ⟨middle, hmiddle, hsame ▸ hout⟩

end IndexMap

theorem runWorkers_undo {n h w c r : Nat} (hV : n * h * w * c * r * r < 2 ^ 63)
    {spread pack : Operator} (hspread : spread.Spreads n h w c r) (hpack : pack.Packs n h w c r) :
    ∃ spreads packs, spread.scalars = .ok spreads ∧ pack.scalars = .ok packs ∧
      ∀ (α : Type) (input : List α) (p q : Nat), input.length = n * h * w * c * r * r →
        (∃ wide, IndexMap.depth2space.runWorkers spreads input.toArray spread.y.size p = some wide ∧
          IndexMap.space2depth.runWorkers packs wide.toArray pack.y.size q = some input) ∧
        ∃ deep, IndexMap.space2depth.runWorkers packs input.toArray pack.y.size p = some deep ∧
          IndexMap.depth2space.runWorkers spreads deep.toArray spread.y.size q = some input := by
  refine ⟨_, _, hspread.scalars_eq, hpack.scalars_eq, fun α input p q hinput => ?_⟩
  have hforward (e : BlockElement) (he : e.Within ⟨n, h, w, c, r⟩) :=
    IndexMap.depth2space_computes he hV
  have hback (e : BlockElement) (he : e.Within ⟨n, h, w, c, r⟩) :=
    IndexMap.space2depth_computes he hV
  rw [(Operator.size_eq_of_count_eq hspread.count_eq hV).2,
    (Operator.size_eq_of_count_eq hpack.count_eq hV).2]
  simp only [IndexMap.runWorkers_eq_gather]
  have hwide := BlockShape.enumerates_wide ⟨n, h, w, c, r⟩
  have hdeep := BlockShape.enumerates_deep ⟨n, h, w, c, r⟩
  exact ⟨IndexMap.gather_gather hwide hdeep hforward hback hinput,
    IndexMap.gather_gather hdeep hwide hback hforward hinput⟩

/-- No worker at all counts as one, and five workers do not divide sixteen elements. -/
theorem runWorkers_undo_sixteen : 1 * 2 * 1 * 2 * 2 * 2 < 2 ^ 63 ∧
    ∃ spread pack : Operator, spread.Spreads 1 2 1 2 2 ∧ pack.Packs 1 2 1 2 2 ∧
      ∃ spreads packs wide, spread.scalars = .ok spreads ∧ pack.scalars = .ok packs ∧
        IndexMap.depth2space.runWorkers spreads (List.range 16).toArray 16 0 = some wide ∧
        IndexMap.space2depth.runWorkers packs wide.toArray 16 5 = some (List.range 16) := by
  let spread : Operator := ⟨.depth2space, 0, ⟨"x", .nhwc, [1, 2, 1, 8], rfl, by simp⟩,
    ⟨"y", .nhwc, [1, 4, 2, 2], rfl, by simp⟩, 2, by decide⟩
  let pack : Operator := ⟨.space2depth, 1, ⟨"y", .nhwc, [1, 4, 2, 2], rfl, by simp⟩,
    ⟨"z", .nhwc, [1, 2, 1, 8], rfl, by simp⟩, 2, by decide⟩
  have hspread : spread.Spreads 1 2 1 2 2 := ⟨rfl, ⟨rfl, rfl⟩, ⟨rfl, rfl⟩, rfl⟩
  have hpack : pack.Packs 1 2 1 2 2 := ⟨rfl, ⟨rfl, rfl⟩, ⟨rfl, rfl⟩, rfl⟩
  obtain ⟨spreads, packs, hs, hp, hundo⟩ := runWorkers_undo (by decide) hspread hpack
  obtain ⟨⟨wide, hwide, hback⟩, -⟩ := hundo Nat (List.range 16) 0 5 (by decide)
  exact ⟨by decide, spread, pack, hspread, hpack, spreads, packs, wide, hs, hp, hwide, hback⟩

end TensorKernels
