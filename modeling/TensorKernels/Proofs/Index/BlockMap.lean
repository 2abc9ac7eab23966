import Mathlib.Algebra.Group.Nat.Defs
import TensorKernels.Index.Gather
import TensorKernels.Index.Map
import TensorKernels.Proofs.Index.BlockElement
import TensorKernels.Proofs.Tensor.Extents

set_option autoImplicit false

namespace TensorKernels

namespace Expr

inductive Computes (B : Nat) (env : Bindings) : Expr → Nat → Prop
  | var {name : String} {v : Nat} : env.get? name = some (v : Int) → v < B →
    Computes B env (.var name) v
  | const {v : Nat} : v < B → Computes B env (.const v) v
  | add {a b : Expr} {u v : Nat} : Computes B env a u → Computes B env b v → u + v < B →
    Computes B env (.bin .add a b) (u + v)
  | mul {a b : Expr} {u v : Nat} : Computes B env a u → Computes B env b v → u * v < B →
    Computes B env (.bin .mul a b) (u * v)
  | div {a b : Expr} {u v : Nat} : Computes B env a u → Computes B env b v → 0 < v →
    Computes B env (.bin .div a b) (u / v)
  | rem {a b : Expr} {u v : Nat} : Computes B env a u → Computes B env b v → 0 < v →
    Computes B env (.bin .rem a b) (u % v)

variable {B : Nat} {env : Bindings} {e : Expr} {v : Nat}

theorem Computes.lt (h : e.Computes B env v) : v < B := by
  induction h with
  | var _ hv => exact hv
  | const hv => exact hv
  | add _ _ hv => exact hv
  | mul _ _ hv => exact hv
  | div _ _ _ ha _ => exact Nat.lt_of_le_of_lt (Nat.div_le_self _ _) ha
  | rem _ _ _ ha _ => exact Nat.lt_of_le_of_lt (Nat.mod_le _ _) ha

theorem int64?_natCast {n : Nat} (hn : n < 2 ^ 63) : int64? (n : Int) = some (n : Int) :=
  int64?_eq_some.2 ⟨rfl, by omega, by omega⟩

theorem Computes.eval_eq (h : e.Computes B env v) (hB : B ≤ 2 ^ 63) : e.eval env = some (v : Int) := by
  induction h with
  | var hv _ => exact hv
  | const _ => rfl
  | add ha hb hv iha ihb =>
    simp only [eval, iha, ihb, Option.bind_eq_bind, Option.bind_some, BinOp.value?]
    exact int64?_natCast (by omega)
  | mul ha hb hv iha ihb =>
    simp only [eval, iha, ihb, Option.bind_eq_bind, Option.bind_some, BinOp.value?]
    rw [← Int.natCast_mul]
    exact int64?_natCast (by omega)
  | @div a b u v ha hb hv iha ihb =>
    have hu := ha.lt
    have hq : u / v ≤ u := Nat.div_le_self u v
    simp only [eval, iha, ihb, Option.bind_eq_bind, Option.bind_some, BinOp.value?]
    rw [if_neg (by omega), ← Int.ofNat_tdiv]
    exact int64?_natCast (by omega)
  | @rem a b u v ha hb hv iha ihb =>
    have hu := ha.lt
    have hq : u / v ≤ u := Nat.div_le_self u v
    simp only [eval, iha, ihb, Option.bind_eq_bind, Option.bind_some, BinOp.value?]
    rw [if_neg (by omega), ← Int.ofNat_tdiv, int64?_natCast (by omega), ← Int.ofNat_tmod]
    rfl

end Expr

namespace IndexMap

/-- Adding the named values to the first bindings gives the second, each by a computation. -/
inductive Extends (B : Nat) : Bindings → List (String × Expr) → Bindings → Prop
  | nil (env : Bindings) : Extends B env [] env
  | cons {env env' : Bindings} {name : String} {e : Expr} {v : Nat}
    {rest : List (String × Expr)} : e.Computes B env v → Extends B (env.bind name v) rest env' →
    Extends B env ((name, e) :: rest) env'

variable {B : Nat} {env env' scalars : Bindings} {m : IndexMap} {gid v : Nat}

theorem Extends.append {env'' : Bindings} {ps qs : List (String × Expr)} (hp : Extends B env ps env')
    (hq : Extends B env' qs env'') : Extends B env (ps ++ qs) env'' := by
  induction hp with
  | nil _ => exact hq
  | cons he _ ih => exact .cons he (ih hq)

theorem Extends.extend_eq {ps : List (String × Expr)} (h : Extends B env ps env') (hB : B ≤ 2 ^ 63) :
    extend env ps = some env' := by
  induction h with
  | nil _ => rfl
  | cons he _ ih => rw [extend, he.eval_eq hB, Option.bind_eq_bind, Option.bind_some, ih]

def Computes (B : Nat) (m : IndexMap) (scalars : Bindings) (gid v : Nat) : Prop :=
  ∃ env, Extends B (scalars.bind m.indexVar gid) m.bindings env ∧ m.source.Computes B env v

theorem Computes.eval_eq (h : m.Computes B scalars gid v) (hB : B ≤ 2 ^ 63) :
    m.eval gid scalars = some (v : Int) := by
  obtain ⟨env, hx, hs⟩ := h
  rw [eval, hx.extend_eq hB, Option.bind_eq_bind, Option.bind_some, hs.eval_eq hB]

end IndexMap

namespace Expr

variable {B : Nat} {env : Bindings} {e f d : Expr} {a b n : Nat}

theorem Computes.high (he : e.Computes B env (a * n + b)) (hf : f.Computes B env n) (hb : b < n) :
    (e / f).Computes B env a := by
  have hn : 0 < n := Nat.lt_of_le_of_lt (Nat.zero_le b) hb
  have hv : (a * n + b) / n = a := by
    calc (a * n + b) / n
      _ = (n * a + b) / n := by rw [Nat.mul_comm]
      _ = a + b / n := Nat.mul_add_div hn a b
      _ = a := by rw [Nat.div_eq_of_lt hb, Nat.add_zero]
  exact hv ▸ .div he hf hn

theorem Computes.low (he : e.Computes B env (a * n + b)) (hf : f.Computes B env n) (hb : b < n) :
    (e % f).Computes B env b := by
  have hv : (a * n + b) % n = b := by
    rw [Nat.mul_comm, Nat.mul_add_mod, Nat.mod_eq_of_lt hb]
  exact hv ▸ .rem he hf (Nat.lt_of_le_of_lt (Nat.zero_le b) hb)

theorem Computes.mul_add (he : e.Computes B env a) (hf : f.Computes B env n)
    (hd : d.Computes B env b) (hlt : a * n + b < B) : (e * f + d).Computes B env (a * n + b) :=
  .add (.mul he hf (by omega)) hd hlt

end Expr

namespace IndexMap

variable {B i j k l : Nat}

/-- The names that stand for the coordinates of an output index, over the scalars. -/
def coordinateBindings (scalars : Bindings) (gid i j k l : Nat) : Bindings :=
  ((((scalars.bind "gid" gid).bind "c2" l).bind "w2" k).bind "h2" j).bind "n" i

theorem outputCoordinates_extends (scalars : Bindings) {h2 w2 c2 : Nat} (hj : j < h2)
    (hk : k < w2) (hl : l < c2) (hH : scalars.get? "H2" = some (h2 : Int))
    (hW : scalars.get? "W2" = some (w2 : Int)) (hC : scalars.get? "C2" = some (c2 : Int)) (bh : h2 < B)
    (bw : w2 < B) (bc : c2 < B) (hg : flatIndex h2 w2 c2 i j k l < B) :
    Extends B (scalars.bind "gid" (flatIndex h2 w2 c2 i j k l)) outputCoordinates.bindings
      (coordinateBindings scalars (flatIndex h2 w2 c2 i j k l) i j k l) := by
  have gid {env : Bindings} (h : env.get? "gid" = some (flatIndex h2 w2 c2 i j k l : Int)) :
      (Expr.var "gid").Computes B env (((i * h2 + j) * w2 + k) * c2 + l) := .var h hg
  have hc {env : Bindings} (h : env.get? "C2" = some (c2 : Int)) :
      (Expr.var "C2").Computes B env c2 := .var h bc
  have hw {env : Bindings} (h : env.get? "W2" = some (w2 : Int)) :
      (Expr.var "W2").Computes B env w2 := .var h bw
  have hh {env : Bindings} (h : env.get? "H2" = some (h2 : Int)) :
      (Expr.var "H2").Computes B env h2 := .var h bh
  refine .cons (.low (gid ?_) (hc ?_) hl) (.cons (.low (.high (gid ?_) (hc ?_) hl) (hw ?_) hk)
    (.cons (.low (.high (.high (gid ?_) (hc ?_) hl) (hw ?_) hk) (hh ?_) hj)
      (.cons (.high (.high (.high (gid ?_) (hc ?_) hl) (hw ?_) hk) (hh ?_) hj) (.nil _))))
  all_goals simp [Bindings.get?_bind, hH, hW, hC]

theorem inputIndex_computes {env : Bindings} {h w c : Nat} (hn : env.get? "n" = some (i : Int))
    (hH : env.get? "H1" = some (h : Int)) (hj : env.get? "h1" = some (j : Int))
    (hW : env.get? "W1" = some (w : Int)) (hk : env.get? "w1" = some (k : Int))
    (hC : env.get? "C1" = some (c : Int)) (hl : env.get? "c1" = some (l : Int)) (ph : 0 < h)
    (bh : h < B) (pw : 0 < w) (bw : w < B) (pc : 0 < c) (bc : c < B)
    (hlt : flatIndex h w c i j k l < B) : inputIndex.Computes B env (flatIndex h w c i j k l) := by
  have hpixel : (i * h + j) * w + k ≤ ((i * h + j) * w + k) * c := Nat.le_mul_of_pos_right _ pc
  have hrow : i * h + j ≤ (i * h + j) * w := Nat.le_mul_of_pos_right _ pw
  have himage : i ≤ i * h := Nat.le_mul_of_pos_right _ ph
  unfold flatIndex at hlt
  exact .mul_add (.mul_add (.mul_add (.var hn (by omega)) (.var hH bh) (.var hj (by omega)) (by omega))
    (.var hW bw) (.var hk (by omega)) (by omega)) (.var hC bc) (.var hl (by omega)) hlt

variable {s : BlockShape} {p : BlockElement}

def spreadScalars (s : BlockShape) : Bindings :=
  blockBindings s.r s.n (s.c * s.r * s.r) s.c s.h (s.h * s.r) s.w (s.w * s.r)

def packScalars (s : BlockShape) : Bindings :=
  blockBindings s.r s.n s.c (s.c * s.r * s.r) (s.h * s.r) s.h (s.w * s.r) s.w

theorem groupChannel_computes {env : Bindings} (hp : p.Within s) (hB : s.c * s.r * s.r < B)
    (hl : env.get? "c2" = some (p.channel : Int))
    (hk : env.get? "w2" = some ((p.column * s.r + p.right : Nat) : Int))
    (hj : env.get? "h2" = some ((p.row * s.r + p.down : Nat) : Int)) (hr : env.get? "r" = some (s.r : Int))
    (hC : env.get? "C2" = some (s.c : Int)) (bk : p.column * s.r + p.right < B)
    (bj : p.row * s.r + p.down < B) (br : s.r < B) (bc : s.c < B) :
    (Expr.var "c2" + .var "w2" % .var "r" * .var "C2" + .var "h2" % .var "r" * .var "C2" * .var "r").Computes
      B env (p.deepChannel s) := by
  have hsum : p.deepChannel s = p.channel + p.right * s.c + p.down * s.c * s.r := by
    calc (p.down * s.r + p.right) * s.c + p.channel
      _ = p.down * s.r * s.c + p.right * s.c + p.channel := by rw [Nat.add_mul]
      _ = p.down * s.c * s.r + p.right * s.c + p.channel := by rw [Nat.mul_right_comm]
      _ = p.channel + p.right * s.c + p.down * s.c * s.r := by omega
  have hlt := Nat.lt_trans hp.deepChannel_lt hB
  have hdown : p.down * s.c ≤ p.down * s.c * s.r :=
    Nat.le_mul_of_pos_right _ (Nat.lt_of_le_of_lt (Nat.zero_le _) hp.down)
  have hright := Expr.Computes.low (.var hk bk) (.var hr br) hp.right
  have hplace := Expr.Computes.low (.var hj bj) (.var hr br) hp.down
  rw [hsum] at hlt ⊢
  exact .add (.add (.var hl (by omega)) (.mul hright (.var hC bc) (by omega)) (by omega))
    (.mul (.mul hplace (.var hC bc) (by omega)) (.var hr br) (by omega)) hlt

theorem depth2space_computes (hp : p.Within s) (hB : s.volume < B) :
    depth2space.Computes B (spreadScalars s) (p.wide s) (p.deep s) := by
  have hs := hp.below hB
  have hj := mul_add_lt hp.row hp.down
  have hk := mul_add_lt hp.column hp.right
  have bj := Nat.lt_trans hj hs.height
  have bk := Nat.lt_trans hk hs.width
  have hcoordinates := outputCoordinates_extends (i := p.image) (spreadScalars s) hj hk
    hp.channel rfl rfl rfl hs.height hs.width hs.c (Nat.lt_trans hp.wide_lt hB)
  refine ⟨_, hcoordinates.append (.cons (v := p.column) ?_ (.cons (v := p.row) ?_
    (.cons (v := p.deepChannel s) ?_ (.nil _)))), ?_⟩
  · exact .high (.var rfl bk) (.var rfl hs.r) hp.right
  · exact .high (.var rfl bj) (.var rfl hs.r) hp.down
  · exact groupChannel_computes hp hs.deepChannels rfl rfl rfl rfl rfl bk bj hs.r hs.c
  · exact inputIndex_computes rfl rfl rfl rfl rfl rfl rfl (Nat.zero_lt_of_lt hp.row) hs.h
      (Nat.zero_lt_of_lt hp.column) hs.w (Nat.zero_lt_of_lt hp.deepChannel_lt) hs.deepChannels
      (Nat.lt_trans hp.deep_lt hB)

theorem space2depth_computes (hp : p.Within s) (hB : s.volume < B) :
    space2depth.Computes B (packScalars s) (p.deep s) (p.wide s) := by
  have hs := hp.below hB
  have hj := mul_add_lt hp.row hp.down
  have hk := mul_add_lt hp.column hp.right
  have hd := hp.deepChannel_lt
  have bd := Nat.lt_trans hd hs.deepChannels
  have bp : p.down * s.r + p.right < B := by
    calc p.down * s.r + p.right
      _ ≤ (p.down * s.r + p.right) * s.c :=
        Nat.le_mul_of_pos_right _ (Nat.zero_lt_of_lt hp.channel)
      _ ≤ p.deepChannel s := Nat.le_add_right _ p.channel
      _ < B := bd
  have hcoordinates := outputCoordinates_extends (i := p.image) (packScalars s) hp.row
    hp.column hd rfl rfl rfl hs.h hs.w hs.deepChannels (Nat.lt_trans hp.deep_lt hB)
  refine ⟨_, hcoordinates.append (.cons (v := p.channel) ?_ (.cons (v := p.down * s.r + p.right) ?_
    (.cons (v := p.column * s.r + p.right) ?_ (.cons (v := p.row * s.r + p.down) ?_ (.nil _))))), ?_⟩
  · exact .low (.var rfl bd) (.var rfl hs.c) hp.channel
  · exact .high (.var rfl bd) (.var rfl hs.c) hp.channel
  · exact .mul_add (.var rfl (Nat.lt_trans hp.column hs.w)) (.var rfl hs.r)
      (.low (.var rfl bp) (.var rfl hs.r) hp.right) (Nat.lt_trans hk hs.width)
  · exact .mul_add (.var rfl (Nat.lt_trans hp.row hs.h)) (.var rfl hs.r)
      (.high (.var rfl bp) (.var rfl hs.r) hp.right) (Nat.lt_trans hj hs.height)
  · exact inputIndex_computes rfl rfl rfl rfl rfl rfl rfl (Nat.zero_lt_of_lt hj) hs.height
      (Nat.zero_lt_of_lt hk) hs.width (Nat.zero_lt_of_lt hp.channel) hs.c
      (Nat.lt_trans hp.wide_lt hB)

end IndexMap

end TensorKernels
