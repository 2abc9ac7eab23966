import TensorKernels.Digest.Blake3

/-! The digest over numerals. A proof that two messages have different digests evaluates some forty
compressions, and over vectors of words each step would carry along the terms of all steps before it.
Here every word is a natural number, brought to a numeral before the next step reads it. The bytes
are those of `digest`, by `digestOf_eq`. -/

set_option autoImplicit false

namespace TensorKernels.Blake3

/-- Goes on with `n` as a numeral. -/
def force {β : Type} : Nat → (Nat → β) → β
  | 0, k => k 0
  | n + 1, k => k (n + 1)

theorem force_eq {β : Type} (n : Nat) (k : Nat → β) : force n k = k n := by
  cases n <;> rfl

def forceBytes {β : Type} : List UInt8 → (List UInt8 → β) → β
  | [], k => k []
  | b :: bs, k => force b.toNat fun n => forceBytes bs fun bs => k (.ofNat n :: bs)

theorem forceBytes_eq {β : Type} (bytes : List UInt8) (k : List UInt8 → β) :
    forceBytes bytes k = k bytes := by
  induction bytes generalizing k with
  | nil => rfl
  | cons b bs ih => rw [forceBytes, force_eq, ih, UInt8.ofNat_toNat]

def rotate (w k : Nat) : Nat := (w >>> k) ||| ((w <<< (32 - k)) % 4294967296)

theorem toNat_rotateRight (w : UInt32) {k : UInt32} (hpos : 0 < k.toNat) (hlt : k.toNat < 32) :
    (rotateRight w k).toNat = rotate w.toNat k.toNat := by
  have hle : k ≤ 32 := UInt32.le_iff_toNat_le.2 (Nat.le_of_lt hlt)
  have hsub : (32 - k).toNat = 32 - k.toNat := UInt32.toNat_sub_of_le 32 k hle
  rw [rotateRight, rotate, UInt32.toNat_or, UInt32.toNat_shiftRight, UInt32.toNat_shiftLeft, hsub,
    Nat.mod_eq_of_lt hlt, Nat.mod_eq_of_lt (by omega : 32 - k.toNat < 32)]

/-- One of the two halves of `mix`, on the four words that it changes. -/
def turn (r r' a b c d x : UInt32) : UInt32 × UInt32 × UInt32 × UInt32 :=
  let a := a + b + x
  let d := rotateRight (d ^^^ a) r
  let c := c + d
  (a, rotateRight (b ^^^ c) r', c, d)

def quarter (a b c d x y : UInt32) : UInt32 × UInt32 × UInt32 × UInt32 :=
  let t := turn 16 12 a b c d x
  turn 8 7 t.1 t.2.1 t.2.2.1 t.2.2.2 y

def turned {β : Type} (r r' a b c d x : Nat) (k : Nat → Nat → Nat → Nat → β) : β :=
  force ((a + b + x) % 4294967296) fun a =>
  force (rotate (d ^^^ a) r) fun d =>
  force ((c + d) % 4294967296) fun c =>
  force (rotate (b ^^^ c) r') fun b => k a b c d

def mixed {β : Type} (a b c d x y : Nat) (k : Nat → Nat → Nat → Nat → β) : β :=
  turned 16 12 a b c d x fun a b c d => turned 8 7 a b c d y k

theorem turned_eq {β : Type} {r r' : UInt32} (hr : 0 < r.toNat ∧ r.toNat < 32)
    (hr' : 0 < r'.toNat ∧ r'.toNat < 32) (a b c d x : UInt32) (k : Nat → Nat → Nat → Nat → β) :
    turned r.toNat r'.toNat a.toNat b.toNat c.toNat d.toNat x.toNat k =
      let t := turn r r' a b c d x
      k t.1.toNat t.2.1.toNat t.2.2.1.toNat t.2.2.2.toNat := by
  have hsum : (a + b + x).toNat = (a.toNat + b.toNat + x.toNat) % 4294967296 := by
    rw [UInt32.toNat_add, UInt32.toNat_add, Nat.mod_add_mod]
  simp only [turned, turn, force_eq, toNat_rotateRight _ hr.1 hr.2, toNat_rotateRight _ hr'.1 hr'.2,
    UInt32.toNat_xor, hsum, UInt32.toNat_add]

theorem mixed_eq {β : Type} (a b c d x y : UInt32) (k : Nat → Nat → Nat → Nat → β) :
    mixed a.toNat b.toNat c.toNat d.toNat x.toNat y.toNat k =
      let q := quarter a b c d x y
      k q.1.toNat q.2.1.toNat q.2.2.1.toNat q.2.2.2.toNat := by
  have hfirst := @turned_eq β 16 12 (by decide) (by decide)
  have hsecond := @turned_eq β 8 7 (by decide) (by decide)
  exact (hfirst a b c d x _).trans (hsecond _ _ _ _ y k)

theorem get_set (s : Words 16) (i j : Fin 16) (v : UInt32) (h : i.val < 16) :
    (s.set i v h).get j = if i = j then v else s.get j := by
  have hset : (s.set i v h).get j = if i.val = j.val then v else s.get j :=
    Vector.getElem_set h j.isLt
  simpa only [Fin.val_inj] using hset

theorem get_mix (s : Words 16) {a b c d : Fin 16} (h : [a, b, c, d].Nodup) (x y : UInt32) :
    let q := quarter (s.get a) (s.get b) (s.get c) (s.get d) x y
    (mix s a b c d x y).get a = q.1 ∧ (mix s a b c d x y).get b = q.2.1 ∧
      (mix s a b c d x y).get c = q.2.2.1 ∧ (mix s a b c d x y).get d = q.2.2.2 := by
  simp only [List.nodup_cons, List.mem_cons, List.not_mem_nil, or_false, not_or] at h
  obtain ⟨⟨hab, hac, had⟩, ⟨hbc, hbd⟩, hcd, -⟩ := h
  have hget (t : Words 16) (i : Fin 16) : t[i] = t.get i := rfl
  simp only [mix, hget, get_set, quarter, turn, hab, hac, had, hbc, hbd, hcd, Ne.symm hab,
    Ne.symm hac, Ne.symm had, Ne.symm hbc, Ne.symm hbd, Ne.symm hcd, if_false, if_true, and_self]

theorem get_mix_of_notMem (s : Words 16) {a b c d i : Fin 16} (h : i ∉ [a, b, c, d])
    (x y : UInt32) : (mix s a b c d x y).get i = s.get i := by
  simp only [List.mem_cons, List.not_mem_nil, or_false, not_or] at h
  obtain ⟨ha, hb, hc, hd⟩ := h
  simp only [mix, get_set, Ne.symm ha, Ne.symm hb, Ne.symm hc, Ne.symm hd, if_false]

structure Chain where
  (c0 c1 c2 c3 c4 c5 c6 c7 : Nat)

def Chain.ofWords (s : Words 8) : Chain :=
  let n (i : Fin 8) := (s.get i).toNat
  ⟨n 0, n 1, n 2, n 3, n 4, n 5, n 6, n 7⟩

def Chain.toList (s : Chain) : List Nat := [s.c0, s.c1, s.c2, s.c3, s.c4, s.c5, s.c6, s.c7]

theorem Chain.toList_ofWords (s : Words 8) :
    (Chain.ofWords s).toList = s.toList.map UInt32.toNat := by
  obtain ⟨⟨ws⟩, h⟩ := s
  match ws, h with
  | [_, _, _, _, _, _, _, _], _ => rfl

structure Block where
  (w0 w1 w2 w3 w4 w5 w6 w7 w8 w9 w10 w11 w12 w13 w14 w15 : Nat)

namespace Block

def ofWords (s : Words 16) : Block :=
  let n (i : Fin (8 + 8)) := (s.get i).toNat
  ⟨n 0, n 1, n 2, n 3, n 4, n 5, n 6, n 7, n 8, n 9, n 10, n 11, n 12, n 13, n 14, n 15⟩

def ofChains : Chain → Chain → Block
  | ⟨a0, a1, a2, a3, a4, a5, a6, a7⟩, ⟨b0, b1, b2, b3, b4, b5, b6, b7⟩ =>
    ⟨a0, a1, a2, a3, a4, a5, a6, a7, b0, b1, b2, b3, b4, b5, b6, b7⟩

theorem ofWords_append (a b : Words 8) :
    ofWords (a ++ b) = ofChains (Chain.ofWords a) (Chain.ofWords b) := by
  have hleft (i : Fin 8) : (a ++ b).get (i.castAdd 8) = a.get i :=
    Vector.getElem_append_left i.isLt
  have hright (i : Fin 8) : (a ++ b).get (i.addNat 8) = b.get i := by
    have h : (a ++ b)[i.val + 8] = b[i.val + 8 - 8] := Vector.getElem_append_right _ (by omega)
    simp only [Nat.add_sub_cancel] at h
    exact h
  simp only [ofChains, Chain.ofWords, ← hleft, ← hright]
  rfl

theorem mixed_step (s : Words 16) (a b c d : Fin 16) (h : [a, b, c, d].Nodup) (x y : UInt32) :
    ∃ t : Words 16, t = mix s a b c d x y ∧ (∀ i, i ∉ [a, b, c, d] → t.get i = s.get i) ∧
      ∀ k : Nat → Nat → Nat → Nat → Block,
        mixed (s.get a).toNat (s.get b).toNat (s.get c).toNat (s.get d).toNat x.toNat y.toNat k =
          k (t.get a).toNat (t.get b).toNat (t.get c).toNat (t.get d).toNat := by
  obtain ⟨ha, hb, hc, hd⟩ := get_mix s h x y
  refine ⟨_, rfl, fun i hi => get_mix_of_notMem s hi x y, fun k => ?_⟩
  rw [mixed_eq, ha, hb, hc, hd]

def round : Block → Block → Block
  | ⟨s0, s1, s2, s3, s4, s5, s6, s7, s8, s9, s10, s11, s12, s13, s14, s15⟩,
    ⟨m0, m1, m2, m3, m4, m5, m6, m7, m8, m9, m10, m11, m12, m13, m14, m15⟩ =>
    mixed s0 s4 s8 s12 m0 m1 fun s0 s4 s8 s12 =>
    mixed s1 s5 s9 s13 m2 m3 fun s1 s5 s9 s13 =>
    mixed s2 s6 s10 s14 m4 m5 fun s2 s6 s10 s14 =>
    mixed s3 s7 s11 s15 m6 m7 fun s3 s7 s11 s15 =>
    mixed s0 s5 s10 s15 m8 m9 fun s0 s5 s10 s15 =>
    mixed s1 s6 s11 s12 m10 m11 fun s1 s6 s11 s12 =>
    mixed s2 s7 s8 s13 m12 m13 fun s2 s7 s8 s13 =>
    mixed s3 s4 s9 s14 m14 m15 fun s3 s4 s9 s14 =>
    ⟨s0, s1, s2, s3, s4, s5, s6, s7, s8, s9, s10, s11, s12, s13, s14, s15⟩

theorem round_ofWords (s m : Words 16) :
    (ofWords s).round (ofWords m) = ofWords (Blake3.round s m) := by
  let x := m.get
  -- the vectors between the steps stay variables, so that no step unfolds the ones before it
  obtain ⟨t1, ht1, hk1, hm1⟩ := mixed_step s 0 4 8 12 (by decide) (x 0) (x 1)
  obtain ⟨t2, ht2, hk2, hm2⟩ := mixed_step t1 1 5 9 13 (by decide) (x 2) (x 3)
  obtain ⟨t3, ht3, hk3, hm3⟩ := mixed_step t2 2 6 10 14 (by decide) (x 4) (x 5)
  obtain ⟨t4, ht4, hk4, hm4⟩ := mixed_step t3 3 7 11 15 (by decide) (x 6) (x 7)
  obtain ⟨t5, ht5, hk5, hm5⟩ := mixed_step t4 0 5 10 15 (by decide) (x 8) (x 9)
  obtain ⟨t6, ht6, hk6, hm6⟩ := mixed_step t5 1 6 11 12 (by decide) (x 10) (x 11)
  obtain ⟨t7, ht7, hk7, hm7⟩ := mixed_step t6 2 7 8 13 (by decide) (x 12) (x 13)
  obtain ⟨t8, ht8, hk8, hm8⟩ := mixed_step t7 3 4 9 14 (by decide) (x 14) (x 15)
  have hround : Blake3.round s m = t8 := by
    rw [ht8, ht7, ht6, ht5, ht4, ht3, ht2, ht1]
    rfl
  simp +decide only [hk1, hk2, hk3, hk4, hk5, hk6, hk7] at hm2 hm3 hm4 hm5 hm6 hm7 hm8
  rw [hround]
  simp +decide only [ofWords, round, hk6, hk7, hk8]
  rw [hm1, hm2, hm3, hm4, hm5, hm6, hm7, hm8]

def permute : Block → Block
  | ⟨m0, m1, m2, m3, m4, m5, m6, m7, m8, m9, m10, m11, m12, m13, m14, m15⟩ =>
    ⟨m2, m6, m3, m10, m7, m0, m4, m13, m1, m11, m12, m5, m9, m14, m15, m8⟩

theorem permute_ofWords (m : Words 16) : (ofWords m).permute = ofWords (Blake3.permute m) := by
  have h (i : Fin 16) : (Blake3.permute m).get i = m.get messageOrder[i] :=
    Vector.getElem_map _ i.isLt
  simp only [ofWords, permute, h]
  rfl

def rounds : Nat → Block → Block → Block
  | 0, s, _ => s
  | k + 1, s, m => rounds k (s.round m) m.permute

theorem rounds_ofWords (k : Nat) (s m : Words 16) :
    rounds k (ofWords s) (ofWords m) = ofWords (Blake3.rounds k s m) := by
  induction k generalizing s m with
  | zero => rfl
  | succ k ih => rw [rounds, round_ofWords, permute_ofWords, ih, Blake3.rounds]

/-- The exclusive or of the two halves. -/
def fold : Block → Chain
  | ⟨s0, s1, s2, s3, s4, s5, s6, s7, s8, s9, s10, s11, s12, s13, s14, s15⟩ =>
    ⟨s0 ^^^ s8, s1 ^^^ s9, s2 ^^^ s10, s3 ^^^ s11, s4 ^^^ s12, s5 ^^^ s13, s6 ^^^ s14, s7 ^^^ s15⟩

theorem fold_ofWords {s : Words 16} {t : Words 8}
    (h : ∀ i, t.get i = s.get (i.castAdd 8) ^^^ s.get (i.addNat 8)) :
    (ofWords s).fold = Chain.ofWords t := by
  simp only [Chain.ofWords, h, UInt32.toNat_xor]
  rfl

def wordAt (bytes : List UInt8) (i : Nat) : Nat :=
  (bytes.getD (4 * i) 0).toNat ||| (bytes.getD (4 * i + 1) 0).toNat <<< 8 |||
    (bytes.getD (4 * i + 2) 0).toNat <<< 16 ||| (bytes.getD (4 * i + 3) 0).toNat <<< 24

theorem wordAt_eq (bytes : List UInt8) (i : Fin 16) :
    wordAt bytes i = ((blockWords bytes).get i).toNat := by
  have hshift (b : UInt8) {k : Nat} (h : k ≤ 24) : b.toNat <<< k % 4294967296 = b.toNat <<< k := by
    have hb := b.toNat_lt
    have hpow : 2 ^ k ≤ 2 ^ 24 := Nat.pow_le_pow_right (by decide) h
    refine Nat.mod_eq_of_lt ?_
    rw [Nat.shiftLeft_eq]
    calc b.toNat * 2 ^ k
      _ < 256 * 2 ^ k := Nat.mul_lt_mul_of_pos_right hb (Nat.two_pow_pos k)
      _ ≤ 256 * 2 ^ 24 := Nat.mul_le_mul_left 256 hpow
  change wordAt bytes i = (blockWords bytes)[i].toNat
  simp [wordAt, blockWords, word, hshift]

def ofBytes (bytes : List UInt8) : Block :=
  forceBytes bytes fun b =>
  force (wordAt b 0) fun w0 => force (wordAt b 1) fun w1 =>
  force (wordAt b 2) fun w2 => force (wordAt b 3) fun w3 =>
  force (wordAt b 4) fun w4 => force (wordAt b 5) fun w5 =>
  force (wordAt b 6) fun w6 => force (wordAt b 7) fun w7 =>
  force (wordAt b 8) fun w8 => force (wordAt b 9) fun w9 =>
  force (wordAt b 10) fun w10 => force (wordAt b 11) fun w11 =>
  force (wordAt b 12) fun w12 => force (wordAt b 13) fun w13 =>
  force (wordAt b 14) fun w14 => force (wordAt b 15) fun w15 =>
  ⟨w0, w1, w2, w3, w4, w5, w6, w7, w8, w9, w10, w11, w12, w13, w14, w15⟩

theorem ofBytes_eq (bytes : List UInt8) : ofBytes bytes = ofWords (blockWords bytes) := by
  simp only [ofBytes, forceBytes_eq, force_eq, ofWords, ← wordAt_eq]
  rfl

end Block

/-- A node of the tree with numerals for its words. -/
structure Step where
  chain : Chain
  block : Block
  counter : Nat
  length : Nat
  flags : Nat

namespace Step

def ofNode (n : Node) : Step :=
  ⟨Chain.ofWords n.chain, Block.ofWords n.block, n.counter, n.length, n.flags.toNat⟩

def compress (n : Step) : Chain :=
  let low : Chain := ⟨0x6A09E667, 0xBB67AE85, 0x3C6EF372, 0xA54FF53A, n.counter % 4294967296,
    (n.counter >>> 32) % 4294967296, n.length % 4294967296, n.flags⟩
  (Block.rounds 7 (.ofChains n.chain low) n.block).fold

theorem compress_ofNode (n : Node) : (ofNode n).compress = Chain.ofWords n.compress := by
  rw [← Block.fold_ofWords fun i => Vector.getElem_ofFn i.isLt, ← Block.rounds_ofWords,
    Block.ofWords_append]
  rfl

def chunkFrom : Nat → Chain → Nat → Nat → List UInt8 → Step
  | 0, chain, start, counter, bytes => ⟨chain, .ofBytes bytes, counter, bytes.length, start ||| 2⟩
  | fuel + 1, chain, start, counter, bytes =>
    if bytes.length ≤ 64 then ⟨chain, .ofBytes bytes, counter, bytes.length, start ||| 2⟩
    else
      let first : Step := ⟨chain, .ofBytes (bytes.take 64), counter, 64, start⟩
      chunkFrom fuel first.compress 0 counter (bytes.drop 64)

theorem mk_ofBytes (chain : Words 8) (bytes : List UInt8) (counter length : Nat) (flags : UInt32) :
    (⟨.ofWords chain, .ofBytes bytes, counter, length, flags.toNat⟩ : Step) =
      ofNode ⟨chain, blockWords bytes, counter, length, flags⟩ := by
  rw [Block.ofBytes_eq]
  rfl

theorem chunkFrom_eq (fuel : Nat) (chain : Words 8) (start : UInt32) (counter : Nat)
    (bytes : List UInt8) (h : bytes.length ≤ fuel + 64) :
    chunkFrom fuel (.ofWords chain) start.toNat counter bytes =
      ofNode (Blake3.chunkFrom chain start counter bytes) := by
  have hend (start : UInt32) : start.toNat ||| 2 = (start ||| chunkEnd).toNat :=
    (UInt32.toNat_or start chunkEnd).symm
  -- a block takes 64 bytes, so that fuel for one byte each is enough
  induction fuel generalizing chain start bytes with
  | zero => rw [chunkFrom, Blake3.chunkFrom, dif_pos (by omega), hend, mk_ofBytes]
  | succ fuel ih =>
    rw [chunkFrom, Blake3.chunkFrom]
    split
    · rw [hend, mk_ofBytes]
    · let first : Node := ⟨chain, blockWords (bytes.take 64), counter, 64, start⟩
      have hlen : (bytes.drop 64).length ≤ fuel + 64 := by
        rw [List.length_drop]
        omega
      rw [← ih first.compress 0 (bytes.drop 64) hlen, ← compress_ofNode first, mk_ofBytes]
      rfl

def chunk (counter : Nat) (bytes : List UInt8) : Step :=
  chunkFrom bytes.length (.ofWords initialValue) 1 counter bytes

theorem chunk_eq (counter : Nat) (bytes : List UInt8) :
    chunk counter bytes = ofNode (Blake3.chunk counter bytes) :=
  chunkFrom_eq bytes.length initialValue chunkStart counter bytes (by omega)

def parent (left right : Chain) : Step := ⟨.ofWords initialValue, .ofChains left right, 0, 64, 4⟩

theorem parent_eq (left right : Words 8) :
    parent (.ofWords left) (.ofWords right) = ofNode (Blake3.parent left right) := by
  rw [parent, ← Block.ofWords_append]
  rfl

def tree : Nat → Nat → List UInt8 → Step
  | 0, counter, bytes => chunk counter bytes
  | fuel + 1, counter, bytes =>
    if bytes.length ≤ 1024 then chunk counter bytes
    else
      let k := leftLength bytes.length
      parent (tree fuel counter (bytes.take k)).compress
        (tree fuel (counter + k / 1024) (bytes.drop k)).compress

theorem tree_eq (fuel counter : Nat) (bytes : List UInt8) (h : bytes.length ≤ fuel + 1024) :
    tree fuel counter bytes = ofNode (Blake3.tree counter bytes) := by
  induction fuel generalizing counter bytes with
  | zero => rw [tree, Blake3.tree, dif_pos (by omega), chunk_eq]
  | succ fuel ih =>
    rw [tree, Blake3.tree]
    split
    · exact chunk_eq counter bytes
    · have hlt := leftLength_lt (n := bytes.length) (by omega)
      have hpos := leftLength_pos bytes.length
      have hleft := ih counter (bytes.take (leftLength bytes.length)) (by simp; omega)
      have hright := ih (counter + leftLength bytes.length / 1024)
        (bytes.drop (leftLength bytes.length)) (by simp; omega)
      simp only [hleft, hright, compress_ofNode, parent_eq]

end Step

def digestOf (bytes : List UInt8) : List UInt8 :=
  forceBytes bytes fun bytes =>
  let top := Step.tree bytes.length 0 bytes
  let root := { top with flags := top.flags ||| 8 }
  root.compress.toList.flatMap fun w => Text.littleEndian 4 w

theorem digestOf_eq (bytes : List UInt8) : digestOf bytes = digest bytes := by
  let top := tree 0 bytes
  have htop : Step.tree bytes.length 0 bytes = Step.ofNode top :=
    Step.tree_eq bytes.length 0 bytes (by omega)
  have hroot : ({ Step.ofNode top with flags := (Step.ofNode top).flags ||| 8 } : Step) =
      Step.ofNode { top with flags := top.flags ||| rootNode } :=
    congrArg (Step.mk _ _ _ _) (UInt32.toNat_or top.flags rootNode).symm
  simp only [digestOf, forceBytes_eq, htop, hroot, Step.compress_ofNode, Chain.toList_ofWords,
    List.flatMap_map]
  rfl

example : digest [] = [0xaf, 0x13, 0x49, 0xb9, 0xf5, 0xf9, 0xa1, 0xa6, 0xa0, 0x40, 0x4d, 0xea, 0x36,
    0xdc, 0xc9, 0x49, 0x9b, 0xcb, 0x25, 0xc9, 0xad, 0xc1, 0x12, 0xb7, 0xcc, 0x9a, 0x93, 0xca, 0xe4,
    0x1f, 0x32, 0x62] := by
  rw [← digestOf_eq]
  decide +kernel

end TensorKernels.Blake3
