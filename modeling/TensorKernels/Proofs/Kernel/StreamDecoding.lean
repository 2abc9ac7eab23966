import Mathlib.Algebra.Group.Nat.Defs
import TensorKernels.Kernel.Basic
import TensorKernels.Proofs.Kernel.OutlineText
import TensorKernels.Proofs.Text

/-! A stream holds no lengths, and its parts follow each other without a break. Words of one length,
texts with a byte at their end and dimensions can still be read off its front, and the text of a
kernel shows where its load expressions begin and end. -/

set_option autoImplicit false

namespace TensorKernels

/-- A value with `P` can be read off the front of whatever stream it has been written to. -/
def SelfDelimiting {α : Type} (P : α → Prop) (f : α → List UInt8) : Prop :=
  ∀ ⦃a b : α⦄, P a → P b → ∀ ⦃s t : List UInt8⦄, f a ++ s = f b ++ t → a = b ∧ s = t

theorem append_cons_inj {α : Type} {a : α} {xs ys s t : List α} (hx : a ∉ xs) (hy : a ∉ ys)
    (h : xs ++ a :: s = ys ++ a :: t) : xs = ys ∧ s = t := by
  induction xs generalizing ys with
  | nil =>
    cases ys with
    | nil => exact ⟨rfl, (List.cons.inj h).2⟩
    | cons y ys => exact absurd ((List.cons.inj h).1 ▸ List.mem_cons_self) hy
  | cons x xs ih =>
    cases ys with
    | nil => exact absurd ((List.cons.inj h).1 ▸ List.mem_cons_self) hx
    | cons y ys =>
      obtain ⟨rfl, htail⟩ := List.cons.inj h
      obtain ⟨rfl, hst⟩ := ih (fun e => hx (List.mem_cons_of_mem x e))
        (fun e => hy (List.mem_cons_of_mem x e)) htail
      exact ⟨rfl, hst⟩

namespace SelfDelimiting

variable {α : Type} {P : α → Prop} {f : α → List UInt8}

theorem of_length {n : Nat} (hlength : ∀ a, (f a).length = n)
    (hinj : ∀ a b, P a → P b → f a = f b → a = b) : SelfDelimiting P f := by
  intro a b ha hb s t h
  obtain ⟨hab, hst⟩ := List.append_inj h (by rw [hlength, hlength])
  exact ⟨hinj a b ha hb hab, hst⟩

theorem flatMap (h : SelfDelimiting P f) (n : Nat) :
    SelfDelimiting (fun as => as.length = n ∧ ∀ a ∈ as, P a) (List.flatMap f) := by
  intro as bs ha hb s t hst
  induction n generalizing as bs with
  | zero =>
    rw [List.length_eq_zero_iff.1 ha.1, List.length_eq_zero_iff.1 hb.1] at hst ⊢
    exact ⟨rfl, hst⟩
  | succ n ih =>
    obtain ⟨a, as, rfl⟩ := List.exists_cons_of_length_eq_add_one ha.1
    obtain ⟨b, bs, rfl⟩ := List.exists_cons_of_length_eq_add_one hb.1
    rw [List.forall_mem_cons, List.length_cons, Nat.add_right_cancel_iff] at ha hb
    rw [List.flatMap_cons, List.flatMap_cons, List.append_assoc, List.append_assoc] at hst
    obtain ⟨rfl, hrest⟩ := h ha.2.1 hb.2.1 hst
    obtain ⟨rfl, htail⟩ := ih ⟨ha.1, ha.2.2⟩ ⟨hb.1, hb.2.2⟩ hrest
    exact ⟨rfl, htail⟩

end SelfDelimiting

theorem Text.littleEndian_injective {k m n : Nat} (hm : m < 256 ^ k) (hn : n < 256 ^ k)
    (h : littleEndian k m = littleEndian k n) : m = n := by
  induction k generalizing m n with
  | zero => omega
  | succ k ih =>
    rw [littleEndian, littleEndian, List.cons.injEq] at h
    have hlow := congrArg UInt8.toNat h.1
    rw [UInt8.toNat_ofNat', UInt8.toNat_ofNat'] at hlow
    have hhigh := ih (Nat.div_lt_of_lt_mul (by rwa [Nat.pow_succ'] at hm))
      (Nat.div_lt_of_lt_mul (by rwa [Nat.pow_succ'] at hn)) h.2
    omega

theorem selfDelimiting_littleEndian (k : Nat) :
    SelfDelimiting (· < 256 ^ k) (Text.littleEndian k) :=
  .of_length (Text.length_littleEndian k) fun _ _ => Text.littleEndian_injective

theorem selfDelimiting_cell : SelfDelimiting (fun _ => True) Cell.bytes := by
  intro v w _ _ s t h
  obtain ⟨hvw, hst⟩ := selfDelimiting_littleEndian 4 v.toNat_lt w.toNat_lt h
  exact ⟨UInt32.toNat_inj.1 hvw, hst⟩

/-- A text that its final zero byte sets apart from what follows. -/
def NulFree (s : String) : Prop := '\x00' ∉ s.toList

instance : DecidablePred NulFree := fun s => inferInstanceAs (Decidable ('\x00' ∉ s.toList))

theorem notMem_utf8 {s : String} {c : Char} {b : UInt8} (h : c ∉ s.toList) (hb : b.toNat < 128)
    (hc : Char.ofNat b.toNat = c) : b ∉ s.toUTF8.toList := by
  intro hmem
  exact h (hc ▸ Text.mem_of_mem_utf8 hmem hb)

theorem selfDelimiting_terminated : SelfDelimiting NulFree terminated := by
  intro a b ha hb s t h
  unfold terminated at h
  rw [List.append_assoc, List.append_assoc, List.singleton_append, List.singleton_append] at h
  obtain ⟨hab, hst⟩ := append_cons_inj (notMem_utf8 ha (by decide) rfl)
    (notMem_utf8 hb (by decide) rfl) h
  exact ⟨Text.utf8_injective hab, hst⟩

def Dim.NulFree (d : Dim) : Prop := ∀ label, d = .preset label → TensorKernels.NulFree label

instance : DecidablePred Dim.NulFree
  | .fixed _ => isTrue nofun
  | .preset label => decidable_of_iff (TensorKernels.NulFree label)
    ⟨fun h _ e => Dim.preset.inj e ▸ h, fun h => h label rfl⟩

theorem Dim.exists_tag (d : Dim) : ∃ tag rest, d.bytes = tag :: rest ∧ tag ≠ 0 := by
  cases d with
  | fixed n => exact ⟨1, _, rfl, by decide⟩
  | preset label => exact ⟨2, _, rfl, by decide⟩

theorem selfDelimiting_dim : SelfDelimiting Dim.NulFree Dim.bytes := by
  intro a b ha hb s t h
  cases a with
  | fixed m =>
    cases b with
    | fixed n =>
      obtain ⟨rfl, hst⟩ := selfDelimiting_cell trivial trivial (List.cons.inj h).2
      exact ⟨rfl, hst⟩
    | preset label => cases (List.cons.inj h).1
  | preset label =>
    cases b with
    | fixed n => cases (List.cons.inj h).1
    | preset label' =>
      obtain ⟨rfl, hst⟩ := selfDelimiting_terminated (ha label rfl) (hb label' rfl)
        (List.cons.inj h).2
      exact ⟨rfl, hst⟩

structure Deferral where
  cell : Nat
  key : String
  label : String
  deriving DecidableEq, Repr

def Deferral.bytes (d : Deferral) : List UInt8 :=
  Text.littleEndian 8 d.cell ++ terminated d.key ++ terminated d.label

def Unresolved.deferral (u : Unresolved) : Deferral := ⟨u.cell, u.key, u.label⟩

theorem flatMap_deferral (us : List Unresolved) :
    us.flatMap Unresolved.bytes = (us.map Unresolved.deferral).flatMap Deferral.bytes := by
  rw [List.flatMap_map]
  rfl

structure Deferral.Delimited (bound : Nat) (d : Deferral) : Prop where
  cell : d.cell < bound
  key : NulFree d.key
  label : NulFree d.label

theorem Deferral.Delimited.mono {m n : Nat} {d : Deferral} (h : d.Delimited m) (hmn : m ≤ n) :
    d.Delimited n :=
  ⟨Nat.lt_of_lt_of_le h.cell hmn, h.key, h.label⟩

theorem selfDelimiting_deferral : SelfDelimiting (Deferral.Delimited (256 ^ 8)) Deferral.bytes := by
  intro u v hu hv s t h
  unfold Deferral.bytes at h
  simp only [List.append_assoc] at h
  obtain ⟨hcell, h⟩ := selfDelimiting_littleEndian 8 hu.cell hv.cell h
  obtain ⟨hkey, h⟩ := selfDelimiting_terminated hu.key hv.key h
  obtain ⟨hlabel, hst⟩ := selfDelimiting_terminated hu.label hv.label h
  cases u
  cases v
  cases hcell
  cases hkey
  cases hlabel
  exact ⟨rfl, hst⟩

theorem exists_tag_flatMap (ds : List Dim) (h : 0 < ds.length) :
    ∃ tag rest, ds.flatMap Dim.bytes = tag :: rest ∧ tag ≠ 0 := by
  obtain ⟨d, ds, rfl⟩ := List.exists_cons_of_length_pos h
  obtain ⟨tag, rest, hd, htag⟩ := d.exists_tag
  exact ⟨tag, rest ++ ds.flatMap Dim.bytes, by rw [List.flatMap_cons, hd]; rfl, htag⟩

/-- A dimension takes some of the bytes before the zeros, but not all five zeros: the tag of the next
one would be zero. -/
theorem Dim.exists_before_zeros {d : Dim} (hd : d.NulFree) {w s rest : List UInt8} {tag : UInt8}
    (hw : w.length ≤ 3) (htag : tag ≠ 0)
    (h : d.bytes ++ tag :: s = w ++ (List.replicate 5 0 ++ rest)) :
    ∃ w', w'.length < w.length ∧ tag :: s = w' ++ (List.replicate 5 0 ++ rest) := by
  cases w with
  | nil =>
    obtain ⟨first, bytes, hbytes, hfirst⟩ := d.exists_tag
    rw [hbytes] at h
    exact absurd (List.cons.inj h).1 hfirst
  | cons x w =>
    rw [List.length_cons] at hw
    cases d with
    | fixed n =>
      have htail : Text.littleEndian 4 n.toNat ++ tag :: s = w ++ (List.replicate 5 0 ++ rest) :=
        (List.cons.inj h).2
      have hfifth : (w ++ (List.replicate 5 0 ++ rest))[4]? = some tag := by
        rw [← htail]
        rfl
      rw [List.getElem?_append_right (by omega), List.getElem?_append_left (by simp; omega),
        List.getElem?_replicate_of_lt (by omega)] at hfifth
      exact absurd (Option.some.inj hfifth).symm htag
    | preset label =>
      have htail : label.toUTF8.toList ++ [0] ++ tag :: s = w ++ (List.replicate 5 0 ++ rest) :=
        (List.cons.inj h).2
      have hlabel : (0 : UInt8) ∉ label.toUTF8.toList :=
        notMem_utf8 (hd label rfl) (by decide) rfl
      rw [List.append_assoc, List.singleton_append] at htail
      by_cases hmem : (0 : UInt8) ∈ w
      · obtain ⟨before, after, rfl, hbefore⟩ := List.eq_append_cons_of_mem hmem
        rw [List.append_assoc, List.cons_append] at htail
        refine ⟨after, ?_, (append_cons_inj hlabel hbefore htail).2⟩
        simp only [List.length_append, List.length_cons]
        omega
      · have hrest := (append_cons_inj hlabel hmem htail).2
        exact absurd (List.cons.inj hrest).1 htag

theorem dims_ne_zeros {ds : List Dim} {w : List UInt8} (hw : w.length ≤ 3)
    (hds : w.length < ds.length) (hfree : ∀ d ∈ ds, d.NulFree) (rest : List UInt8) :
    ds.flatMap Dim.bytes ≠ w ++ (List.replicate 5 0 ++ rest) := by
  intro h
  -- every dimension makes the stretch before the zeros shorter, and there are enough of them
  induction ds generalizing w with
  | nil => cases hds
  | cons d ds ih =>
    rw [List.forall_mem_cons] at hfree
    rw [List.length_cons] at hds
    by_cases hlast : ds.length = 0
    · obtain ⟨tag, bytes, hbytes, htag⟩ := exists_tag_flatMap (d :: ds) (Nat.succ_pos _)
      rw [hbytes, List.length_eq_zero_iff.1 (show w.length = 0 by omega)] at h
      exact htag (List.cons.inj h).1
    · obtain ⟨tag, bytes, hbytes, htag⟩ := exists_tag_flatMap ds (by omega)
      rw [List.flatMap_cons, hbytes] at h
      obtain ⟨w', hshorter, hrest⟩ := d.exists_before_zeros hfree.1 hw htag h
      exact ih (by omega) (by omega) hfree.2 (hbytes.trans hrest)

theorem Text.littleEndian_zero (k : Nat) : littleEndian k 0 = List.replicate k 0 := by
  induction k with
  | zero => rfl
  | succ k ih =>
    rw [littleEndian, ih]
    rfl

theorem Text.littleEndian_of_lt {j n : Nat} (h : n < 256 ^ j) (k : Nat) :
    littleEndian (j + k) n = littleEndian j n ++ List.replicate k 0 := by
  induction j generalizing n with
  | zero =>
    obtain rfl : n = 0 := by omega
    rw [Nat.zero_add, littleEndian_zero]
    rfl
  | succ j ih =>
    have hrest : littleEndian (j + k) (n / 256) =
        littleEndian j (n / 256) ++ List.replicate k 0 :=
      ih (Nat.div_lt_of_lt_mul (by rwa [Nat.pow_succ'] at h))
    rw [Nat.add_right_comm, littleEndian, littleEndian, hrest, List.cons_append]

/-- The number of a cell that is not too great ends in five zeros. -/
theorem dims_ne_deferral {ds : List Dim} {u : Deferral} (hds : 4 ≤ ds.length)
    (hfree : ∀ d ∈ ds, d.NulFree) (hu : u.cell < 256 ^ 3) (t : List UInt8) :
    ds.flatMap Dim.bytes ≠ u.bytes ++ t := by
  have hcell : Text.littleEndian 8 u.cell = Text.littleEndian 3 u.cell ++ List.replicate 5 0 :=
    Text.littleEndian_of_lt hu 5
  have hlength : (Text.littleEndian 3 u.cell).length = 3 := Text.length_littleEndian 3 u.cell
  unfold Deferral.bytes
  rw [hcell, List.append_assoc, List.append_assoc, List.append_assoc]
  exact dims_ne_zeros (by omega) (by omega) hfree _

/-- Where values end and dimensions begin is read off the stream, if there are four dimensions or
more. -/
theorem deferrals_dims_injective {us vs : List Deferral} {ds es : List Dim} {n : Nat}
    (hus : ∀ u ∈ us, u.Delimited (256 ^ 3)) (hvs : ∀ v ∈ vs, v.Delimited (256 ^ 3))
    (hds : ds.length = n + 4 ∧ ∀ d ∈ ds, d.NulFree) (hes : es.length = n + 4 ∧ ∀ e ∈ es, e.NulFree)
    (h : us.flatMap Deferral.bytes ++ ds.flatMap Dim.bytes =
      vs.flatMap Deferral.bytes ++ es.flatMap Dim.bytes) : us = vs ∧ ds = es := by
  induction us generalizing vs with
  | nil =>
    cases vs with
    | nil =>
      have hdims := selfDelimiting_dim.flatMap (n + 4) hds hes (congrArg (· ++ []) h)
      exact ⟨rfl, hdims.1⟩
    | cons v vs =>
      rw [List.flatMap_cons, List.append_assoc] at h
      have hcell := (hvs v List.mem_cons_self).cell
      exact absurd h (dims_ne_deferral (by omega) hds.2 hcell _)
  | cons u us ih =>
    rw [List.flatMap_cons, List.append_assoc] at h
    cases vs with
    | nil =>
      have hcell := (hus u List.mem_cons_self).cell
      exact absurd h.symm (dims_ne_deferral (by omega) hes.2 hcell _)
    | cons v vs =>
      rw [List.flatMap_cons, List.append_assoc] at h
      rw [List.forall_mem_cons] at hus hvs
      have hle : 256 ^ 3 ≤ 256 ^ 8 := by decide
      obtain ⟨rfl, hrest⟩ := selfDelimiting_deferral (hus.1.mono hle) (hvs.1.mono hle) h
      obtain ⟨rfl, hdims⟩ := ih hus.2 hvs.2 hrest
      exact ⟨rfl, hdims⟩

/-- A value of a kernel that has no more than two tensors to find. -/
structure Unresolved.Readable (u : Unresolved) : Prop where
  cell : u.cell ≤ 1
  byteOffset : u.byteOffset = u.cell * Cell.width
  key : NulFree u.key
  label : NulFree u.label

namespace Unresolved

theorem Readable.delimited {u : Unresolved} (h : u.Readable) : u.deferral.Delimited (256 ^ 3) :=
  ⟨Nat.lt_of_le_of_lt h.cell (by decide), h.key, h.label⟩

/-- The place of a cell is known from its number. -/
theorem Readable.eq_of_deferral {u v : Unresolved} (hu : u.Readable) (hv : v.Readable)
    (h : u.deferral = v.deferral) : u = v := by
  have hoffset : u.byteOffset = v.byteOffset := by
    calc u.byteOffset
      _ = u.cell * Cell.width := hu.byteOffset
      _ = v.cell * Cell.width := congrArg (fun d : Deferral => d.cell * Cell.width) h
      _ = v.byteOffset := hv.byteOffset.symm
  cases u
  cases v
  cases h
  cases hoffset
  rfl

theorem eq_of_map_deferral {us vs : List Unresolved} (hus : ∀ u ∈ us, u.Readable)
    (hvs : ∀ v ∈ vs, v.Readable) (h : us.map deferral = vs.map deferral) : us = vs := by
  induction us generalizing vs with
  | nil => exact (List.map_eq_nil_iff.1 h.symm).symm
  | cons u us ih =>
    obtain ⟨v, vs, rfl, hv, hrest⟩ := List.map_eq_cons_iff.1 h.symm
    rw [List.forall_mem_cons] at hus hvs
    rw [hus.1.eq_of_deferral hvs.1 hv.symm, ih hus.2 hvs.2 hrest.symm]

end Unresolved

theorem unresolved_dims_injective {us vs : List Unresolved} {ds es : List Dim} {n : Nat}
    (hus : ∀ u ∈ us, u.Readable) (hvs : ∀ v ∈ vs, v.Readable)
    (hds : ds.length = n + 4 ∧ ∀ d ∈ ds, d.NulFree) (hes : es.length = n + 4 ∧ ∀ e ∈ es, e.NulFree)
    (h : us.flatMap Unresolved.bytes ++ ds.flatMap Dim.bytes =
      vs.flatMap Unresolved.bytes ++ es.flatMap Dim.bytes) : us = vs ∧ ds = es := by
  rw [flatMap_deferral, flatMap_deferral] at h
  obtain ⟨hvalues, hdims⟩ := deferrals_dims_injective
    (List.forall_mem_map.2 fun u hu => (hus u hu).delimited)
    (List.forall_mem_map.2 fun v hv => (hvs v hv).delimited) hds hes h
  exact ⟨Unresolved.eq_of_map_deferral hus hvs hvalues, hdims⟩

namespace Outline

/-- The text shows where each load expression ends, if none of them has a semicolon. -/
theorem declLines_injective {load load' : String → String} (h : ∀ key, ';' ∉ (load key).toList)
    (h' : ∀ key, ';' ∉ (load' key).toList) (ds : List Decl) {s t : List UInt8}
    (hst : (String.join (ds.map (declLine load))).toUTF8.toList ++ s =
      (String.join (ds.map (declLine load'))).toUTF8.toList ++ t) :
    (∀ d ∈ ds, load d.key = load' d.key) ∧ s = t := by
  induction ds with
  | nil => exact ⟨List.forall_mem_nil _, List.append_cancel_left hst⟩
  | cons d ds ih =>
    have hend : ";\n".toUTF8.toList = [59, 10] := by decide +kernel
    unfold declLine at hst
    simp only [List.map_cons, String.join_cons, Text.utf8_append, List.append_assoc,
      List.append_cancel_left_eq, hend, List.cons_append] at hst
    obtain ⟨hload, hrest⟩ := append_cons_inj (notMem_utf8 (h d.key) (by decide) rfl)
      (notMem_utf8 (h' d.key) (by decide) rfl) hst
    obtain ⟨hds, hst⟩ := ih (List.cons.inj hrest).2
    exact ⟨List.forall_mem_cons.2 ⟨Text.utf8_injective hload, hds⟩, hst⟩

theorem written_injective {load load' : String → String} (h : ∀ key, ';' ∉ (load key).toList)
    (h' : ∀ key, ';' ∉ (load' key).toList) {o : Outline} {name : String} {s t : List UInt8}
    (hst : (o.written name load).toUTF8.toList ++ s = (o.written name load').toUTF8.toList ++ t) :
    (∀ d ∈ o.decls, load d.key = load' d.key) ∧ s = t := by
  unfold written at hst
  simp only [Text.utf8_append, List.append_assoc, List.append_cancel_left_eq] at hst
  obtain ⟨hdecls, hrest⟩ := declLines_injective h h' o.decls hst
  simp only [List.append_cancel_left_eq] at hrest
  exact ⟨hdecls, hrest⟩

theorem written_congr {load load' : String → String} {o : Outline}
    (h : ∀ d ∈ o.decls, load d.key = load' d.key) (name : String) :
    o.written name load = o.written name load' := by
  have hlines : o.decls.map (declLine load) = o.decls.map (declLine load') := by
    refine List.map_congr_left fun d hd => ?_
    unfold declLine
    rw [h d hd]
  rw [written, written, hlines]

end Outline

end TensorKernels
