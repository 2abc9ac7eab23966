import Mathlib.Data.List.Basic
import Mathlib.Data.List.TakeWhile

set_option autoImplicit false

namespace TensorKernels

theorem span_append {p : Char → Bool} {w rest : List Char} (hw : ∀ c ∈ w, p c = true)
    (hrest : ∀ c ∈ rest.head?, p c = false) :
    (w ++ rest).takeWhile p = w ∧ (w ++ rest).dropWhile p = rest := by
  rw [List.takeWhile_append_of_pos hw, List.dropWhile_append_of_pos hw]
  cases rest with
  | nil => exact ⟨List.append_nil w, rfl⟩
  | cons c rest => simp_all

theorem takeWhile_mark {α : Type} [DecidableEq α] (mark : α) (as bs : List α) :
    (as ++ mark :: bs).takeWhile (· ≠ mark) = as.takeWhile (· ≠ mark) := by
  induction as with
  | nil => simp
  | cons a as ih => rw [List.cons_append, List.takeWhile_cons, List.takeWhile_cons, ih]

end TensorKernels

namespace TensorKernels.Text

theorem toList_loop (bs : ByteArray) (i : Nat) (r : List UInt8) :
    ByteArray.toList.loop bs i r = r.reverse ++ bs.data.toList.drop i := by
  fun_induction ByteArray.toList.loop bs i r with
  | case1 i r h ih =>
    have hi : i < bs.data.toList.length := h
    have hget : bs.get! i = bs.data.toList[i] := by
      rw [Array.getElem_toList, ByteArray.get!, getElem!_pos bs.data i h]
    calc ByteArray.toList.loop bs (i + 1) (bs.get! i :: r)
      _ = (bs.get! i :: r).reverse ++ bs.data.toList.drop (i + 1) := ih
      _ = r.reverse ++ bs.data.toList[i] :: bs.data.toList.drop (i + 1) := by
        rw [List.reverse_cons, List.append_assoc, List.singleton_append, hget]
      _ = r.reverse ++ bs.data.toList.drop i := by rw [List.drop_eq_getElem_cons hi]
  | case2 i r h =>
    rw [List.drop_eq_nil_of_le (Nat.le_of_not_lt h), List.append_nil]

theorem toList_eq_data (bs : ByteArray) : bs.toList = bs.data.toList := toList_loop bs 0 []

theorem utf8_eq_flatMap (s : String) :
    s.toUTF8.toList = s.toList.flatMap String.utf8EncodeChar := by
  have h : s.toUTF8 = (s.toList.flatMap String.utf8EncodeChar).toByteArray := by
    rw [String.toUTF8_eq_toByteArray, ← String.ofList_toList (s := s), String.toByteArray_ofList,
      String.toList_ofList, List.utf8Encode]
  rw [h, toList_eq_data, List.toList_data_toByteArray]

theorem utf8_append (s t : String) :
    (s ++ t).toUTF8.toList = s.toUTF8.toList ++ t.toUTF8.toList := by
  rw [utf8_eq_flatMap, utf8_eq_flatMap, utf8_eq_flatMap, String.toList_append, List.flatMap_append]

theorem utf8_injective {s t : String} (h : s.toUTF8.toList = t.toUTF8.toList) : s = t := by
  rw [toList_eq_data, toList_eq_data, Array.toList_inj] at h
  exact String.toByteArray_inj.1 (ByteArray.ext h)

theorem le_toNat_ofNat {k m : Nat} (hk : 0 < k) (hm : k + m ≤ 256) (n : Nat) :
    m ≤ (UInt8.ofNat (n % k + m)).toNat := by
  have hlt := Nat.mod_lt n hk
  rw [UInt8.toNat_ofNat_of_lt' (by change _ < 256; omega)]
  exact Nat.le_add_left m _

theorem toNat_of_mem_utf8EncodeChar {b : UInt8} {c : Char} (h : b ∈ String.utf8EncodeChar c)
    (hb : b.toNat < 128) : c.toNat = b.toNat := by
  have hc : c.toNat = c.val.toNat := rfl
  have htwo := @le_toNat_ofNat 32 192 (by decide) (by decide)
  have hthree := @le_toNat_ofNat 16 224 (by decide) (by decide)
  have hfour := @le_toNat_ofNat 8 240 (by decide) (by decide)
  have hrest := @le_toNat_ofNat 64 128 (by decide) (by decide)
  simp only [String.utf8EncodeChar] at h
  split at h
  · rw [List.mem_singleton.1 h, UInt8.toNat_ofNat']
    omega
  · exfalso
    apply Nat.not_le.2 hb
    split at h
    · simp only [List.mem_cons, List.not_mem_nil, or_false] at h
      rcases h with rfl | rfl
      · exact Nat.le_trans (by decide) (htwo _)
      · exact hrest _
    · split at h
      · simp only [List.mem_cons, List.not_mem_nil, or_false] at h
        rcases h with rfl | rfl | rfl
        · exact Nat.le_trans (by decide) (hthree _)
        · exact hrest _
        · exact hrest _
      · simp only [List.mem_cons, List.not_mem_nil, or_false] at h
        rcases h with rfl | rfl | rfl | rfl
        · exact Nat.le_trans (by decide) (hfour _)
        · exact hrest _
        · exact hrest _
        · exact hrest _

theorem mem_of_mem_utf8 {b : UInt8} {s : String} (h : b ∈ s.toUTF8.toList) (hb : b.toNat < 128) :
    Char.ofNat b.toNat ∈ s.toList := by
  rw [utf8_eq_flatMap] at h
  obtain ⟨c, hc, hbc⟩ := List.mem_flatMap.1 h
  rwa [← toNat_of_mem_utf8EncodeChar hbc hb, Char.ofNat_toNat]

theorem length_utf8_of_ascii {s : String} (h : ∀ c ∈ s.toList, c.toNat < 128) :
    s.toUTF8.toList.length = s.length := by
  rw [utf8_eq_flatMap, ← String.length_toList]
  generalize s.toList = cs at h ⊢
  induction cs with
  | nil => rfl
  | cons c cs ih =>
    rw [List.forall_mem_cons] at h
    have hc : c.utf8Size = 1 :=
      Char.utf8Size_eq_one_iff.2 (UInt32.le_iff_toNat_le.2 (Nat.le_of_lt_succ h.1))
    calc ((c :: cs).flatMap String.utf8EncodeChar).length
      _ = c.utf8Size + (cs.flatMap String.utf8EncodeChar).length := by
        rw [List.flatMap_cons, List.length_append, String.length_utf8EncodeChar]
      _ = 1 + cs.length := by rw [hc, ih h.2]
      _ = (c :: cs).length := Nat.add_comm 1 cs.length

/-- How many parentheses are open after a character when `d` are open before it. Nothing if it closes
one that has not been opened. -/
def openNext (d : Nat) (c : Char) : Option Nat :=
  if c = '(' then some (d + 1)
  else if c = ')' then if d = 0 then none else some (d - 1)
  else some d

def openAfter (d : Nat) (cs : List Char) : Option Nat := cs.foldlM openNext d

/-- Every parenthesis has its partner in the text. -/
def Balanced (cs : List Char) : Prop := openAfter 0 cs = some 0

instance (cs : List Char) : Decidable (Balanced cs) :=
  inferInstanceAs (Decidable (openAfter 0 cs = some 0))

/-- The first text without one parenthesis and its partner is the second. -/
def DropsPair (cs ds : List Char) : Prop :=
  ∃ before inside after, Balanced inside ∧ cs = before ++ '(' :: (inside ++ ')' :: after) ∧
    ds = before ++ (inside ++ after)

section

variable {d n k : Nat} {as bs cs : List Char}

theorem openAfter_cons (d : Nat) (c : Char) (cs : List Char) :
    openAfter d (c :: cs) = (openNext d c).bind fun n => openAfter n cs := List.foldlM_cons

theorem openAfter_append (d : Nat) (as bs : List Char) :
    openAfter d (as ++ bs) = (openAfter d as).bind fun n => openAfter n bs := List.foldlM_append

theorem openAfter_opening (d : Nat) (cs : List Char) :
    openAfter d ('(' :: cs) = openAfter (d + 1) cs := rfl

theorem openNext_add {c : Char} (h : openNext d c = some n) (k : Nat) :
    openNext (d + k) c = some (n + k) := by
  unfold openNext at h ⊢
  by_cases hopen : c = '('
  · rw [if_pos hopen, Option.some_inj] at h ⊢
    omega
  · rw [if_neg hopen] at h ⊢
    by_cases hclose : c = ')'
    · rw [if_pos hclose] at h ⊢
      by_cases hd : d = 0
      · rw [if_pos hd] at h
        cases h
      · rw [if_neg hd, Option.some_inj] at h
        rw [if_neg (by omega), Option.some_inj]
        omega
    · rw [if_neg hclose, Option.some_inj] at h ⊢
      omega

theorem openAfter_add (h : openAfter d as = some n) (k : Nat) :
    openAfter (d + k) as = some (n + k) := by
  induction as generalizing d with
  | nil =>
    cases h
    rfl
  | cons a as ih =>
    rw [openAfter_cons] at h ⊢
    obtain ⟨m, hm, h⟩ := Option.bind_eq_some_iff.1 h
    rw [openNext_add hm k]
    exact ih h

theorem balanced_of_notMem (h : '(' ∉ cs) (h' : ')' ∉ cs) : Balanced cs := by
  induction cs with
  | nil => rfl
  | cons c cs ih =>
    rw [List.mem_cons, not_or] at h h'
    rw [Balanced, openAfter_cons, openNext, if_neg (Ne.symm h.1), if_neg (Ne.symm h'.1)]
    exact ih h.2 h'.2

theorem Balanced.append (ha : Balanced as) (hb : Balanced bs) : Balanced (as ++ bs) := by
  rw [Balanced, openAfter_append, ha]
  exact hb

theorem Balanced.enclosed (h : Balanced cs) : Balanced ('(' :: (cs ++ [')'])) := by
  rw [Balanced, openAfter_opening, openAfter_append, openAfter_add h 1]
  rfl

/-- A parenthesis that finds no partner in the text `cs` stays open. -/
theorem not_balanced_opening {before : List Char} (h : openAfter 0 cs = some n) :
    ¬ Balanced (before ++ '(' :: cs) := by
  intro hall
  rw [Balanced, openAfter_append] at hall
  obtain ⟨d, -, hd⟩ := Option.bind_eq_some_iff.1 hall
  have hopen := openAfter_add h (d + 1)
  rw [Nat.zero_add, ← openAfter_opening, hd, Option.some_inj] at hopen
  omega

theorem not_balanced_closing (h : Balanced as) : ¬ Balanced (as ++ ')' :: bs) := by
  intro hall
  rw [Balanced, openAfter_append, h] at hall
  cases hall

/-- Only one closing parenthesis can be a partner of what is open before the two texts. -/
theorem closing_unique {as' bs' : List Char} (ha : Balanced as) (hb : Balanced bs)
    (h : as ++ ')' :: as' = bs ++ ')' :: bs') : as = bs ∧ as' = bs' := by
  have hlater {cs ds cs' ds' : List Char} (hc : Balanced cs) (hd : Balanced (cs ++ ds))
      (h : ')' :: cs' = ds ++ ')' :: ds') : ds = [] := by
    cases ds with
    | nil => rfl
    | cons d ds =>
      rw [List.cons_append, List.cons.injEq] at h
      rw [← h.1] at hd
      exact absurd hd (not_balanced_closing hc)
  rcases List.append_eq_append_iff.1 h with ⟨rest, rfl, hrest⟩ | ⟨rest, rfl, hrest⟩
  · obtain rfl := hlater ha hb hrest
    exact ⟨(List.append_nil as).symm, (List.cons.inj hrest).2⟩
  · obtain rfl := hlater hb ha hrest
    exact ⟨List.append_nil bs, (List.cons.inj hrest).2.symm⟩

theorem exists_openAfter (h : Balanced (as ++ bs)) : ∃ n, openAfter 0 as = some n := by
  rw [Balanced, openAfter_append] at h
  obtain ⟨n, hn, -⟩ := Option.bind_eq_some_iff.1 h
  exact ⟨n, hn⟩

end

namespace DropsPair

variable {as bs cs ds : List Char}

theorem mem (h : DropsPair cs ds) : '(' ∈ cs := by
  obtain ⟨before, inside, after, -, rfl, -⟩ := h
  exact List.mem_append_right before List.mem_cons_self

theorem count_eq (h : DropsPair cs ds) : cs.count '(' = ds.count '(' + 1 := by
  obtain ⟨before, inside, after, -, rfl, rfl⟩ := h
  have hclosing : ')' ≠ '(' := by decide
  simp only [List.count_append, List.count_cons_self, List.count_cons_of_ne hclosing]
  omega

/-- The partner of a parenthesis of `as` is in `as`, since otherwise this parenthesis stays open. -/
theorem append_cases (ha : Balanced as) (h : DropsPair (as ++ bs) ds) :
    (∃ as', DropsPair as as' ∧ ds = as' ++ bs) ∨ ∃ bs', DropsPair bs bs' ∧ ds = as ++ bs' := by
  obtain ⟨before, inside, after, hinside, hsplit, rfl⟩ := h
  rcases List.append_eq_append_iff.1 hsplit with ⟨before', rfl, rfl⟩ | ⟨tail, rfl, htail⟩
  · refine .inr ⟨before' ++ (inside ++ after), ⟨before', inside, after, hinside, rfl, rfl⟩, ?_⟩
    rw [List.append_assoc]
  · cases tail with
    | nil =>
      refine .inr ⟨inside ++ after, ⟨[], inside, after, hinside, htail.symm, rfl⟩, ?_⟩
      rw [List.append_nil]
    | cons c tail =>
      rw [List.cons_append, List.cons.injEq] at htail
      obtain ⟨rfl, hinner⟩ := htail
      rcases List.append_eq_append_iff.1 hinner with ⟨rest, rfl, hrest⟩ | ⟨rest, rfl, -⟩
      · cases rest with
        | nil =>
          rw [List.append_nil] at ha
          exact absurd ha (not_balanced_opening hinside)
        | cons c rest =>
          rw [List.cons_append, List.cons.injEq] at hrest
          obtain ⟨rfl, rfl⟩ := hrest
          refine .inl ⟨before ++ (inside ++ rest), ⟨before, inside, rest, hinside, rfl, rfl⟩, ?_⟩
          simp only [List.append_assoc]
      · obtain ⟨n, hn⟩ := exists_openAfter hinside
        exact absurd ha (not_balanced_opening hn)

theorem enclosed_cases (hc : Balanced cs) (h : DropsPair ('(' :: (cs ++ [')'])) ds) :
    ds = cs ∨ ∃ cs', DropsPair cs cs' ∧ ds = '(' :: (cs' ++ [')']) := by
  obtain ⟨before, inside, after, hinside, hsplit, rfl⟩ := h
  cases before with
  | nil =>
    have htail : cs ++ ')' :: [] = inside ++ ')' :: after := (List.cons.inj hsplit).2
    obtain ⟨rfl, rfl⟩ := closing_unique hc hinside htail
    exact .inl (List.append_nil cs)
  | cons c before =>
    rw [List.cons_append, List.cons.injEq] at hsplit
    obtain ⟨rfl, htail⟩ := hsplit
    rcases List.eq_nil_or_concat after with rfl | ⟨rest, c, rfl⟩
    · have hlast : cs ++ [')'] = (before ++ '(' :: inside) ++ [')'] := by simpa using htail
      obtain rfl := List.append_cancel_right hlast
      exact absurd hc (not_balanced_opening hinside)
    · have hlast : cs ++ [')'] = (before ++ '(' :: (inside ++ ')' :: rest)) ++ [c] := by
        simpa using htail
      obtain ⟨rfl, hclosing⟩ := List.append_inj' hlast rfl
      obtain rfl := (List.cons.inj hclosing).1
      refine .inr ⟨before ++ (inside ++ rest), ⟨before, inside, rest, hinside, rfl, rfl⟩, ?_⟩
      simp

end DropsPair

end TensorKernels.Text
