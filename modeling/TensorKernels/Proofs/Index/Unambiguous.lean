import TensorKernels.Index.Grammar

set_option autoImplicit false

namespace TensorKernels

/-- At the depth `d` and from there on, every parenthesis has its partner, and outside parentheses
there are only operators of level `k` or above. -/
def Nested (k : Nat) : Nat → List ExprToken → Prop
  | d, [] => d = 0
  | d, .opening :: ts => Nested k (d + 1) ts
  | 0, .closing :: _ => False
  | d + 1, .closing :: ts => Nested k d ts
  | d, .op o :: ts => (d = 0 → k ≤ o.precedence) ∧ Nested k d ts
  | d, .name _ :: ts => Nested k d ts
  | d, .number _ :: ts => Nested k d ts

namespace Nested

variable {j k d e : Nat} {ts us : List ExprToken}

theorem append (hts : Nested j d ts) (hus : Nested k e us) (h : k ≤ j ∨ 0 < e) :
    Nested k (d + e) (ts ++ us) := by
  induction ts generalizing d with
  | nil =>
    obtain rfl : d = 0 := hts
    rwa [Nat.zero_add]
  | cons t ts ih =>
    cases t with
    | name s => exact ih hts
    | number n => exact ih hts
    | op o =>
      refine ⟨fun hde => ?_, ih hts.2⟩
      have hd := hts.1 (by omega)
      omega
    | opening =>
      have hrest := ih hts
      rwa [Nat.add_right_comm] at hrest
    | closing =>
      cases d with
      | zero => exact hts.elim
      | succ d =>
        rw [Nat.add_right_comm]
        exact ih hts

theorem mono (h : Nested j 0 ts) (hkj : k ≤ j) : Nested k 0 ts := by
  have hnil : Nested k 0 [] := rfl
  have happend := h.append hnil (.inl hkj)
  rwa [List.append_nil] at happend

theorem rest (hts : Nested j d ts) (h : Nested k d (ts ++ us)) : Nested k 0 us := by
  induction ts generalizing d with
  | nil =>
    obtain rfl : d = 0 := hts
    exact h
  | cons t ts ih =>
    cases t with
    | name s => exact ih hts h
    | number n => exact ih hts h
    | op o => exact ih hts.2 h.2
    | opening => exact ih hts h
    | closing =>
      cases d with
      | zero => exact hts.elim
      | succ d => exact ih hts h

theorem le_precedence {o : BinOp} (hts : Nested j 0 ts) (h : Nested k 0 (ts ++ .op o :: us)) :
    k ≤ o.precedence :=
  (hts.rest h).1 rfl

/-- The operator cannot stand further to the right: it would be outside parentheses in `us`. -/
theorem eq_nil_of_split {a us' : List ExprToken} {o o' : BinOp} (hts : Nested k 0 ts)
    (htsa : Nested k 0 (ts ++ a)) (hus : Nested (k + 1) 0 us) (ho' : o'.precedence = k)
    (h : .op o :: us = a ++ .op o' :: us') : a = [] := by
  cases a with
  | nil => rfl
  | cons t a =>
    obtain ⟨rfl, rfl⟩ := List.cons.inj h
    have ha : Nested k 0 a := (hts.rest htsa).2
    have hle := ha.le_precedence hus
    omega

theorem split_unique {ts' us' : List ExprToken} {o o' : BinOp} (hts : Nested k 0 ts)
    (hts' : Nested k 0 ts') (hus : Nested (k + 1) 0 us) (hus' : Nested (k + 1) 0 us')
    (ho : o.precedence = k) (ho' : o'.precedence = k)
    (h : ts ++ .op o :: us = ts' ++ .op o' :: us') : ts = ts' ∧ o = o' ∧ us = us' := by
  have hsame : ts = ts' := by
    rcases List.append_eq_append_iff.1 h with ⟨a, rfl, ha⟩ | ⟨a, rfl, ha⟩
    · rw [hts.eq_nil_of_split hts' hus ho' ha, List.append_nil]
    · rw [hts'.eq_nil_of_split hts hus' ho ha, List.append_nil]
  subst hsame
  obtain ⟨hop, rfl⟩ := List.cons.inj (List.append_cancel_left h)
  exact ⟨rfl, ExprToken.op.inj hop, rfl⟩

end Nested

theorem BinOp.precedence_lt (o : BinOp) : o.precedence < 3 := by
  cases o <;> decide

namespace Reads

variable {k : Nat} {ts : List ExprToken} {e : Expr}

theorem nested (h : Reads k ts e) : Nested k 0 ts := by
  induction h with
  | name s => exact rfl
  | number n => exact rfl
  | parens _ ih =>
    have hclose : Nested 3 1 [.closing] := rfl
    exact ih.append hclose (.inr Nat.one_pos)
  | @op o ts us l r _ _ ihl ihr =>
    have hop : Nested o.precedence 0 (.op o :: us) :=
      ⟨fun _ => Nat.le_refl _, ihr.mono (Nat.le_succ _)⟩
    exact ihl.append hop (.inl (Nat.le_refl _))
  | tighter _ ih => exact ih.mono (Nat.le_succ _)

theorem level_le (h : Reads k ts e) : k ≤ 3 := by
  induction h with
  | @op o => exact Nat.le_of_lt o.precedence_lt
  | tighter _ ih => omega
  | _ => exact Nat.le_refl 3

theorem leaf_cases (h : Reads 3 ts e) :
    (∃ s, ts = [.name s] ∧ e = .var s) ∨ (∃ n : Nat, ts = [.number n] ∧ e = .const n) ∨
      ∃ us, ts = .opening :: us ++ [.closing] ∧ Reads 1 us e := by
  generalize hk : 3 = k at h
  cases h with
  | name s => exact .inl ⟨s, rfl, rfl⟩
  | number n => exact .inr (.inl ⟨n, rfl, rfl⟩)
  | parens h => exact .inr (.inr ⟨_, rfl, h⟩)
  | @op o =>
    have := o.precedence_lt
    omega
  | tighter h =>
    have := h.level_le
    omega

theorem level_cases (h : Reads k ts e) (hk : k < 3) : Reads (k + 1) ts e ∨
    ∃ o us vs l r, o.precedence = k ∧ ts = us ++ .op o :: vs ∧ e = .bin o l r ∧ Reads k us l ∧
      Reads (k + 1) vs r := by
  cases h with
  | op hl hr => exact .inr ⟨_, _, _, _, _, rfl, rfl, rfl, hl, hr⟩
  | tighter h => exact .inl h
  | _ => omega

theorem unique {e' : Expr} (h : Reads k ts e) (h' : Reads k ts e') : e = e' := by
  -- the other reading has to end in the same rule
  induction h generalizing e' with
  | name s =>
    rcases h'.leaf_cases with ⟨s', hs, rfl⟩ | ⟨n, hn, -⟩ | ⟨us, hus, -⟩
    · cases hs
      rfl
    · cases hn
    · cases hus
  | number n =>
    rcases h'.leaf_cases with ⟨s, hs, -⟩ | ⟨n', hn, rfl⟩ | ⟨us, hus, -⟩
    · cases hs
    · cases hn
      rfl
    · cases hus
  | @parens ts e _ ih =>
    rcases h'.leaf_cases with ⟨s, hs, -⟩ | ⟨n, hn, -⟩ | ⟨us, hus, hread⟩
    · cases hs
    · cases hn
    · have htail := (List.cons.inj hus).2
      obtain rfl := List.append_cancel_right htail
      exact ih hread
  | @op o ts us l r hl hr ihl ihr =>
    rcases h'.level_cases o.precedence_lt with
      hhigher | ⟨o', ts', us', l', r', ho', hsplit, rfl, hl', hr'⟩
    · have hle := hl.nested.le_precedence hhigher.nested
      omega
    · obtain ⟨rfl, rfl, rfl⟩ :=
        Nested.split_unique hl.nested hl'.nested hr.nested hr'.nested rfl ho' hsplit
      rw [ihl hl', ihr hr']
  | @tighter k ts e h ih =>
    have hk := h.level_le
    rcases h'.level_cases hk with hhigher | ⟨o, us, vs, l, r, ho, rfl, -, hl, -⟩
    · exact ih hhigher
    · have hle := hl.nested.le_precedence h.nested
      omega

end Reads

end TensorKernels
