import TensorKernels.Text

set_option autoImplicit false

namespace TensorKernels.JsonText

def escapeChar (c : Char) : List Char :=
  if c = '"' then ['\\', '"']
  else if c = '\\' then ['\\', '\\']
  else if c = '\x08' then ['\\', 'b']
  else if c = '\t' then ['\\', 't']
  else if c = '\n' then ['\\', 'n']
  else if c = '\x0c' then ['\\', 'f']
  else if c = '\r' then ['\\', 'r']
  else if c.toNat < 0x20 then
    ['\\', 'u', '0', '0', Nat.digitChar (c.toNat / 16), Nat.digitChar (c.toNat % 16)]
  else [c]

def escape (cs : List Char) : List Char := cs.flatMap escapeChar

def quote (s : String) : String := String.ofList ('"' :: escape s.toList ++ ['"'])

def hexValue? (c : Char) : Option Nat :=
  if c.isDigit then some (c.toNat - '0'.toNat)
  else if 'a' ≤ c ∧ c ≤ 'f' then some (c.toNat - 'a'.toNat + 10)
  else if 'A' ≤ c ∧ c ≤ 'F' then some (c.toNat - 'A'.toNat + 10)
  else none

def unit? : List Char → Option (Nat × List Char)
  | a :: b :: c :: d :: rest => do
    let a ← hexValue? a
    let b ← hexValue? b
    let c ← hexValue? c
    let d ← hexValue? d
    return (((a * 16 + b) * 16 + c) * 16 + d, rest)
  | _ => none

def isHighSurrogate (u : Nat) : Bool := 0xD800 ≤ u ∧ u < 0xDC00

def isLowSurrogate (u : Nat) : Bool := 0xDC00 ≤ u ∧ u < 0xE000

def escaped? : List Char → Option (Nat × List Char)
  | '"' :: rest => some (0x22, rest)
  | '\\' :: rest => some (0x5C, rest)
  | '/' :: rest => some (0x2F, rest)
  | 'b' :: rest => some (0x08, rest)
  | 'f' :: rest => some (0x0C, rest)
  | 'n' :: rest => some (0x0A, rest)
  | 'r' :: rest => some (0x0D, rest)
  | 't' :: rest => some (0x09, rest)
  | 'u' :: rest => unit? rest
  | _ => none

/-- One code point of a text between quotes. A control character must be escaped. -/
def point? : List Char → Option (Nat × List Char)
  | '\\' :: rest => escaped? rest
  | c :: rest => if c.toNat < 0x20 then none else some (c.toNat, rest)
  | [] => none

/-- The characters that code points stand for. A surrogate has to come in a pair. -/
def characters? : List Nat → Option (List Char)
  | [] => some []
  | u :: us =>
    if isHighSurrogate u then
      match us with
      | v :: us =>
        if isLowSurrogate v then
          (characters? us).map (Char.ofNat (0x10000 + (u - 0xD800) * 0x400 + (v - 0xDC00)) :: ·)
        else none
      | [] => none
    else if isLowSurrogate u then none
    else (characters? us).map (Char.ofNat u :: ·)

theorem length_lt_of_unit? {cs rest : List Char} {u : Nat} (h : unit? cs = some (u, rest)) :
    rest.length < cs.length := by
  unfold unit? at h
  split at h
  · simp only [Option.bind_eq_bind, Option.bind_eq_some_iff, Option.pure_def, Option.some.injEq,
      Prod.mk.injEq] at h
    obtain ⟨_, _, _, _, _, _, _, _, _, rfl⟩ := h
    simp only [List.length_cons]
    omega
  · simp at h

theorem length_lt_of_escaped? {cs rest : List Char} {u : Nat} (h : escaped? cs = some (u, rest)) :
    rest.length < cs.length := by
  unfold escaped? at h
  split at h
  case h_9 r =>
    have := length_lt_of_unit? h
    simp only [List.length_cons]
    omega
  all_goals simp_all

theorem length_lt_of_point? {cs rest : List Char} {u : Nat} (h : point? cs = some (u, rest)) :
    rest.length < cs.length := by
  unfold point? at h
  split at h
  · have := length_lt_of_escaped? h
    simp only [List.length_cons]
    omega
  · split at h
    · simp at h
    · simp_all
  · simp at h

/-- The code points up to the closing quote, and what follows that. -/
def body? (cs : List Char) : Option (List Nat × List Char) :=
  if cs.head? = some '"' then some ([], cs.tail)
  else
    match _h : point? cs with
    | some (u, rest) => (body? rest).map fun (us, t) => (u :: us, t)
    | none => none
termination_by cs.length
decreasing_by exact length_lt_of_point? _h

theorem length_lt_of_body? {cs rest : List Char} {us : List Nat} (h : body? cs = some (us, rest)) :
    rest.length < cs.length := by
  fun_induction body? cs generalizing us with
  | case1 cs hq =>
    simp only [Option.some.injEq, Prod.mk.injEq] at h
    obtain ⟨-, rfl⟩ := h
    cases cs <;> simp_all
  | case2 cs _ u rest' hu ih =>
    obtain ⟨⟨us', t⟩, hb, e⟩ := Option.map_eq_some_iff.1 h
    simp only [Prod.mk.injEq] at e
    obtain ⟨-, rfl⟩ := e
    exact Nat.lt_trans (ih hb) (length_lt_of_point? hu)
  | case3 => simp at h

theorem hexValue?_digitChar {n : Nat} (h : n < 16) : hexValue? (Nat.digitChar n) = some n :=
  (by decide : ∀ n < 16, hexValue? (Nat.digitChar n) = some n) n h

theorem unit?_control {n : Nat} (h : n < 0x20) (rest : List Char) :
    unit? ('0' :: '0' :: Nat.digitChar (n / 16) :: Nat.digitChar (n % 16) :: rest) =
      some (n, rest) := by
  have h0 : hexValue? '0' = some 0 := rfl
  have ha : hexValue? (Nat.digitChar (n / 16)) = some (n / 16) := hexValue?_digitChar (by omega)
  have hb : hexValue? (Nat.digitChar (n % 16)) = some (n % 16) := hexValue?_digitChar (by omega)
  have hn : ((0 * 16 + 0) * 16 + n / 16) * 16 + n % 16 = n := by omega
  simp only [unit?, h0, ha, hb, Option.bind_eq_bind, Option.bind_some, Option.pure_def, hn]

theorem point?_escapeChar (c : Char) (rest : List Char) :
    point? (escapeChar c ++ rest) = some (c.toNat, rest) := by
  unfold escapeChar
  split
  · subst_vars; rfl
  split
  · subst_vars; rfl
  split
  · subst_vars; rfl
  split
  · subst_vars; rfl
  split
  · subst_vars; rfl
  split
  · subst_vars; rfl
  split
  · subst_vars; rfl
  split
  · next h => exact unit?_control h rest
  · next h => simp [point?, h]

theorem head?_escapeChar (c : Char) (rest : List Char) :
    (escapeChar c ++ rest).head? ≠ some '"' := by
  unfold escapeChar
  split
  · simp
  repeat' split
  all_goals simp_all

theorem body?_escape (s rest : List Char) :
    body? (escape s ++ '"' :: rest) = some (s.map Char.toNat, rest) := by
  induction s with
  | nil => rw [body?]; rfl
  | cons c s ih =>
    have e : escape (c :: s) ++ '"' :: rest = escapeChar c ++ (escape s ++ '"' :: rest) := by
      simp [escape]
    rw [e, body?, if_neg (head?_escapeChar c _)]
    split
    · next u rest' hu =>
      rw [point?_escapeChar] at hu
      simp only [Option.some.injEq, Prod.mk.injEq] at hu
      obtain ⟨rfl, rfl⟩ := hu
      simp [ih]
    · next hu => simp [point?_escapeChar] at hu

theorem not_isSurrogate (c : Char) :
    isHighSurrogate c.toNat = false ∧ isLowSurrogate c.toNat = false := by
  have h : c.toNat < 0xD800 ∨ 0xDFFF < c.toNat ∧ c.toNat < 0x110000 := c.valid
  simp only [isHighSurrogate, isLowSurrogate, decide_eq_false_iff_not]
  omega

theorem characters?_toNat (s : List Char) : characters? (s.map Char.toNat) = some s := by
  induction s with
  | nil => rfl
  | cons c s ih =>
    obtain ⟨hh, hl⟩ := not_isSurrogate c
    rw [List.map_cons, characters?.eq_def]
    simp [hh, hl, ih]

end TensorKernels.JsonText
