import Mathlib.Algebra.Group.Nat.Defs
import Mathlib.Data.List.DropRight
import TensorKernels.Diagnostic
import TensorKernels.Proofs.Text

set_option autoImplicit false

namespace TensorKernels

namespace Text

/-- One more than the line feeds before the byte `i`. -/
def lineOf (bytes : List UInt8) (i : Nat) : Nat := (bytes.take i).count 10 + 1

/-- One more than the bytes from the start of the line to the byte `i`. -/
def columnOf (bytes : List UInt8) (i : Nat) : Nat :=
  ((bytes.take i).rtakeWhile (· ≠ 10)).length + 1

variable {body : List UInt8} {i : Nat}

theorem lineOf_first (hbody : 10 ∉ body) (hi : i ≤ body.length) (rest : List UInt8) :
    lineOf (body ++ rest) i = 1 := by
  have hcount : (body.take i).count 10 = 0 :=
    List.count_eq_zero.2 fun h => hbody (List.mem_of_mem_take h)
  rw [lineOf, List.take_append_of_le_length hi, hcount]

theorem columnOf_first (hbody : 10 ∉ body) (hi : i ≤ body.length) (rest : List UInt8) :
    columnOf (body ++ rest) i = i + 1 := by
  have hall : ∀ b ∈ body.take i, decide (b ≠ 10) = true := fun b hb =>
    decide_eq_true fun e => hbody (e ▸ List.mem_of_mem_take hb)
  rw [columnOf, List.take_append_of_le_length hi, List.rtakeWhile_eq_self_iff.2 hall,
    List.length_take, Nat.min_eq_left hi]

theorem take_later (body rest : List UInt8) (i : Nat) :
    (body ++ 10 :: rest).take (body.length + (i + 1)) = body ++ 10 :: rest.take i := by
  rw [List.take_length_add_append, List.take_succ_cons]

theorem lineOf_later (hbody : 10 ∉ body) (rest : List UInt8) (i : Nat) :
    lineOf (body ++ 10 :: rest) (body.length + (i + 1)) = lineOf rest i + 1 := by
  have hcount : (body ++ 10 :: rest.take i).count 10 = (rest.take i).count 10 + 1 := by
    calc (body ++ 10 :: rest.take i).count 10
      _ = body.count 10 + (10 :: rest.take i).count 10 := List.count_append
      _ = 0 + ((rest.take i).count 10 + 1) := by
        rw [List.count_eq_zero.2 hbody, List.count_cons_self]
      _ = (rest.take i).count 10 + 1 := Nat.zero_add _
  rw [lineOf, take_later, hcount, lineOf]

theorem columnOf_later (body rest : List UInt8) (i : Nat) :
    columnOf (body ++ 10 :: rest) (body.length + (i + 1)) = columnOf rest i := by
  have hreverse : (body ++ 10 :: rest.take i).reverse =
      (rest.take i).reverse ++ 10 :: body.reverse := by
    rw [List.reverse_append, List.reverse_cons, List.append_assoc, List.singleton_append]
  rw [columnOf, take_later, columnOf, List.rtakeWhile, List.rtakeWhile, hreverse, takeWhile_mark]

end Text

namespace Span

/-- How a text falls into lines: every line but the last one ends in a line feed. -/
inductive Lines : List Char → List (List Char) → Prop
  | nil : Lines [] []
  | last {body : List Char} : body ≠ [] → '\n' ∉ body → Lines body [body]
  | line {body rest : List Char} {ls : List (List Char)} : '\n' ∉ body → Lines rest ls →
    Lines (body ++ '\n' :: rest) ((body ++ ['\n']) :: ls)

theorem lines_linesWithEnds (cs : List Char) : Lines cs (linesWithEnds cs) := by
  induction cs with
  | nil => exact .nil
  | cons c cs ih =>
    rw [linesWithEnds]
    split
    · next hc =>
      rw [hc]
      exact .line List.not_mem_nil ih
    · next hc =>
      have hmem {body : List Char} (h : '\n' ∉ body) : '\n' ∉ c :: body :=
        fun hmem => (List.mem_cons.1 hmem).elim (fun e => hc e.symm) h
      generalize linesWithEnds cs = ls at ih ⊢
      cases ih with
      | nil => exact .last (List.cons_ne_nil c []) (hmem List.not_mem_nil)
      | last _ hbody => exact .last (List.cons_ne_nil c _) (hmem hbody)
      | line hbody hrest => exact .line (hmem hbody) hrest

def bytes (cs : List Char) : List UInt8 := cs.flatMap String.utf8EncodeChar

theorem length_bytes (cs : List Char) : (bytes cs).length = byteLength cs := by
  induction cs with
  | nil => rfl
  | cons c cs ih =>
    calc (bytes (c :: cs)).length
      _ = (String.utf8EncodeChar c).length + (bytes cs).length := by
        rw [bytes, List.flatMap_cons, List.length_append, bytes]
      _ = c.utf8Size + byteLength cs := by rw [String.length_utf8EncodeChar, ih]

theorem notMem_bytes {body : List Char} (h : '\n' ∉ body) : 10 ∉ bytes body := by
  intro hmem
  obtain ⟨c, hc, hb⟩ := List.mem_flatMap.1 hmem
  have hnat := Text.toNat_of_mem_utf8EncodeChar hb (by decide)
  have hfeed : c = '\n' := Char.toNat_inj.1 hnat
  exact h (hfeed ▸ hc)

theorem bytes_line (body rest : List Char) :
    bytes (body ++ '\n' :: rest) = bytes body ++ 10 :: bytes rest := by
  rw [bytes, List.flatMap_append, List.flatMap_cons]
  rfl

theorem locate_lineOf {cs : List Char} {ls : List (List Char)} (h : Lines cs ls) {i : Nat}
    (hi : i < byteLength cs) (passed offset : Nat) :
    locate (passed + Text.lineOf (bytes cs) i) (Text.columnOf (bytes cs) i) ls (passed + 1) offset =
      some (offset + i) := by
  -- the line of the byte comes up when the lines before it are passed, and within it the column is not
  -- too large
  induction h generalizing i passed offset with
  | nil => exact absurd hi (Nat.not_lt_zero i)
  | @last body _ hbody =>
    have hlength : i ≤ (bytes body).length := by
      rw [length_bytes]
      exact Nat.le_of_lt hi
    have hline := Text.lineOf_first (notMem_bytes hbody) hlength []
    have hcolumn := Text.columnOf_first (notMem_bytes hbody) hlength []
    rw [List.append_nil] at hline hcolumn
    rw [hline, hcolumn, locate, if_pos rfl, Nat.add_sub_cancel, Nat.min_eq_left (Nat.le_of_lt hi)]
  | @line body rest ls hbody _ ih =>
    have hfeed := notMem_bytes hbody
    have hlength := length_bytes body
    have hends : byteLength (body ++ ['\n']) = byteLength body + 1 := byteLength_append body ['\n']
    rw [bytes_line, locate, hends]
    rcases Nat.lt_or_ge (byteLength body) i with hlater | hfirst
    · -- the byte `j` of the rest
      obtain ⟨j, rfl⟩ := Nat.exists_eq_add_of_lt hlater
      have hj : j < byteLength rest := by
        have htotal := length_bytes (body ++ '\n' :: rest)
        rw [bytes_line, List.length_append, List.length_cons, hlength, length_bytes] at htotal
        omega
      have hpos : 0 < Text.lineOf (bytes rest) j := Nat.succ_pos _
      rw [Nat.add_assoc (byteLength body), ← hlength, Text.lineOf_later hfeed, Text.columnOf_later,
        hlength, if_neg (by omega)]
      have hnext := ih hj (passed + 1) (offset + (byteLength body + 1))
      have hline : passed + 1 + Text.lineOf (bytes rest) j =
          passed + (Text.lineOf (bytes rest) j + 1) := by omega
      rw [hline] at hnext
      rw [hnext, Option.some_inj]
      omega
    · rw [Text.lineOf_first hfeed (by omega), Text.columnOf_first hfeed (by omega), if_pos rfl,
        Nat.add_sub_cancel, Nat.min_eq_left (by omega)]

theorem locate_le {line column : Nat} {ls : List (List Char)} {current offset o : Nat}
    (h : locate line column ls current offset = some o) : o ≤ offset + byteLength ls.flatten := by
  induction ls generalizing current offset with
  | nil => cases h
  | cons l ls ih =>
    rw [locate] at h
    rw [List.flatten_cons, byteLength_append]
    split at h
    · have hmin := Nat.min_le_right (column - 1) (byteLength l)
      cases h
      omega
    · have hle := ih h
      omega

theorem byteLength_toList (source : String) : byteLength source.toList = source.utf8ByteSize := by
  calc byteLength source.toList
    _ = (bytes source.toList).length := (length_bytes source.toList).symm
    _ = source.toUTF8.toList.length := by rw [bytes, Text.utf8_eq_flatMap]
    _ = source.toUTF8.data.toList.length := by rw [Text.toList_eq_data]
    _ = source.utf8ByteSize := rfl

theorem kept_of_le {n total : Nat} (hn : n ≤ total) (htotal : total < 2 ^ 32) : kept n = n := by
  have hlt : n < 4294967296 := Nat.lt_of_le_of_lt hn htotal
  exact Nat.mod_eq_of_lt hlt

/-- The span at a place is a byte of the text or its end, and the place of a byte has the span of this
byte. -/
structure Places (source : String) : Prop where
  ordered : ∀ line column,
    (atLineColumn source line column).start ≤ (atLineColumn source line column).stop
  inside : ∀ line column, (atLineColumn source line column).stop ≤ source.utf8ByteSize
  narrow : ∀ line column,
    (atLineColumn source line column).stop - (atLineColumn source line column).start ≤ 1
  isDummy_iff : ∀ line column, (atLineColumn source line column).isDummy = true ↔ source = ""
  inverse : ∀ i < source.utf8ByteSize, atLineColumn source (Text.lineOf source.toUTF8.toList i)
    (Text.columnOf source.toUTF8.toList i) = ⟨i, i + 1⟩

section

variable {source : String}

/-- Where there is no such line, the offset is that of the last byte. -/
theorem exists_atLineColumn_eq (h : source.utf8ByteSize < 2 ^ 32) (line column : Nat) :
    ∃ offset ≤ source.utf8ByteSize,
      atLineColumn source line column = ⟨offset, min (offset + 1) source.utf8ByteSize⟩ ∧
        ∀ o, locate line column (linesWithEnds source.toList) 1 0 = some o → o = offset := by
  unfold atLineColumn
  rw [byteLength_toList]
  cases hl : locate line column (linesWithEnds source.toList) 1 0 with
  | none =>
    refine ⟨source.utf8ByteSize - 1, Nat.sub_le _ 1, ?_, fun o ho => by cases ho⟩
    simp only [kept_of_le (Nat.le_refl _) h, mk.injEq, true_and]
    omega
  | some offset =>
    have hle := locate_le hl
    rw [flatten_linesWithEnds, byteLength_toList, Nat.zero_add] at hle
    refine ⟨offset, hle, ?_, fun o ho => (Option.some.inj ho).symm⟩
    simp only [kept_of_le hle h, kept_of_le (Nat.min_le_right _ _) h]

theorem atLineColumn_byte (h : source.utf8ByteSize < 2 ^ 32) {i : Nat} (hi : i < source.utf8ByteSize) :
    atLineColumn source (Text.lineOf source.toUTF8.toList i)
      (Text.columnOf source.toUTF8.toList i) = ⟨i, i + 1⟩ := by
  have hbyte : i < byteLength source.toList := by rwa [byteLength_toList]
  have hlocate := locate_lineOf (lines_linesWithEnds source.toList) hbyte 0 0
  rw [Nat.zero_add, Nat.zero_add, Nat.zero_add, bytes, ← Text.utf8_eq_flatMap] at hlocate
  obtain ⟨offset, -, hspan, hfound⟩ := exists_atLineColumn_eq h (Text.lineOf source.toUTF8.toList i)
    (Text.columnOf source.toUTF8.toList i)
  obtain rfl := hfound i hlocate
  rw [hspan, Nat.min_eq_left hi]

/-- A span at a line and a column, which may be any numbers, holds the byte that is there, or one at
the end; it is the span of what has no place only in an empty text. -/
theorem atLineColumn_places (h : source.utf8ByteSize < 2 ^ 32) : Places source := by
  have hspan := exists_atLineColumn_eq h
  refine ⟨fun line column => ?_, fun line column => ?_, fun line column => ?_,
    fun line column => ?_, fun i hi => atLineColumn_byte h hi⟩
  all_goals
    obtain ⟨offset, hle, hs, -⟩ := hspan line column
    rw [hs]
  · exact Nat.le_min.2 ⟨Nat.le_succ offset, hle⟩
  · exact Nat.min_le_right _ _
  · exact Nat.sub_le_of_le_add (Nat.le_trans (Nat.min_le_left _ _) (Nat.le_of_eq (Nat.add_comm _ _)))
  · rw [← String.utf8ByteSize_eq_zero_iff, isDummy, Bool.and_eq_true, beq_iff_eq, beq_iff_eq]
    change (offset = 0 ∧ min (offset + 1) source.utf8ByteSize = 0) ↔ _
    omega

end

/-- The second byte of the first line is in the middle of a character, and the second line is empty. -/
theorem atLineColumn_places_two_byte_character :
    "é\n\nx".utf8ByteSize < 2 ^ 32 ∧ atLineColumn "é\n\nx" 1 2 = ⟨1, 2⟩ ∧
      atLineColumn "é\n\nx" 2 1 = ⟨3, 4⟩ ∧ (atLineColumn "é\n\nx" 0 7).isDummy = false ∧
      (atLineColumn "é\n\nx" 2 (2 ^ 63)).stop ≤ 5 := by
  have h : "é\n\nx".utf8ByteSize < 2 ^ 32 := by decide +kernel
  have hbytes : "é\n\nx".toUTF8.toList = [195, 169, 10, 10, 120] := by
    rw [Text.utf8_eq_flatMap]
    decide +kernel
  obtain ⟨-, hinside, -, hdummy, hinverse⟩ := atLineColumn_places h
  rw [hbytes] at hinverse
  refine ⟨h, hinverse 1 (by decide +kernel), hinverse 3 (by decide +kernel), ?_, hinside 2 (2 ^ 63)⟩
  exact Bool.eq_false_iff.2 fun hd => absurd ((hdummy 0 7).1 hd) (by decide)

end Span

end TensorKernels
