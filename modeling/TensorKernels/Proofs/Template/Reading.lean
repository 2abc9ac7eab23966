import Mathlib.Data.List.Infix
import TensorKernels.Template

set_option autoImplicit false

namespace TensorKernels

def Piece.chars : Piece → List Char
  | .text t => t.toList
  | .directive d => d.display.toList

namespace Template

/-- Text that neither holds a delimiter nor makes one together with what comes after it. -/
def Apart (cs : List Char) : Prop := ¬ delimiter <:+: cs ∧ cs.getLast? ≠ some '%'

theorem cut?_cons {c : Char} {cs : List Char} (h : ∀ rest, c = '%' → cs = '%' :: rest → False) :
    cut? (c :: cs) = (cut? cs).map fun (a, b) => (c :: a, b) := by
  rw [cut?]
  exact h

theorem apart_nil : Apart [] := ⟨by simp [delimiter], by simp⟩

theorem apart_of_notMem {cs : List Char} (h : '%' ∉ cs) : Apart cs := by
  refine ⟨fun hi => h ?_, fun hl => h (List.mem_of_getLast? hl)⟩
  exact hi.subset List.mem_cons_self

theorem apart_of_cons {c : Char} {cs : List Char} (h : Apart (c :: cs)) : Apart cs := by
  refine ⟨fun hi => h.1 (hi.trans (List.suffix_cons c cs).isInfix), fun hl => h.2 ?_⟩
  cases cs with
  | nil => simp at hl
  | cons d ds => rwa [List.getLast?_cons_cons]

theorem cut?_append {a : List Char} (ha : Apart a) (b : List Char) :
    cut? (a ++ b) = (cut? b).map fun (x, y) => (a ++ x, y) := by
  induction a with
  | nil => simp
  | cons c a ih =>
    have hstep : ∀ rest, c = '%' → a ++ b = '%' :: rest → False := by
      rintro rest rfl e
      cases a with
      | nil => exact ha.2 rfl
      | cons d ds =>
        rw [List.cons_append, List.cons.injEq] at e
        exact ha.1 ⟨[], ds, by rw [e.1]; rfl⟩
    rw [List.cons_append, cut?_cons hstep, ih (apart_of_cons ha), Option.map_map]
    rfl

theorem cut?_delimiter {a : List Char} (ha : Apart a) (b : List Char) :
    cut? (a ++ '%' :: '%' :: b) = some (a, b) := by
  rw [cut?_append ha, cut?, Option.map_some]
  exact congrArg (fun x => some (x, b)) (List.append_nil a)

theorem not_infix_append {a b : List Char} (ha : Apart a) (hb : ¬ delimiter <:+: b) :
    ¬ delimiter <:+: a ++ b := by
  rw [← cut?_eq_none_iff, cut?_append ha, cut?_eq_none_iff.2 hb]
  rfl

theorem Apart.append {a b : List Char} (ha : Apart a) (hb : Apart b) : Apart (a ++ b) := by
  refine ⟨not_infix_append ha hb.1, ?_⟩
  have hlast := hb.2
  rw [List.getLast?_append]
  cases h : b.getLast? with
  | none => exact ha.2
  | some c => rwa [h] at hlast

theorem notMem_of_isKey {cs : List Char} (h : isKey cs = true) : '%' ∉ cs := by
  intro hmem
  simp only [isKey, Bool.and_eq_true, List.all_eq_true] at h
  exact absurd (h.2 _ hmem) (by decide)

theorem notMem_digits {c : Char} (hc : c.isDigit = false) (n : Nat) : c ∉ Nat.toDigits 10 n := by
  intro hmem
  have hdigit := Nat.isDigit_of_mem_toDigits (by decide) (by decide) hmem
  rw [hc] at hdigit
  cases hdigit

@[simp] theorem notMem_toDigits (n : Nat) : '%' ∉ Nat.toDigits 10 n := notMem_digits rfl n

theorem notMem_body {d : Directive} (hd : d.Valid) : '%' ∉ d.body.toList := by
  cases d with
  | entryName => decide
  | slot s => cases s <;> decide
  | load key =>
    have hkey := notMem_of_isKey (hd key rfl)
    simp [Directive.body, hkey]

theorem toList_body_load (key : String) :
    (Directive.load key).body.toList = "LOAD_BUFFER(".toList ++ (key.toList ++ [')']) := by
  simp [Directive.body]

theorem loadArgument?_body (key : String) :
    loadArgument? (Directive.load key).body.toList = some key.toList := by
  have hp : "LOAD_BUFFER(".toList.isPrefixOf? ("LOAD_BUFFER(".toList ++ (key.toList ++ [')'])) =
      some (key.toList ++ [')']) := List.isPrefixOf?_eq_some_iff_append_eq.2 rfl
  have hs : [')'].isSuffixOf? (key.toList ++ [')']) = some key.toList :=
    List.isSuffixOf?_eq_some_iff_append_eq.2 rfl
  rw [loadArgument?, toList_body_load, hp, Option.bind_eq_bind, Option.bind_some, hs]

theorem ofPlaceholder?_body_load (key : String) :
    Slot.ofPlaceholder? (Directive.load key).body = none := by
  rw [Slot.ofPlaceholder?, List.find?_eq_none]
  intro s _ h
  have e := congrArg (fun text => text.toList.head?) (of_decide_eq_true h)
  simp only [toList_body_load] at e
  cases s <;> exact absurd e (by simp [Slot.placeholder])

theorem directive_body {d : Directive} (hd : d.Valid) : directive d.body.toList = .ok d := by
  cases d with
  | entryName => rfl
  | slot s => cases s <;> rfl
  | load key =>
    have hname : (Directive.load key).body.toList ≠ Directive.entryName.body.toList := by
      rw [toList_body_load]
      intro e
      simpa [Directive.body] using congrArg List.head? e
    rw [directive, if_neg hname, String.ofList_toList, ofPlaceholder?_body_load, loadArgument?_body]
    simp [hd key rfl]

theorem toList_source_cons (p : Piece) (t : Template) :
    (source (p :: t)).toList = p.chars ++ (source t).toList := by
  cases p <;> simp [source, Piece.chars]

theorem toList_display (d : Directive) :
    d.display.toList = '%' :: '%' :: (d.body.toList ++ ['%', '%']) := by
  simp [Directive.display]

/-- The pieces of `before` followed by the template, texts next to each other being one. -/
def merge (before : List Char) : Template → Template
  | [] => textPieces before
  | .text t :: ps => merge (before ++ t.toList) ps
  | .directive d :: ps => textPieces before ++ .directive d :: merge [] ps

/-- No text that follows `before` makes a delimiter, by itself or with its neighbours. -/
def Legible (before : List Char) : Template → Prop
  | [] => ¬ delimiter <:+: before
  | .text t :: ps => Legible (before ++ t.toList) ps
  | .directive d :: ps => Apart before ∧ d.Valid ∧ Legible [] ps

theorem scan_of_cut?_none {cs : List Char} (h : cut? cs = none) : scan cs = .ok (textPieces cs) := by
  rw [scan]
  split
  · rfl
  · next e => rw [h] at e; cases e

theorem scan_of_cut?_some {cs before after body rest : List Char} (h : cut? cs = some (before, after))
    (h' : cut? after = some (body, rest)) :
    scan cs = (do
      let d ← directive body
      let ps ← scan rest
      return textPieces before ++ .directive d :: ps) := by
  rw [scan]
  split
  · next e => rw [h] at e; cases e
  · next e =>
    rw [h, Option.some_inj, Prod.mk.injEq] at e
    obtain ⟨rfl, rfl⟩ := e
    split
    · next e => rw [h'] at e; cases e
    · next e =>
      rw [h', Option.some_inj, Prod.mk.injEq] at e
      obtain ⟨rfl, rfl⟩ := e
      rfl

theorem scan_source {t : Template} {before : List Char} (ht : Legible before t) :
    scan (before ++ (source t).toList) = .ok (merge before t) := by
  -- on the pieces; `before` is the text since the last directive
  induction t generalizing before with
  | nil =>
    rw [show before ++ (source []).toList = before from List.append_nil before]
    exact scan_of_cut?_none (cut?_eq_none_iff.2 ht)
  | cons p t ih =>
    cases p with
    | text s =>
      rw [toList_source_cons, ← List.append_assoc]
      exact ih ht
    | directive d =>
      obtain ⟨hb, hd, ht⟩ := ht
      have hopen := cut?_delimiter hb (d.body.toList ++ '%' :: '%' :: (source t).toList)
      have hclose := cut?_delimiter (apart_of_notMem (notMem_body hd)) (source t).toList
      have hrest : scan (source t).toList = .ok (merge [] t) := ih ht
      calc scan (before ++ (source (.directive d :: t)).toList)
        _ = scan (before ++ '%' :: '%' :: (d.body.toList ++ '%' :: '%' :: (source t).toList)) := by
          rw [toList_source_cons, Piece.chars, toList_display, List.cons_append, List.cons_append,
            List.append_assoc]
          rfl
        _ = .ok (merge before (.directive d :: t)) := by
          rw [scan_of_cut?_some hopen hclose, directive_body hd, hrest]
          rfl

theorem parse_source {t : Template} (ht : Legible [] t) : parse (source t) = .ok (merge [] t) := by
  have hs := scan_source ht
  rw [List.nil_append] at hs
  rw [parse, hs]
  rfl

section

variable {ε : Type} (resolve : Directive → Except ε String)

theorem render_text_cons (s : String) (t : Template) :
    render resolve (.text s :: t) = (render resolve t).map (s ++ ·) := by
  rw [render]
  cases render resolve t <;> rfl

theorem render_textPieces (cs : List Char) (t : Template) :
    render resolve (textPieces cs ++ t) = (render resolve t).map (String.ofList cs ++ ·) := by
  unfold textPieces
  split
  · next h =>
    subst h
    cases h : render resolve t <;> simp [h, Except.map]
  · exact render_text_cons resolve _ t

theorem render_merge (t : Template) (before : List Char) :
    render resolve (merge before t) = (render resolve t).map (String.ofList before ++ ·) := by
  induction t generalizing before with
  | nil => rw [merge, ← render_textPieces, List.append_nil]
  | cons p t ih =>
    cases p with
    | text s =>
      rw [merge, ih, render_text_cons]
      cases render resolve t <;> simp [Except.map, String.append_assoc]
    | directive d =>
      rw [merge, render_textPieces]
      have hmerge : render resolve (merge [] t) = render resolve t := by
        rw [ih]
        cases render resolve t <;> simp [Except.map]
      rw [render, render, hmerge]

end

end Template

end TensorKernels
