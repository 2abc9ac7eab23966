import TensorKernels.Lowering
import TensorKernels.Metadata
import TensorKernels.Proofs.Template.Reading

set_option autoImplicit false

namespace TensorKernels

def Directive.written (name : String) (load : String → String) : Directive → String
  | .entryName => name
  | .slot s => s.ident
  | .load key => load key

def Directive.buffered? (load : String → String) : Directive → Option String
  | .entryName => none
  | .slot s => some s.ident
  | .load key => some (load key)

def Piece.textWith (value : Directive → String) : Piece → String
  | .text t => t
  | .directive d => value d

namespace Template

def textWith (value : Directive → String) (t : Template) : String :=
  String.join (t.map (Piece.textWith value))

theorem textWith_cons (value : Directive → String) (p : Piece) (t : Template) :
    textWith value (p :: t) = p.textWith value ++ textWith value t := by
  simp [textWith]

theorem render_eq_textWith {ε : Type} {resolve : Directive → Except ε String}
    {value : Directive → String} {t : Template}
    (h : ∀ d, .directive d ∈ t → resolve d = .ok (value d)) :
    render resolve t = .ok (textWith value t) := by
  induction t with
  | nil => rfl
  | cons p t ih =>
    have ht := ih fun d hd => h d (List.mem_cons_of_mem p hd)
    cases p with
    | text s =>
      rw [render_text_cons, ht, textWith_cons]
      rfl
    | directive d =>
      rw [render, h d List.mem_cons_self, ht, textWith_cons]
      rfl

def fill (value? : Directive → Option String) (t : Template) : Template :=
  t.map fun
    | .text s => .text s
    | .directive d => ((value? d).map Piece.text).getD (.directive d)

theorem textWith_fill (value? : Directive → Option String) (value : Directive → String)
    (t : Template) :
    textWith value (fill value? t) = textWith (fun d => (value? d).getD (value d)) t := by
  induction t with
  | nil => rfl
  | cons p t ih =>
    rw [fill, List.map_cons, textWith_cons, textWith_cons, ← fill, ih]
    cases p with
    | text s => rfl
    | directive d => cases h : value? d <;> simp [Piece.textWith, h]

theorem eq_none_of_mem_fill {value? : Directive → Option String} {t : Template} {d : Directive}
    (h : .directive d ∈ fill value? t) : value? d = none := by
  obtain ⟨p, -, hp⟩ := List.mem_map.1 h
  cases p with
  | text s => cases hp
  | directive e =>
    cases he : value? e with
    | none =>
      simp only [he, Option.map_none, Option.getD_none, Piece.directive.injEq] at hp
      exact hp ▸ he
    | some v => simp [he] at hp

theorem source_eq_textWith (t : Template) : source t = textWith Directive.display t := rfl

/-- Texts without percent signs in the place of directives make no delimiter. -/
theorem legible_fill {value? : Directive → Option String}
    (hv : ∀ d v, value? d = some v → '%' ∉ v.toList) {t : Template} {before kept : List Char}
    (hk : Apart kept) (ht : Legible before t) : Legible (kept ++ before) (fill value? t) := by
  -- `kept` ends with the last text that took the place of a directive
  induction t generalizing before kept with
  | nil => exact not_infix_append hk ht
  | cons p t ih =>
    cases p with
    | text s =>
      change Legible (kept ++ before ++ s.toList) (fill value? t)
      rw [List.append_assoc]
      exact ih hk ht
    | directive d =>
      obtain ⟨hb, hd, ht⟩ := ht
      have hkb := hk.append hb
      cases hvd : value? d with
      | none =>
        have hrest : Legible [] (fill value? t) := ih apart_nil ht
        simpa [fill, hvd, Legible] using ⟨hkb, hd, hrest⟩
      | some v =>
        have hrest := ih (hkb.append (apart_of_notMem (hv d v hvd))) ht
        rw [List.append_nil] at hrest
        simpa [fill, hvd, Legible] using hrest

/-- The text after the first pass, the name of the entry point still to come. -/
def buffered (load : String → String) (t : Template) : String :=
  source (fill (Directive.buffered? load) t)

def written (name : String) (load : String → String) (t : Template) : String :=
  textWith (Directive.written name load) t

end Template

open Template

theorem Injector.inject_eq {s : Injector} {text : String} {t : Template} {load : String → String}
    (hp : parse text = .ok (merge [] t))
    (hload : ∀ key, .directive (.load key) ∈ t → s.registry.load key = .ok (load key)) :
    (s.inject text).1 = .ok (buffered load t) := by
  have hr : render s.registry.resolve t = .ok (buffered load t) := by
    rw [buffered, source_eq_textWith, textWith_fill]
    apply render_eq_textWith
    intro d hd
    cases d with
    | entryName => rfl
    | slot _ => rfl
    | load key => exact hload key hd
  have hm : render s.registry.resolve (merge [] t) = .ok (buffered load t) := by
    rw [render_merge, hr]
    simp [Except.map]
  simp only [inject, hp, hm]

theorem injectName_buffered {t : Template} (name : String) {load : String → String}
    (hload : ∀ key, '%' ∉ (load key).toList) (ht : Legible [] t) :
    injectName name (buffered load t) = .ok (written name load t) := by
  have hlegible : Legible [] (fill (Directive.buffered? load) t) := by
    refine legible_fill (fun d v hv => ?_) apart_nil ht
    cases d with
    | entryName => cases hv
    | slot s =>
      cases hv
      cases s <;> decide
    | load key =>
      cases hv
      exact hload key
  have hname : ∀ d, .directive d ∈ fill (Directive.buffered? load) t →
      resolveName name d = .ok name := by
    intro d hd
    have hnone := eq_none_of_mem_fill hd
    cases d with
    | entryName => rfl
    | slot _ => cases hnone
    | load _ => cases hnone
  have hvalue : (fun d => (Directive.buffered? load d).getD name) = Directive.written name load := by
    funext d
    cases d <;> rfl
  have hr := render_eq_textWith hname
  rw [textWith_fill, hvalue, ← written] at hr
  rw [injectName, buffered, parse_source hlegible]
  change render (resolveName name) (merge [] (fill (Directive.buffered? load) t)) = _
  rw [render_merge, hr]
  simp [Except.map]

end TensorKernels
