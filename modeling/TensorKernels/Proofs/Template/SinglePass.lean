import TensorKernels.Proofs.Lowering.Outcome
import TensorKernels.Proofs.Metadata.Cells
import TensorKernels.Proofs.Template.NormalForm
import TensorKernels.Proofs.Template.Passes

set_option autoImplicit false

namespace TensorKernels

namespace Template

variable {ε : Type} {resolve : Directive → Except ε String}

theorem resolved_of_render {t : Template} {out : String} (h : render resolve t = .ok out) :
    ∀ d, .directive d ∈ t → ∃ value, resolve d = .ok value := by
  induction t generalizing out with
  | nil => simp
  | cons p t ih =>
    cases p with
    | text s =>
      obtain ⟨rest, hrest, -⟩ := bind_eq_ok h
      simpa using ih hrest
    | directive d =>
      obtain ⟨value, hvalue, h⟩ := bind_eq_ok h
      obtain ⟨rest, hrest, -⟩ := bind_eq_ok h
      intro e he
      rcases List.mem_cons.1 he with heq | he
      · cases heq
        exact ⟨value, hvalue⟩
      · exact ih hrest e he

theorem not_infix_source {t : Template} {before : List Char} (ht : Legible before t)
    (hno : ∀ d, .directive d ∉ t) : ¬ delimiter <:+: before ++ (source t).toList := by
  induction t generalizing before with
  | nil =>
    rw [show (source []).toList = [] from rfl, List.append_nil]
    exact ht
  | cons p t ih =>
    cases p with
    | text s =>
      rw [toList_source_cons, ← List.append_assoc]
      exact ih ht fun d hd => hno d (List.mem_cons_of_mem _ hd)
    | directive d => exact absurd List.mem_cons_self (hno d)

theorem not_infix_textWith {t : Template} (ht : Legible [] t) {value : Directive → String}
    (hv : ∀ d, '%' ∉ (value d).toList) : ¬ delimiter <:+: (textWith value t).toList := by
  have hlegible : Legible [] (fill (fun d => some (value d)) t) :=
    legible_fill (fun d v h => Option.some_inj.1 h ▸ hv d) apart_nil ht
  have hno : ∀ d, .directive d ∉ fill (fun d => some (value d)) t := by
    intro d hd
    cases eq_none_of_mem_fill hd
  have htext : textWith value t = source (fill (fun d => some (value d)) t) := by
    rw [source_eq_textWith, textWith_fill]
    rfl
  rw [htext]
  exact not_infix_source hlegible hno

end Template

open Template

namespace Registry

/-- What one pass would put for each directive. -/
def resolveNamed (r : Registry) (name : String) : Directive → Except LoweringError String
  | .entryName => .ok name
  | .slot s => .ok s.ident
  | .load key => r.load key

theorem eq_loadText_of_load {r : Registry} {key value : String} (h : r.load key = .ok value) :
    value = r.loadText key := by
  unfold load at h
  unfold loadText
  cases hp : r.find? key with
  | none => rw [hp] at h; cases h
  | some p =>
    rw [hp] at h
    cases h
    rfl

end Registry

theorem Operator.notMem_entryName (op : Operator) : '%' ∉ op.entryName.toList := by
  have htag : '%' ∉ op.kind.tag.toList := by cases op.kind <;> decide
  simp [toList_entryName, htag]

theorem Injector.inject_ok {s : Injector} {text buffered : String}
    (h : (s.inject text).1 = .ok buffered) :
    ∃ t, parse text = .ok t ∧ t.render s.registry.resolve = .ok buffered := by
  unfold inject at h
  cases hp : parse text with
  | error e => simp [hp] at h
  | ok t =>
    cases hr : t.render s.registry.resolve with
    | error e => simp [hp, hr] at h
    | ok source =>
      simp only [hp, hr, Except.ok.injEq] at h
      exact ⟨t, rfl, h ▸ hr⟩

theorem injectName_inject (s : Injector) (op : Operator) {text buffered : String}
    (h : (s.inject text).1 = .ok buffered) :
    ∃ t out, parse text = .ok t ∧ t.render (s.registry.resolveNamed op.entryName) = .ok out ∧
      injectName op.entryName buffered = .ok out ∧ ¬ delimiter <:+: out.toList := by
  obtain ⟨t, hp, hr⟩ := Injector.inject_ok h
  have hnormal := (parse_eq_ok_iff.1 hp).1
  have hlegible := hnormal.legible
  have hload : ∀ key, .directive (.load key) ∈ t →
      s.registry.load key = .ok (s.registry.loadText key) := by
    intro key hkey
    obtain ⟨value, hvalue⟩ := resolved_of_render hr _ hkey
    rw [← Registry.eq_loadText_of_load hvalue]
    exact hvalue
  have hfirst : buffered = Template.buffered s.registry.loadText t := by
    have hinject := Injector.inject_eq (hp.trans (congrArg Except.ok hnormal.merge_eq.symm)) hload
    rwa [h, Except.ok.injEq] at hinject
  -- The first pass leaves the text of `t` with its slots and loads filled in, so `t` is enough to
  -- say what the second one reads.
  refine ⟨t, written op.entryName s.registry.loadText t, hp, ?_, ?_, ?_⟩
  · apply render_eq_textWith
    intro d hd
    cases d with
    | entryName => rfl
    | slot _ => rfl
    | load key => exact hload key hd
  · rw [hfirst]
    exact injectName_buffered op.entryName s.registry.notMem_loadText hlegible
  · refine not_infix_textWith hlegible fun d => ?_
    cases d with
    | entryName => exact op.notMem_entryName
    | slot s => exact Registry.notMem_ident s
    | load key => exact s.registry.notMem_loadText key

/-- A single percent sign next to a load or to the name stays a single one. -/
theorem injectName_inject_stray_percent : ∃ (s : Injector) (op : Operator),
    (s.inject "%%LOAD_BUFFER(k)%%% 2 %%FUNC_NAME%%%").1 = .ok "meta_buffer[1]% 2 %%FUNC_NAME%%%" ∧
      ∃ t out, parse "%%LOAD_BUFFER(k)%%% 2 %%FUNC_NAME%%%" = .ok t ∧
        t.render (s.registry.resolveNamed op.entryName) = .ok out ∧
        injectName op.entryName "meta_buffer[1]% 2 %%FUNC_NAME%%%" = .ok out ∧
        ¬ delimiter <:+: out.toList := by
  let op : Operator := ⟨.depth2space, 3, ⟨"x", .nhwc, [1, 1, 1, 4], rfl, by simp⟩,
    ⟨"y", .nhwc, [1, 2, 2, 1], rfl, by simp⟩, 2, by decide⟩
  let s : Injector := (Injector.empty.register [("w", .deferred "W"), ("k", .int 3)]).2
  have h : (s.inject "%%LOAD_BUFFER(k)%%% 2 %%FUNC_NAME%%%").1 =
      .ok "meta_buffer[1]% 2 %%FUNC_NAME%%%" := by decide +kernel
  exact ⟨s, op, h, injectName_inject s op h⟩

end TensorKernels
