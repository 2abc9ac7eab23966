import TensorKernels.Proofs.Metadata.RegistrationRuns
import TensorKernels.Proofs.Requirement
import TensorKernels.Proofs.Template.SinglePass

set_option autoImplicit false

namespace TensorKernels

open Template Requirement

namespace Registry

variable {r : Registry} {t : Template} {key : String}

theorem load_of_notMem (h : key ∉ r.keys) : r.load key = .error (.unknownPlaceholder key) := by
  have hnone : r.find? key = none := by
    rw [find?, List.find?_eq_none]
    intro p hp hkey
    rw [← map_key_placed] at h
    exact h (of_decide_eq_true hkey ▸ List.mem_map_of_mem hp)
  rw [load, hnone]

def registered (r : Registry) (key : String) : Requirement LoweringError where
  met := key ∈ r.keys
  fault := .unknownPlaceholder key

theorem decides_load (r : Registry) (key : String) : Decides [r.registered key] (r.load key) := by
  by_cases h : key ∈ r.keys
  · rw [load_eq h]
    exact .met h (.ok _)
  · rw [load_of_notMem h]
    exact .unmet (q := r.registered key) h []

theorem decides_render (r : Registry) (t : Template) :
    Decides ((t.filterMap Piece.key?).map r.registered) (t.render r.resolve) := by
  -- only loads can fail, and they are looked at in their order
  induction t with
  | nil => exact .ok ""
  | cons p t ih =>
    cases p with
    | text s =>
      rw [render_text_cons]
      exact ih.map (s ++ ·)
    | directive d =>
      have hrest (value : String) : Decides ((t.filterMap Piece.key?).map r.registered) (do
          let rest ← render r.resolve t
          return value ++ rest) := by
        rw [bind_pure_comp]
        exact ih.map (value ++ ·)
      cases d with
      | entryName => exact hrest _
      | slot s => exact hrest _
      | load key => exact (r.decides_load key).step fun _ value _ => hrest value

/-- The first key of the template, in the order of its text, that is not registered. -/
def FirstUnknown (r : Registry) (t : Template) (key : String) : Prop :=
  ∃ before after, t.filterMap Piece.key? = before ++ key :: after ∧
    (∀ k ∈ before, k ∈ r.keys) ∧ key ∉ r.keys

theorem render_fails_iff {e : LoweringError} : t.render r.resolve = .error e ↔
    ∃ key, r.FirstUnknown t key ∧ e = .unknownPlaceholder key := by
  rw [(r.decides_render t).eq_error_iff]
  constructor
  · rintro ⟨q, ⟨before, after, hsplit, hbefore, hq⟩, rfl⟩
    obtain ⟨earlier, rest, hkeys, rfl, hrest⟩ := List.map_eq_append_iff.1 hsplit
    obtain ⟨key, later, rfl, rfl, rfl⟩ := List.map_eq_cons_iff.1 hrest
    rw [List.forall_mem_map] at hbefore
    exact ⟨key, ⟨earlier, later, hkeys, hbefore, hq⟩, rfl⟩
  · rintro ⟨key, ⟨before, after, hkeys, hbefore, hkey⟩, rfl⟩
    refine ⟨r.registered key, ⟨before.map r.registered, after.map r.registered, ?_, ?_, hkey⟩, rfl⟩
    · rw [hkeys, List.map_append, List.map_cons]
    · exact List.forall_mem_map.2 hbefore

theorem render_succeeds_iff : (∃ source, t.render r.resolve = .ok source) ↔
    ∀ key ∈ t.loadKeys, key ∈ r.keys := by
  rw [(r.decides_render t).exists_ok_iff, List.forall_mem_map]
  simp only [loadKeys, mem_distinct]
  rfl

end Registry

/-- The warning that names a key as registered and never loaded. -/
structure Diagnostic.WarnsOf (key : String) (w : Diagnostic) : Prop where
  severity : w.severity = .warning
  message : w.message = "metadata key '" ++ key ++ "' is never loaded by the kernel"

theorem warnsOf_unusedWarning (key : String) : (unusedWarning key).WarnsOf key := ⟨rfl, rfl⟩

/-- One warning for each registered key that the template never loads, in the order of
registration. -/
def Registry.WarnsUnused (r : Registry) (t : Template) (warnings : List Diagnostic) : Prop :=
  ∃ unused : List String, unused.Sublist r.keys ∧ unused.Nodup ∧
    (∀ key, key ∈ unused ↔ key ∈ r.keys ∧ key ∉ t.loadKeys) ∧
    List.Forall₂ Diagnostic.WarnsOf unused warnings

namespace Injector

variable {s : Injector} {text : String} {t : Template} {e : LoweringError}

theorem inject_of_parse_error (h : parse text = .error e) : s.inject text = (.error e, s) := by
  rw [inject, h]

theorem inject_of_render_error (hp : parse text = .ok t)
    (hr : t.render s.registry.resolve = .error e) :
    s.inject text = (.error e, { s with warnings := [] }) := by
  rw [inject, hp]
  simp only [hr]

theorem inject_of_render_ok {source : String} (hp : parse text = .ok t)
    (hr : t.render s.registry.resolve = .ok source) :
    s.inject text = (.ok source,
      { s with warnings := (s.registry.keys.filter (· ∉ t.loadKeys)).map unusedWarning }) := by
  rw [inject, hp]
  simp only [hr]

theorem inject_eq_ok_iff {source : String} : (s.inject text).1 = .ok source ↔
    ∃ t, parse text = .ok t ∧ t.render s.registry.resolve = .ok source := by
  refine ⟨inject_ok, ?_⟩
  rintro ⟨t, hp, hr⟩
  rw [inject_of_render_ok hp hr]

theorem inject_eq_error_iff : (s.inject text).1 = .error e ↔ parse text = .error e ∨
    ∃ t key, parse text = .ok t ∧ s.registry.FirstUnknown t key ∧ e = .unknownPlaceholder key := by
  cases hp : parse text with
  | error fault => simp [inject_of_parse_error hp]
  | ok t =>
    have hfails := Registry.render_fails_iff (r := s.registry) (t := t) (e := e)
    cases hr : t.render s.registry.resolve with
    | error fault => simpa [inject_of_render_error hp hr, hr] using hfails
    | ok source => simpa [inject_of_render_ok hp hr, hr] using hfails

theorem warnsUnused_of_inject {source : String} (hp : parse text = .ok t)
    (h : (s.inject text).1 = .ok source) :
    s.registry.WarnsUnused t (s.inject text).2.warnings := by
  obtain ⟨u, hu, hr⟩ := inject_eq_ok_iff.1 h
  cases hp.symm.trans hu
  rw [inject_of_render_ok hp hr]
  refine ⟨s.registry.keys.filter (· ∉ t.loadKeys), List.filter_sublist,
    s.registry.nodup_keys.filter _, fun key => ?_, ?_⟩
  · rw [List.mem_filter, decide_eq_true_eq]
  · rw [List.forall₂_map_right_iff, List.forall₂_same]
    exact fun key _ => warnsOf_unusedWarning key

inductive Call
  | register (batch : Batch)
  | inject (text : String)
  deriving DecidableEq

def after (s : Injector) : Call → Injector
  | .register batch => (s.register batch).2
  | .inject text => (s.inject text).2

/-- The injector after these calls, whether they succeed or not. -/
def run (s : Injector) (calls : List Call) : Injector := calls.foldl after s

def Call.batch? : Call → Option Batch
  | .register batch => some batch
  | .inject _ => none

def taken (s : Injector) : Call → List Batch
  | .register batch => if (s.register batch).1.isOk then [batch] else []
  | .inject _ => []

def accepted (s : Injector) : List Call → List Batch
  | [] => []
  | c :: calls => s.taken c ++ (s.after c).accepted calls

theorem entries_after (s : Injector) (c : Call) :
    (s.after c).registry.entries = s.registry.entries ++ (s.taken c).flatten := by
  cases c with
  | inject text =>
    rw [after, registry_inject]
    exact (List.append_nil _).symm
  | register batch =>
    rw [after, taken]
    cases h : (s.register batch).1 with
    | error e =>
      rw [s.transacts.unchanged batch e h]
      exact (List.append_nil _).symm
    | ok u =>
      rw [s.transacts.appended batch h]
      exact congrArg (s.registry.entries ++ ·) (List.append_nil batch).symm

theorem entries_run (s : Injector) (calls : List Call) :
    (s.run calls).registry.entries = s.registry.entries ++ (s.accepted calls).flatten := by
  induction calls generalizing s with
  | nil => exact (List.append_nil _).symm
  | cons c calls ih =>
    calc (s.run (c :: calls)).registry.entries
      _ = (s.after c).registry.entries ++ ((s.after c).accepted calls).flatten := ih (s.after c)
      _ = s.registry.entries ++ (s.taken c).flatten ++ ((s.after c).accepted calls).flatten := by
        rw [entries_after]
      _ = s.registry.entries ++ (s.accepted (c :: calls)).flatten := by
        rw [accepted, List.flatten_append, List.append_assoc]

theorem registry_register_congr {u v : Injector} (h : u.registry = v.registry) (batch : Batch) :
    (u.register batch).2.registry = (v.register batch).2.registry := by
  unfold register
  rw [h]
  cases v.registry.register batch with
  | ok r => rfl
  | error e => exact h

theorem registry_registerAll_congr {u v : Injector} (h : u.registry = v.registry)
    (batches : List Batch) : (u.registerAll batches).registry = (v.registerAll batches).registry := by
  induction batches generalizing u v with
  | nil => exact h
  | cons batch batches ih => exact ih (registry_register_congr h batch)

theorem registry_run (s : Injector) (calls : List Call) :
    (s.run calls).registry = (s.registerAll (calls.filterMap Call.batch?)).registry := by
  induction calls generalizing s with
  | nil => rfl
  | cons c calls ih =>
    rw [run, List.foldl_cons, ← run, ih]
    cases c with
    | register batch => rfl
    | inject text => exact registry_registerAll_congr (s.registry_inject text) _

/-- After any run, a text is injected if it is a template and its keys are registered. Otherwise the
text is no template, which is reported first, or its first unknown key is reported. A successful
injection leaves one warning for each key that it does not load, whatever was left before. The
registry, and with it the cells, is what the registrations alone have made of it. -/
theorem inject_verdict (calls : List Call) (text : String) :
    let s := empty.run calls
    ((∃ source, (s.inject text).1 = .ok source) ↔
      ∃ t, parse text = .ok t ∧ ∀ key ∈ t.loadKeys, key ∈ s.registry.keys) ∧
    (∀ e, (s.inject text).1 = .error e ↔ parse text = .error e ∨
      ∃ t key, parse text = .ok t ∧ s.registry.FirstUnknown t key ∧
        e = .unknownPlaceholder key) ∧
    (∀ t source, parse text = .ok t → (s.inject text).1 = .ok source →
      s.registry.WarnsUnused t (s.inject text).2.warnings) ∧
    (s.inject text).2.registry = s.registry ∧
    s.registry = (empty.registerAll (calls.filterMap Call.batch?)).registry ∧
    s.registry.keys = (empty.accepted calls).flatten.map Prod.fst := by
  intro s
  refine ⟨?_, fun e => inject_eq_error_iff, fun t source => warnsUnused_of_inject,
    s.registry_inject text, empty.registry_run calls, ?_⟩
  · simp only [inject_eq_ok_iff, ← Registry.render_succeeds_iff]
    rw [exists_comm]
    exact exists_congr fun t => exists_and_left
  · exact congrArg (List.map Prod.fst) (empty.entries_run calls)

/-- A call that reports nothing: it injects no template. -/
def Call.Quiet : Call → Prop
  | .register _ => True
  | .inject text => ∀ t, parse text ≠ .ok t

theorem warnings_register (s : Injector) (batch : Batch) :
    (s.register batch).2.warnings = s.warnings := by
  unfold register
  cases s.registry.register batch <;> rfl

theorem warnings_after_of_quiet {c : Call} (h : c.Quiet) : (s.after c).warnings = s.warnings := by
  cases c with
  | register batch => exact s.warnings_register batch
  | inject text =>
    cases hp : parse text with
    | ok t => exact absurd hp (h t)
    | error e => rw [after, inject_of_parse_error hp]

/-- Registrations and texts that are no templates leave the warnings of the call before them. -/
theorem warnings_run_of_quiet {calls : List Call} (h : ∀ c ∈ calls, c.Quiet) :
    (s.run calls).warnings = s.warnings := by
  induction calls generalizing s with
  | nil => rfl
  | cons c calls ih =>
    rw [List.forall_mem_cons] at h
    rw [run, List.foldl_cons, ← run, ih h.2, warnings_after_of_quiet h.1]

theorem warnings_of_failure (hp : parse text = .ok t) (h : (s.inject text).1 = .error e) :
    (s.inject text).2.warnings = [] := by
  cases hr : t.render s.registry.resolve with
  | error fault => rw [inject_of_render_error hp hr]
  | ok source =>
    rw [inject_of_render_ok hp hr] at h
    cases h

section

variable {s' : Injector} (h : s.registry = s'.registry)

include h

theorem result_congr (text : String) : (s.inject text).1 = (s'.inject text).1 := by
  unfold inject
  rw [h]
  cases parse text with
  | error e => rfl
  | ok t => cases hr : t.render s'.registry.resolve <;> simp only [hr]

theorem injected_congr (hp : parse text = .ok t) : (s.inject text).2 = (s'.inject text).2 := by
  unfold inject
  rw [h, hp]

theorem warnings_eq_iff : (s.inject text).2.warnings = (s'.inject text).2.warnings ↔
    (∃ t, parse text = .ok t) ∨ s.warnings = s'.warnings := by
  cases hp : parse text with
  | ok t => simp [injected_congr h hp]
  | error e => simp [inject_of_parse_error hp]

end

theorem registry_eq_of_accepted {calls calls' : List Call}
    (h : empty.accepted calls = empty.accepted calls') :
    (empty.run calls).registry = (empty.run calls').registry := by
  apply Registry.eq_of_entries_eq
  rw [entries_run, entries_run, h]

/-- Two runs that registered the same batches inject a text with the same result, whatever else they
injected. If the text is a template, they are also left with the same warnings, and with none if it
cannot be injected. A text that is no template changes nothing, so that the warnings which stand then
are those of the last template of the run. -/
theorem inject_after_runs {calls calls' : List Call}
    (h : empty.accepted calls = empty.accepted calls') (text : String) :
    let s := empty.run calls
    let s' := empty.run calls'
    (s.inject text).1 = (s'.inject text).1 ∧
    (s.inject text).2.registry = (s'.inject text).2.registry ∧
    ((s.inject text).2.warnings = (s'.inject text).2.warnings ↔
      (∃ t, parse text = .ok t) ∨ s.warnings = s'.warnings) ∧
    (∀ t e, parse text = .ok t → (s.inject text).1 = .error e → (s.inject text).2.warnings = []) ∧
    (∀ e, parse text = .error e → (s.inject text).2 = s) ∧
    ∀ later, (∀ c ∈ later, c.Quiet) →
      ((s.inject text).2.run later).warnings = (s.inject text).2.warnings := by
  intro s s'
  have hregistry : s.registry = s'.registry := registry_eq_of_accepted h
  refine ⟨result_congr hregistry text, ?_, warnings_eq_iff hregistry,
    fun t e => warnings_of_failure, fun e hp => ?_, fun later => warnings_run_of_quiet⟩
  · rw [registry_inject, registry_inject, hregistry]
  · rw [inject_of_parse_error hp]

/-- The first run is left with a warning by a template; a batch that is refused and a text that is no
template come after it. -/
theorem inject_after_runs_failure : ∃ (calls calls' : List Call) (text : String) (t : Template)
    (e : LoweringError), empty.accepted calls = empty.accepted calls' ∧ parse text = .ok t ∧
      (empty.run calls).warnings = [unusedWarning "spare"] ∧ (empty.run calls').warnings = [] ∧
      ((empty.run calls).inject text).1 = .error e ∧
      ((empty.run calls').inject text).1 = .error e ∧
      ((empty.run calls).inject text).2.warnings = [] ∧
      ((empty.run calls').inject text).2.warnings = [] := by
  let calls : List Call := [.register [("spare", .int 1)], .inject "x = 5 % 3;",
    .register [("eps", .float 0), ("spare", .int 2)], .inject "%%LOAD_BUFFER(spare)%"]
  let calls' : List Call := [.register [("spare", .int 1)]]
  let text := "%%LOAD_BUFFER(spare)%% + %%LOAD_BUFFER(eps)%%"
  have haccepted : empty.accepted calls = empty.accepted calls' := by decide +kernel
  have hp : parse text =
      .ok [.directive (.load "spare"), .text " + ", .directive (.load "eps")] := by decide +kernel
  have hfails : ((empty.run calls').inject text).1 = .error (.unknownPlaceholder "eps") := by
    decide +kernel
  obtain ⟨hresult, -, hiff, hfailure, -⟩ := inject_after_runs haccepted text
  have hnone := hfailure _ _ hp (hresult.trans hfails)
  exact ⟨calls, calls', text, _, _, haccepted, hp, by decide +kernel, by decide +kernel,
    hresult.trans hfails, hfails, hnone, (hiff.2 (.inl ⟨_, hp⟩)).symm.trans hnone⟩

/-- A text that is no template cannot be injected, and the warning of an earlier call stands. -/
theorem stale_warnings : ∃ (calls calls' : List Call) (text : String) (e : LoweringError),
    empty.accepted calls = empty.accepted calls' ∧
      ((empty.run calls).inject text).1 = .error e ∧
      ((empty.run calls').inject text).1 = .error e ∧
      ((empty.run calls).inject text).2.warnings = [unusedWarning "spare"] ∧
      ((empty.run calls').inject text).2.warnings = [] := by
  let calls : List Call := [.register [("spare", .int 1)], .inject "x"]
  let calls' : List Call := [.register [("spare", .int 1)]]
  exact ⟨calls, calls', "%%", .malformedTemplate "unterminated placeholder near '%%'",
    by decide +kernel, by decide +kernel, by decide +kernel, by decide +kernel, by decide +kernel⟩

end Injector

end TensorKernels
