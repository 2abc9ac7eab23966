import Mathlib.Data.List.TakeWhile
import TensorKernels.Configuration
import TensorKernels.Proofs.Fallible
import TensorKernels.Proofs.Requirement

set_option autoImplicit false

namespace TensorKernels

namespace Configuration

open Requirement

namespace Setting

def Value : Setting → Type
  | target => String
  | grid => LaunchSize
  | threadgroup => LaunchSize
  | parallel => Bool

/-- The value that an assignment of this text gives to the setting. -/
def value? : (s : Setting) → List Char → Option s.Value
  | target, text => some (String.ofList (unquoted text))
  | grid, text => size? text
  | threadgroup, text => threadgroup? text
  | parallel, text => truth? text

def get : (s : Setting) → Configuration → s.Value
  | target, c => c.target
  | grid, c => c.launch.grid
  | threadgroup, c => c.launch.threadgroup
  | parallel, c => c.parallel

def put : (s : Setting) → Configuration → s.Value → Configuration
  | target, c, v => { c with target := v }
  | grid, c, v => { c with launch := { c.launch with grid := v } }
  | threadgroup, c, v => { c with launch := { c.launch with threadgroup := v } }
  | parallel, c, v => { c with parallel := v }

def invalid : Setting → List Char → ConfigurationError
  | target, text => .unknownTarget (String.ofList (unquoted text))
  | grid, text => .invalidGrid (String.ofList text)
  | threadgroup, text => .invalidThreadgroup (String.ofList text)
  | parallel, text => .invalidParallel (String.ofList text)

theorem get_put (s : Setting) (c : Configuration) (v : s.Value) : s.get (s.put c v) = v := by
  cases s <;> rfl

theorem get_put_ne {s t : Setting} (h : t ≠ s) (c : Configuration) (v : s.Value) :
    t.get (s.put c v) = t.get c := by
  cases s <;> cases t <;> first | rfl | exact absurd rfl h

theorem eq_of_get {c c' : Configuration} (h : ∀ s : Setting, s.get c = s.get c') : c = c' := by
  obtain ⟨target, ⟨grid, threadgroup⟩, parallel⟩ := c
  obtain ⟨target', ⟨grid', threadgroup'⟩, parallel'⟩ := c'
  cases (h .target : target = target')
  cases (h .grid : grid = grid')
  cases (h .threadgroup : threadgroup = threadgroup')
  cases (h .parallel : parallel = parallel')
  rfl

end Setting

theorem assign_eq (c : Configuration) (text : List Char) (s : Setting) : assign c text s =
    match s.value? text with
    | some v => .ok (s.put c v)
    | none => .error (s.invalid text) := by
  cases s with
  | target => rfl
  | grid =>
    rw [assign, Setting.value?]
    cases size? text <;> rfl
  | threadgroup =>
    rw [assign, Setting.value?]
    cases threadgroup? text <;> rfl
  | parallel =>
    rw [assign, Setting.value?]
    cases truth? text <;> rfl

section

variable {cs : List Char} {line : Line}

def Bracketed (cs : List Char) : Prop := ∃ inner, cs = '[' :: (inner ++ [']'])

/-- What is between brackets is a heading. Anything else is an assignment if it has an equals sign,
and the first one counts. -/
inductive Line.Reads : List Char → Line → Prop
  | heading (inner : List Char) : Reads ('[' :: (inner ++ [']'])) (.heading (Text.trim inner))
  | assignment {key value : List Char} (plain : ¬ Bracketed (key ++ '=' :: value))
      (first : '=' ∉ key) :
      Reads (key ++ '=' :: value) (.assignment (Text.trim key) (Text.trim value))
  | other {cs : List Char} (plain : ¬ Bracketed cs) (none : '=' ∉ cs) : Reads cs (.other cs)

theorem bracketed?_eq_some {inner : List Char} :
    bracketed? cs = some inner ↔ cs = '[' :: (inner ++ [']']) := by
  constructor
  · intro h
    obtain ⟨rest, hopen, hclose⟩ := Option.bind_eq_some_iff.1 h
    rw [List.isPrefixOf?_eq_some_iff_append_eq] at hopen
    rw [List.isSuffixOf?_eq_some_iff_append_eq] at hclose
    rw [← hopen, ← hclose]
    rfl
  · rintro rfl
    have hopen : ['['].isPrefixOf? ('[' :: (inner ++ [']'])) = some (inner ++ [']']) :=
      List.isPrefixOf?_eq_some_iff_append_eq.2 rfl
    have hclose : [']'].isSuffixOf? (inner ++ [']']) = some inner :=
      List.isSuffixOf?_eq_some_iff_append_eq.2 rfl
    rw [bracketed?, hopen, Option.bind_eq_bind, Option.bind_some, hclose]

theorem bracketed?_eq_none : bracketed? cs = none ↔ ¬ Bracketed cs := by
  rw [Option.eq_none_iff_forall_ne_some, Bracketed, not_exists]
  exact forall_congr' fun inner => not_congr bracketed?_eq_some

theorem Line.reads_ofContent (cs : List Char) : Line.Reads cs (.ofContent cs) := by
  unfold ofContent
  split
  · next inner h =>
    rw [bracketed?_eq_some] at h
    exact h ▸ .heading inner
  · next h =>
    rw [bracketed?_eq_none] at h
    have hsplit := List.takeWhile_append_dropWhile (p := (· ≠ '=')) (l := cs)
    have hkey : '=' ∉ cs.takeWhile (· ≠ '=') := fun hmem => by
      simpa using List.mem_takeWhile_imp hmem
    split
    · next c value hvalue =>
      have hc := List.head?_dropWhile_not (· ≠ '=') cs
      rw [hvalue] at hc
      obtain rfl : c = '=' := by simpa using hc
      rw [hvalue] at hsplit
      have hreads : Reads (cs.takeWhile (· ≠ '=') ++ '=' :: value) _ :=
        .assignment (hsplit.symm ▸ h) hkey
      rwa [hsplit] at hreads
    · next hvalue =>
      rw [hvalue, List.append_nil] at hsplit
      exact .other h (hsplit ▸ hkey)

theorem Line.Reads.ofContent_eq (h : Line.Reads cs line) : Line.ofContent cs = line := by
  cases h with
  | heading inner => rw [Line.ofContent, bracketed?_eq_some.2 rfl]
  | @assignment key value plain first =>
    have hkey : ∀ c ∈ key, decide (c ≠ '=') = true :=
      fun c hc => decide_eq_true fun heq => first (heq ▸ hc)
    rw [Line.ofContent, bracketed?_eq_none.2 plain]
    simp only [List.takeWhile_append_of_pos hkey, List.dropWhile_append_of_pos hkey]
    simp
  | other plain none =>
    have hall : ∀ c ∈ cs, decide (c ≠ '=') = true :=
      fun c hc => decide_eq_true fun heq => none (heq ▸ hc)
    rw [Line.ofContent, bracketed?_eq_none.2 plain]
    simp only [List.dropWhile_eq_nil_iff.2 hall]

theorem Line.reads_iff : Line.Reads cs line ↔ Line.ofContent cs = line :=
  ⟨Line.Reads.ofContent_eq, fun h => h ▸ Line.reads_ofContent cs⟩

theorem Line.Reads.ne_nil {key text : List Char} (h : Line.Reads cs (.assignment key text)) :
    cs ≠ [] := by
  cases h
  simp

end

def Line.heading? : Line → Option (List Char)
  | heading name => some name
  | _ => none

/-- The heading that stands after these lines, where one stood before them. -/
def lastHeading (heading : List Char) (ls : List Line) : List Char :=
  (ls.filterMap Line.heading?).getLast?.getD heading

/-- A line and the heading that it stands under. -/
structure PlacedLine where
  heading : List Char
  line : Line

def underHeadings (heading : List Char) : List Line → List PlacedLine
  | [] => []
  | line :: ls => ⟨heading, line⟩ :: underHeadings (line.heading?.getD heading) ls

theorem lastHeading_cons (heading : List Char) (line : Line) (ls : List Line) :
    lastHeading heading (line :: ls) = lastHeading (line.heading?.getD heading) ls := by
  unfold lastHeading
  cases h : line.heading? with
  | none => rw [List.filterMap_cons_none h, Option.getD_none]
  | some name => rw [List.filterMap_cons_some h, List.getLast?_cons, Option.getD_some]; rfl

theorem underHeadings_append (heading : List Char) (ls ms : List Line) :
    underHeadings heading (ls ++ ms) =
      underHeadings heading ls ++ underHeadings (lastHeading heading ls) ms := by
  induction ls generalizing heading with
  | nil => rfl
  | cons line ls ih =>
    rw [List.cons_append, underHeadings, ih, ← lastHeading_cons]
    rfl

namespace PlacedLine

def assigned? (s : Setting) (p : PlacedLine) : Option (List Char) :=
  match p.line with
  | .assignment key text => if Setting.ofKey? p.heading key = some s then some text else none
  | _ => none

theorem assigned?_of_ne {heading key text : List Char} {s t : Setting}
    (hs : Setting.ofKey? heading key = some s) (h : t ≠ s) :
    assigned? t ⟨heading, .assignment key text⟩ = none :=
  if_neg fun ht => h (Option.some_inj.1 (ht.symm.trans hs))

def valid (s : Setting) (text : List Char) : Requirement ConfigurationError where
  met := ∃ v, s.value? text = some v
  fault := s.invalid text

/-- Only what assigns to a setting has to have a value, but no line is neither a heading nor an
assignment. -/
def requirements (p : PlacedLine) : List (Requirement ConfigurationError) :=
  match p.line with
  | .heading _ => []
  | .assignment key text => (Setting.ofKey? p.heading key).toList.map fun s => valid s text
  | .other text => [⟨False, .noAssignment (String.ofList text)⟩]

end PlacedLine

/-- The text that is assigned to a setting last. -/
def lastAssigned? (s : Setting) (ps : List PlacedLine) : Option (List Char) :=
  (ps.filterMap (PlacedLine.assigned? s)).getLast?

/-- Each setting has the value of its last assignment, or its standard value if there is none. -/
structure Follows (c : Configuration) (ps : List PlacedLine) : Prop where
  assigned : ∀ s text, lastAssigned? s ps = some text → s.value? text = some (s.get c)
  standard : ∀ s, lastAssigned? s ps = none → s.get c = s.get standard

variable {c c' : Configuration} {ps : List PlacedLine}

theorem follows_standard : standard.Follows [] := ⟨nofun, fun _ _ => rfl⟩

theorem Follows.unique (h : c.Follows ps) (h' : c'.Follows ps) : c = c' := by
  apply Setting.eq_of_get
  intro s
  cases hs : lastAssigned? s ps with
  | none => rw [h.standard s hs, h'.standard s hs]
  | some text => exact Option.some_inj.1 ((h.assigned s text hs).symm.trans (h'.assigned s text hs))

theorem lastAssigned?_append_singleton (s : Setting) (ps : List PlacedLine) (p : PlacedLine) :
    lastAssigned? s (ps ++ [p]) = (p.assigned? s).or (lastAssigned? s ps) := by
  rw [lastAssigned?, List.filterMap_append, List.getLast?_append, lastAssigned?]
  cases h : p.assigned? s <;> simp [h]

theorem Follows.append_idle (h : c.Follows ps) {p : PlacedLine} (hp : ∀ s, p.assigned? s = none) :
    c.Follows (ps ++ [p]) := by
  constructor
  · intro s text hs
    rw [lastAssigned?_append_singleton, hp, Option.none_or] at hs
    exact h.assigned s text hs
  · intro s hs
    rw [lastAssigned?_append_singleton, hp, Option.none_or] at hs
    exact h.standard s hs

theorem Follows.append_assignment (h : c.Follows ps) {heading key text : List Char} {s : Setting}
    (hs : Setting.ofKey? heading key = some s) {v : s.Value} (hv : s.value? text = some v) :
    (s.put c v).Follows (ps ++ [⟨heading, .assignment key text⟩]) := by
  have hself : PlacedLine.assigned? s ⟨heading, .assignment key text⟩ = some text := if_pos hs
  constructor
  · intro t text' ht
    rw [lastAssigned?_append_singleton] at ht
    by_cases hts : t = s
    · subst hts
      rw [hself, Option.some_or, Option.some_inj] at ht
      rw [← ht, hv, Setting.get_put]
    · rw [PlacedLine.assigned?_of_ne hs hts, Option.none_or] at ht
      rw [h.assigned t text' ht, Setting.get_put_ne hts]
  · intro t ht
    rw [lastAssigned?_append_singleton] at ht
    by_cases hts : t = s
    · subst hts
      rw [hself, Option.some_or] at ht
      cases ht
    · rw [PlacedLine.assigned?_of_ne hs hts, Option.none_or] at ht
      rw [Setting.get_put_ne hts, h.standard t ht]

namespace ReadState

variable {s s' : ReadState} {line : Line}

theorem decides_step (s : ReadState) (line : Line) :
    Decides (PlacedLine.mk s.heading line).requirements (s.step line) := by
  cases line with
  | heading name => exact .ok _
  | other text => exact .unmet (q := ⟨False, _⟩) id []
  | assignment key text =>
    simp only [step, PlacedLine.requirements]
    cases Setting.ofKey? s.heading key with
    | none => exact .ok s
    | some t =>
      simp only [assign_eq, Option.toList_some, List.map_cons, List.map_nil]
      cases hv : t.value? text with
      | some v => exact .met ⟨v, hv⟩ (.ok _)
      | none => exact .unmet (q := PlacedLine.valid t text) (by simp [PlacedLine.valid, hv]) []

theorem heading_of_step (h : s.step line = .ok s') :
    s'.heading = line.heading?.getD s.heading := by
  cases line with
  | heading name =>
    cases h
    rfl
  | other text => cases h
  | assignment key text =>
    rw [step] at h
    split at h
    · obtain ⟨c, -, h⟩ := bind_eq_ok h
      cases h
      rfl
    · cases h
      rfl

theorem follows_of_step (hs : s.result.Follows ps) (h : s.step line = .ok s') :
    s'.result.Follows (ps ++ [⟨s.heading, line⟩]) := by
  cases line with
  | heading name =>
    cases h
    exact hs.append_idle fun _ => rfl
  | other text => cases h
  | assignment key text =>
    rw [step] at h
    split at h
    · next t ht =>
      obtain ⟨c, hc, h⟩ := bind_eq_ok h
      cases h
      rw [assign_eq] at hc
      split at hc
      · next v hv =>
        cases hc
        exact hs.append_assignment ht hv
      · cases hc
    · next hnone =>
      cases h
      refine hs.append_idle fun t => if_neg ?_
      rw [hnone]
      exact nofun

theorem decides_run (s : ReadState) (ls : List Line) :
    Decides ((underHeadings s.heading ls).flatMap PlacedLine.requirements)
      (ls.foldlM step s) := by
  induction ls generalizing s with
  | nil => exact .ok s
  | cons line ls ih =>
    rw [List.foldlM_cons, underHeadings, List.flatMap_cons]
    refine (s.decides_step line).bind fun _ s' hs' => ?_
    rw [← heading_of_step hs']
    exact ih s'

theorem follows_of_run {ls : List Line} (hs : s.result.Follows ps)
    (h : ls.foldlM step s = .ok s') : s'.result.Follows (ps ++ underHeadings s.heading ls) := by
  -- what has been read so far follows the lines that have been read
  induction ls generalizing s ps with
  | nil =>
    cases h
    rwa [underHeadings, List.append_nil]
  | cons line ls ih =>
    rw [List.foldlM_cons] at h
    obtain ⟨next, hnext, hrest⟩ := bind_eq_ok h
    have hfollows := ih (follows_of_step hs hnext) hrest
    rwa [heading_of_step hnext, List.append_assoc] at hfollows

end ReadState

/-- The rows of a text, and what is left of them without comments and blanks. -/
def rows (text : String) : List (List Char) := text.toList.splitOn '\n'

def contents (rows : List (List Char)) : List (List Char) := (rows.map content).filter (· ≠ [])

def placed (rows : List (List Char)) : List PlacedLine :=
  underHeadings [] ((contents rows).map Line.ofContent)

def lastTarget (ps : List PlacedLine) : String :=
  ((lastAssigned? .target ps).map fun text => String.ofList (unquoted text)).getD standard.target

def knownTarget (ps : List PlacedLine) : Requirement ConfigurationError where
  met := lastTarget ps ∈ targets
  fault := .unknownTarget (lastTarget ps)

def requirements (ps : List PlacedLine) : List (Requirement ConfigurationError) :=
  ps.flatMap PlacedLine.requirements ++ [knownTarget ps]

theorem Follows.target_eq (h : c.Follows ps) : c.target = lastTarget ps := by
  unfold lastTarget
  cases hs : lastAssigned? .target ps with
  | none => exact h.standard .target hs
  | some text => exact (Option.some_inj.1 (h.assigned .target text hs)).symm

theorem read_eq (text : String) : read text = (do
    let s ← ((contents (rows text)).map Line.ofContent).foldlM ReadState.step ⟨[], standard⟩
    if s.result.target ∈ targets then .ok s.result
    else .error (.unknownTarget s.result.target)) := rfl

theorem decides_read (text : String) : Decides (requirements (placed (rows text))) (read text) := by
  rw [read_eq]
  refine (ReadState.decides_run ⟨[], standard⟩ _).bind fun _ s hs => ?_
  have hfollows : s.result.Follows (placed (rows text)) :=
    ReadState.follows_of_run follows_standard hs
  rw [hfollows.target_eq]
  exact .ite

theorem follows_of_read {text : String} (h : read text = .ok c) : c.Follows (placed (rows text)) := by
  rw [read_eq] at h
  obtain ⟨s, hs, h⟩ := bind_eq_ok h
  have hfollows : s.result.Follows (placed (rows text)) :=
    ReadState.follows_of_run follows_standard hs
  split at h
  · cases h
    exact hfollows
  · cases h

theorem read_eq_ok_iff {text : String} : read text = .ok c ↔
    (∀ q ∈ requirements (placed (rows text)), q.met) ∧ c.Follows (placed (rows text)) := by
  have hdecides := decides_read text
  constructor
  · intro h
    exact ⟨hdecides.exists_ok_iff.1 ⟨c, h⟩, follows_of_read h⟩
  · rintro ⟨hmet, hfollows⟩
    obtain ⟨c', hc'⟩ := hdecides.exists_ok_iff.2 hmet
    rw [hc', (follows_of_read hc').unique hfollows]

end Configuration

end TensorKernels
