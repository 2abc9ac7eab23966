import Mathlib.Logic.Relation
import TensorKernels.Proofs.Configuration.LastAssignment
import TensorKernels.Proofs.Text

set_option autoImplicit false

namespace TensorKernels

theorem Text.trim_append_blanks (cs : List Char) {blanks : List Char}
    (h : ∀ c ∈ blanks, isBlank c = true) : trim (cs ++ blanks) = trim cs := by
  have hreverse : ∀ c ∈ blanks.reverse, isBlank c = true := fun c hc => h c (List.mem_reverse.1 hc)
  unfold trim stripBoth
  rw [List.dropWhile_append]
  split
  · next hempty => rw [List.isEmpty_iff.1 hempty, List.dropWhile_eq_nil_iff.2 h]
  · rw [List.reverse_append, List.dropWhile_append_of_pos hreverse]

namespace Configuration

open Requirement

variable {c : Configuration} {ps : List PlacedLine}

/-- What is read of two texts is the same if it is read at all: they ask for the same and assign the
same texts to each setting. -/
structure Alike (ps ps' : List PlacedLine) : Prop where
  met : (∀ q ∈ ps.flatMap PlacedLine.requirements, q.met) ↔
    ∀ q ∈ ps'.flatMap PlacedLine.requirements, q.met
  assigned : ∀ s, ps.filterMap (PlacedLine.assigned? s) = ps'.filterMap (PlacedLine.assigned? s)

namespace Alike

variable {ps' ps'' before after : List PlacedLine} {p p' : PlacedLine}

theorem refl (ps : List PlacedLine) : Alike ps ps := ⟨Iff.rfl, fun _ => rfl⟩

theorem symm (h : Alike ps ps') : Alike ps' ps := ⟨h.met.symm, fun s => (h.assigned s).symm⟩

theorem trans (h : Alike ps ps') (h' : Alike ps' ps'') : Alike ps ps'' :=
  ⟨h.met.trans h'.met, fun s => (h.assigned s).trans (h'.assigned s)⟩

theorem insert (hp : p.requirements = []) (hidle : ∀ s, p.assigned? s = none) :
    Alike (before ++ after) (before ++ p :: after) := by
  constructor
  · rw [List.flatMap_append, List.flatMap_append, List.flatMap_cons, hp, List.nil_append]
  · intro s
    rw [List.filterMap_append, List.filterMap_append, List.filterMap_cons_none (hidle s)]

theorem swap (h : ∀ s, p.assigned? s = none ∨ p'.assigned? s = none) :
    Alike (before ++ p :: p' :: after) (before ++ p' :: p :: after) := by
  constructor
  · have hperm : (before ++ p :: p' :: after).Perm (before ++ p' :: p :: after) :=
      (List.Perm.swap p' p after).append_left before
    exact forall_congr' fun q => imp_congr_left (hperm.flatMap_right _).mem_iff
  · intro s
    rw [List.filterMap_append, List.filterMap_append]
    rcases h s with hp | hp' <;> simp [List.filterMap_cons, *]

theorem lastAssigned?_eq (h : Alike ps ps') (s : Setting) :
    lastAssigned? s ps = lastAssigned? s ps' := by
  rw [lastAssigned?, h.assigned, lastAssigned?]

theorem follows_iff (h : Alike ps ps') : c.Follows ps ↔ c.Follows ps' := by
  constructor
  · intro hc
    exact ⟨fun s text hs => hc.assigned s text ((h.lastAssigned?_eq s).trans hs),
      fun s hs => hc.standard s ((h.lastAssigned?_eq s).trans hs)⟩
  · intro hc
    exact ⟨fun s text hs => hc.assigned s text ((h.lastAssigned?_eq s).symm.trans hs),
      fun s hs => hc.standard s ((h.lastAssigned?_eq s).symm.trans hs)⟩

theorem read_iff {text text' : String} (h : Alike (placed (rows text)) (placed (rows text'))) :
    read text = .ok c ↔ read text' = .ok c := by
  have htarget : lastTarget (placed (rows text)) = lastTarget (placed (rows text')) := by
    unfold lastTarget
    rw [h.lastAssigned?_eq]
  rw [read_eq_ok_iff, read_eq_ok_iff, h.follows_iff]
  simp only [requirements, List.forall_mem_append, knownTarget, htarget, h.met]

end Alike

def headingAfter (rows : List (List Char)) : List Char :=
  lastHeading [] ((contents rows).map Line.ofContent)

/-- Changes of single rows that do not touch what is read. A comment may also stand alone, in a row
without content. -/
inductive Edit : List (List Char) → List (List Char) → Prop
  | blank {before after : List (List Char)} {row : List Char} (empty : content row = []) :
      Edit (before ++ after) (before ++ row :: after)
  | comment {before after : List (List Char)} {row blanks : List Char} (note : List Char)
      (blank : ∀ c ∈ blanks, Text.isBlank c = true) :
      Edit (before ++ row :: after) (before ++ (row ++ (blanks ++ '#' :: note)) :: after)
  | unknown {before after : List (List Char)} {row key text : List Char}
      (assigns : Line.Reads (content row) (.assignment key text))
      (key_unknown : Setting.ofKey? (headingAfter before) key = none) :
      Edit (before ++ after) (before ++ row :: after)
  | swap {before after : List (List Char)} {row row' key key' text text' : List Char}
      {s s' : Setting} (assigns : Line.Reads (content row) (.assignment key text))
      (assigns' : Line.Reads (content row') (.assignment key' text'))
      (known : Setting.ofKey? (headingAfter before) key = some s)
      (known' : Setting.ofKey? (headingAfter before) key' = some s') (different : s ≠ s') :
      Edit (before ++ row :: row' :: after) (before ++ row' :: row :: after)

theorem content_comment (row note : List Char) {blanks : List Char}
    (h : ∀ c ∈ blanks, Text.isBlank c = true) :
    content (row ++ (blanks ++ '#' :: note)) = content row := by
  have hblanks : ∀ c ∈ blanks, decide (c ≠ '#') = true := by
    intro c hc
    refine decide_eq_true fun heq => ?_
    have hblank := h c hc
    rw [heq] at hblank
    exact absurd hblank (by decide)
  rw [content, ← List.append_assoc, takeWhile_mark, content, List.takeWhile_append]
  split
  · next hlength =>
    have hrow : row.takeWhile (· ≠ '#') = row :=
      (List.takeWhile_prefix _).eq_of_length hlength
    rw [List.takeWhile_eq_self_iff.2 hblanks, hrow, Text.trim_append_blanks row h]
  · rfl

theorem contents_append (a b : List (List Char)) :
    contents (a ++ b) = contents a ++ contents b := by
  rw [contents, List.map_append, List.filter_append, contents, contents]

theorem placed_append (before after : List (List Char)) : placed (before ++ after) =
    placed before ++ underHeadings (headingAfter before) ((contents after).map Line.ofContent) := by
  rw [placed, contents_append, List.map_append, underHeadings_append]
  rfl

theorem lines_assignment {row key text : List Char}
    (h : Line.Reads (content row) (.assignment key text)) (after : List (List Char)) :
    (contents (row :: after)).map Line.ofContent =
      .assignment key text :: (contents after).map Line.ofContent := by
  have hcontent : contents (row :: after) = content row :: contents after :=
    List.filter_cons_of_pos (decide_eq_true h.ne_nil)
  rw [hcontent, List.map_cons, h.ofContent_eq]

theorem Edit.alike {rows rows' : List (List Char)} (h : Edit rows rows') :
    Alike (placed rows) (placed rows') := by
  cases h with
  | @blank before after row empty =>
    have hsame : contents (row :: after) = contents after :=
      List.filter_cons_of_neg (by simp [empty])
    rw [placed_append, placed_append, hsame]
    exact .refl _
  | @comment before after row blanks note blank =>
    have hsame : contents ((row ++ (blanks ++ '#' :: note)) :: after) =
        contents (row :: after) := by
      rw [contents, List.map_cons, content_comment row note blank]
      rfl
    rw [placed_append, placed_append, hsame]
    exact .refl _
  | unknown assigns key_unknown =>
    rw [placed_append, placed_append, lines_assignment assigns]
    refine .insert ?_ fun s => if_neg ?_
    · simp only [PlacedLine.requirements, key_unknown]
      rfl
    · rw [key_unknown]
      exact (Option.some_ne_none s).symm
  | @swap before after row row' key key' text text' s s' assigns assigns' known known' different =>
    rw [placed_append, placed_append, lines_assignment assigns, lines_assignment assigns',
      lines_assignment assigns', lines_assignment assigns]
    refine .swap fun t => ?_
    by_cases hs : t = s
    · exact .inr (PlacedLine.assigned?_of_ne known' (hs ▸ different))
    · exact .inl (PlacedLine.assigned?_of_ne known hs)

theorem alike_of_edits {rows rows' : List (List Char)} (h : Relation.EqvGen Edit rows rows') :
    Alike (placed rows) (placed rows') := by
  induction h with
  | rel _ _ hedit => exact hedit.alike
  | refl _ => exact .refl _
  | symm _ _ _ ih => exact ih.symm
  | trans _ _ _ _ _ ih ih' => exact ih.trans ih'

/-- A text is read as lines, of which the first wrong one is reported whatever comes after it, and
next a last target that is not known. Otherwise each setting has the value that is assigned to it
last under its heading, or its standard value. Changes of rows that assign nothing, and exchanges of
neighbours that assign to different settings, keep what is read. -/
theorem read_verdict (text : String) :
    ∃ ls, List.Forall₂ Line.Reads (contents (rows text)) ls ∧
      (∀ c, read text = .ok c ↔
        (∀ q ∈ requirements (underHeadings [] ls), q.met) ∧ c.Follows (underHeadings [] ls)) ∧
      (∀ e, read text = .error e ↔
        ∃ q, FirstUnmet (requirements (underHeadings [] ls)) q ∧ q.fault = e) ∧
      ∀ text', Relation.EqvGen Edit (rows text) (rows text') →
        ∀ c, read text = .ok c ↔ read text' = .ok c := by
  refine ⟨(contents (rows text)).map Line.ofContent, ?_, fun c => read_eq_ok_iff,
    fun e => (decides_read text).eq_error_iff, fun text' h c => (alike_of_edits h).read_iff⟩
  rw [List.forall₂_map_right_iff, List.forall₂_same]
  exact fun cs _ => Line.reads_ofContent cs

/-- The sizes change places, and a comment, a blank row and an assignment that is not known are put
in. -/
theorem read_verdict_edited : ∃ (text text' : String) (c : Configuration), text ≠ text' ∧
    Relation.EqvGen Edit (rows text) (rows text') ∧ read text = .ok c ∧ read text' = .ok c ∧
      c.launch = ⟨.fixed 4 5 6, .maxThreads⟩ := by
  let text := "[launch]\nthreadgroup = \"max\"\ngrid = [4, 5, 6]\n[target]\nname = tpu\nname = msl"
  let text' := "[launch] # sizes\ngrid = [4, 5, 6]\n\nthreadgroup = \"max\"\nname = tpu = gpu\n" ++
    "[target]\nname = tpu\nname = msl"
  have hread : read text = .ok ⟨"msl", ⟨.fixed 4 5 6, .maxThreads⟩, false⟩ := by decide +kernel
  let launch := "[launch]".toList
  let noted := "[launch] # sizes".toList
  let threadgroup := "threadgroup = \"max\"".toList
  let grid := "grid = [4, 5, 6]".toList
  let name := "name = tpu = gpu".toList
  let rest := ["[target]".toList, "name = tpu".toList, "name = msl".toList]
  have hswap : Edit (launch :: threadgroup :: grid :: rest)
      (launch :: grid :: threadgroup :: rest) :=
    @Edit.swap [launch] rest threadgroup grid "threadgroup".toList "grid".toList
      "\"max\"".toList "[4, 5, 6]".toList .threadgroup .grid
      (Line.reads_iff.2 (by decide +kernel)) (Line.reads_iff.2 (by decide +kernel))
      (by decide +kernel) (by decide +kernel) nofun
  have hcomment : Edit (launch :: grid :: threadgroup :: rest)
      (noted :: grid :: threadgroup :: rest) :=
    @Edit.comment [] (grid :: threadgroup :: rest) launch [' '] " sizes".toList
      (List.forall_mem_singleton.2 (by decide))
  have hblank : Edit (noted :: grid :: threadgroup :: rest)
      (noted :: grid :: [] :: threadgroup :: rest) :=
    @Edit.blank [noted, grid] (threadgroup :: rest) [] rfl
  have hunknown : Edit (noted :: grid :: [] :: threadgroup :: rest)
      (noted :: grid :: [] :: threadgroup :: name :: rest) :=
    @Edit.unknown [noted, grid, [], threadgroup] rest name "name".toList "tpu = gpu".toList
      (Line.reads_iff.2 (by decide +kernel)) (by decide +kernel)
  have hedits : Relation.EqvGen Edit (rows text) (rows text') := by
    have hrows : rows text = launch :: threadgroup :: grid :: rest := by decide +kernel
    have hrows' : rows text' = noted :: grid :: [] :: threadgroup :: name :: rest := by
      decide +kernel
    rw [hrows, hrows']
    exact .trans _ _ _ (.rel _ _ hswap) (.trans _ _ _ (.rel _ _ hcomment)
      (.trans _ _ _ (.rel _ _ hblank) (.rel _ _ hunknown)))
  obtain ⟨_, -, -, -, hsame⟩ := read_verdict text
  exact ⟨text, text', _, by decide, hedits, hread, (hsame text' hedits _).1 hread, rfl⟩

end Configuration

end TensorKernels
