import TensorKernels.Kernel.Outline
import TensorKernels.Proofs.Template.Passes

set_option autoImplicit false

namespace TensorKernels

def Undelimited (s : String) : Prop := ¬ delimiter <:+: s.toList

instance : DecidablePred Undelimited := fun s =>
  inferInstanceAs (Decidable (¬ delimiter <:+: s.toList))

namespace Template

theorem not_infix_append_cons {a b : List Char} {c : Char} (ha : ¬ delimiter <:+: a) (hc : c ≠ '%')
    (hb : ¬ delimiter <:+: c :: b) : ¬ delimiter <:+: a ++ c :: b := by
  induction a with
  | nil => exact hb
  | cons d a ih =>
    rw [List.infix_cons_iff, not_or] at ha
    rw [List.cons_append, List.infix_cons_iff, not_or]
    refine ⟨fun hp => ?_, ih ha.2⟩
    cases a with
    | nil =>
      rw [delimiter, List.nil_append, List.cons_prefix_cons, List.cons_prefix_cons] at hp
      exact hc hp.2.1.symm
    | cons e a =>
      apply ha.1
      rw [delimiter, List.cons_append, List.cons_prefix_cons, List.cons_prefix_cons] at hp
      rw [delimiter, List.cons_prefix_cons, List.cons_prefix_cons]
      exact ⟨hp.1, hp.2.1, List.nil_prefix⟩

/-- A text that keeps what stands before it and what comes after it apart. -/
def Word (w : List Char) : Prop := Apart w ∧ w ≠ [] ∧ w.head? ≠ some '%'

theorem word_of_notMem {w : List Char} (hne : w ≠ []) (h : '%' ∉ w) : Word w :=
  ⟨apart_of_notMem h, hne, fun e => h (List.mem_of_head? e)⟩

theorem not_infix_append_word {a b w : List Char} (ha : ¬ delimiter <:+: a) (hw : Word w)
    (hb : ¬ delimiter <:+: b) : ¬ delimiter <:+: a ++ (w ++ b) := by
  have hwb := not_infix_append hw.1 hb
  cases w with
  | nil => exact absurd rfl hw.2.1
  | cons c w =>
    refine not_infix_append_cons ha (fun e => hw.2.2 ?_) hwb
    rw [e, List.head?_cons]

theorem Apart.weave {v : List Char} (hv : Apart v) (ps : List (List Char × List Char))
    (h : ∀ p ∈ ps, ¬ delimiter <:+: p.1 ∧ Word p.2) :
    Apart (v ++ ps.flatMap fun p => p.1 ++ p.2) := by
  induction ps generalizing v with
  | nil => simpa using hv
  | cons p ps ih =>
    obtain ⟨hp, hword⟩ := h p List.mem_cons_self
    have hlast : (p.1 ++ p.2).getLast? ≠ some '%' := by
      rw [List.getLast?_append_of_ne_nil p.1 hword.2.1]
      exact hword.1.2
    have hsep := not_infix_append_word hp hword apart_nil.1
    rw [List.append_nil] at hsep
    have hrest := ih (hv.append ⟨hsep, hlast⟩) fun q hq => h q (List.mem_cons_of_mem p hq)
    rwa [List.flatMap_cons, ← List.append_assoc]

end Template

open Template

def Piece.Clear : Piece → Prop
  | .text s => Apart s.toList
  | .directive d => d.Valid

theorem Template.legible_of_clear {t : Template} {before : List Char} (hb : Apart before)
    (ht : ∀ p ∈ t, p.Clear) : Legible before t := by
  induction t generalizing before with
  | nil => exact hb.1
  | cons p t ih =>
    rw [List.forall_mem_cons] at ht
    cases p with
    | text s => exact ih (hb.append ht.1) ht.2
    | directive d => exact ⟨hb, ht.1, ih apart_nil ht.2⟩

def Expr.Names (P : String → Prop) : Expr → Prop
  | .var name => P name
  | .const _ => True
  | .bin _ lhs rhs => lhs.Names P ∧ rhs.Names P

instance Expr.decidableNames (P : String → Prop) [DecidablePred P] : DecidablePred (Names P)
  | .var name => inferInstanceAs (Decidable (P name))
  | .const _ => inferInstanceAs (Decidable True)
  | .bin _ lhs rhs =>
    haveI := decidableNames P lhs
    haveI := decidableNames P rhs
    inferInstanceAs (Decidable (lhs.Names P ∧ rhs.Names P))

theorem undelimited_of_notMem {s : String} (h : '%' ∉ s.toList) : Undelimited s :=
  (apart_of_notMem h).1

theorem undelimited_int (v : Int) : Undelimited v.repr := by
  apply undelimited_of_notMem
  cases v <;> simp [Int.repr]

theorem Expr.undelimited_parenthesized {s : String} (b : Bool) (h : Undelimited s) :
    Undelimited (parenthesized b s) := by
  cases b with
  | false => exact h
  | true =>
    have hclose := not_infix_append_cons h (by decide : ')' ≠ '%') (by decide : ¬ delimiter <:+: [')'])
    have hopen : Apart ['('] := apart_of_notMem (by decide)
    simpa [Undelimited, parenthesized] using not_infix_append hopen hclose

theorem Expr.undelimited_render {e : Expr} (h : e.Names Undelimited) : Undelimited e.render := by
  induction e with
  | var name => exact h
  | const value => exact undelimited_int value
  | bin op lhs rhs ihl ihr =>
    have hl := undelimited_parenthesized (decide (lhs.precedence < op.precedence)) (ihl h.1)
    have hr := undelimited_parenthesized (decide (rhs.precedence ≤ op.precedence)) (ihr h.2)
    have hop : Word (' ' :: (op.symbol.toList ++ [' '])) := by
      cases op <;> exact ⟨⟨by decide, by decide⟩, by decide, by decide⟩
    have hrender := not_infix_append_word hl hop hr
    simpa [Undelimited, render, BinOp.symbol] using hrender

structure GatherLoop.WellNamed (l : GatherLoop) : Prop where
  limit : l.limit.Names Undelimited
  indexVar : Undelimited l.map.indexVar
  bindings : ∀ b ∈ l.map.bindings, Undelimited b.1 ∧ b.2.Names Undelimited
  source : l.map.source.Names Undelimited
  output : Undelimited l.output
  input : Undelimited l.input

/-- No name holds a delimiter, and every key is a key of a template. -/
structure Outline.WellNamed (o : Outline) : Prop where
  keys : ∀ d ∈ o.decls, isKey d.key.toList
  names : ∀ d ∈ o.decls, Undelimited d.name
  loop : ∀ l ∈ o.loop, l.WellNamed

namespace Outline

theorem apart_bindingLine {b : String × Expr} (hn : Undelimited b.1) (he : b.2.Names Undelimited) :
    Apart (bindingLine b).toList := by
  have hv := Expr.undelimited_render he
  have hstart : Apart "        const int ".toList := apart_of_notMem (by simp)
  have hline := hstart.weave [(b.1.toList, " = ".toList), (b.2.render.toList, ";\n".toList)] (by
      simp only [List.forall_mem_cons]
      exact ⟨⟨hn, word_of_notMem (by simp) (by simp)⟩, ⟨hv, word_of_notMem (by simp) (by simp)⟩,
        by simp⟩)
  unfold bindingLine
  simpa only [String.toList_append, List.append_assoc, List.flatMap_cons, List.flatMap_nil,
    List.append_nil] using hline

theorem apart_bindings {bs : List (String × Expr)}
    (h : ∀ b ∈ bs, Undelimited b.1 ∧ b.2.Names Undelimited) :
    Apart (String.join (bs.map bindingLine)).toList := by
  induction bs with
  | nil => exact apart_nil
  | cons b bs ih =>
    have hb := h b List.mem_cons_self
    have hbs := ih fun c hc => h c (List.mem_cons_of_mem b hc)
    rw [List.map_cons, String.join_cons, String.toList_append]
    exact (apart_bindingLine hb.1 hb.2).append hbs

theorem apart_loopText {l : GatherLoop} (h : l.WellNamed) : Apart (loopText l).toList := by
  have hlimit := Expr.undelimited_render h.limit
  have hsource := Expr.undelimited_render h.source
  have hstart : Apart "\n    for (int ".toList := apart_of_notMem (by simp)
  have hindent : Apart "        ".toList := apart_of_notMem (by simp)
  have hhead := hstart.weave
    [(l.map.indexVar.toList, " = index; ".toList), (l.map.indexVar.toList, " < ".toList),
      (l.limit.render.toList, "; ".toList),
      (l.map.indexVar.toList, " += num_threads) \x7b\n".toList)] (by
      simp only [List.forall_mem_cons]
      exact ⟨⟨h.indexVar, word_of_notMem (by simp) (by simp)⟩,
        ⟨h.indexVar, word_of_notMem (by simp) (by simp)⟩,
        ⟨hlimit, word_of_notMem (by simp) (by simp)⟩,
        ⟨h.indexVar, word_of_notMem (by simp) (by simp)⟩, by simp⟩)
  have hassign := hindent.weave
    [(l.output.toList, "[".toList), (l.map.indexVar.toList, "] = ".toList),
      (l.input.toList, "[".toList),
      (l.map.source.render.toList, "];\n".toList ++ "    \x7d\n".toList)] (by
      simp only [List.forall_mem_cons]
      exact ⟨⟨h.output, word_of_notMem (by simp) (by simp)⟩,
        ⟨h.indexVar, word_of_notMem (by simp) (by simp)⟩,
        ⟨h.input, word_of_notMem (by simp) (by simp)⟩,
        ⟨hsource, word_of_notMem (by simp) (by simp)⟩, by simp⟩)
  unfold loopText
  simpa only [String.toList_append, List.append_assoc, List.flatMap_cons, List.flatMap_nil,
    List.append_nil] using hhead.append ((apart_bindings h.bindings).append hassign)

theorem clear_slotPieces (s : Slot) : ∀ p ∈ slotPieces s, p.Clear := by
  simp only [slotPieces, List.forall_mem_cons, List.not_mem_nil, false_imp_iff, implies_true,
    and_true]
  refine ⟨apart_of_notMem ?_, fun key e => ?_, apart_of_notMem ?_⟩
  · cases s <;> simp [Slot.elementType]
  · cases e
  · simp

theorem clear_headerPieces : ∀ p ∈ headerPieces, p.Clear := by
  unfold headerPieces
  simp only [List.forall_mem_append, List.forall_mem_flatMap, List.forall_mem_cons,
    List.not_mem_nil, false_imp_iff, implies_true, and_true]
  refine ⟨⟨⟨apart_of_notMem (by simp), fun key e => ?_, apart_of_notMem (by simp)⟩,
    fun s _ => clear_slotPieces s⟩, apart_of_notMem (by simp)⟩
  cases e

theorem clear_declPieces {d : Decl} (hk : isKey d.key.toList) (hn : Undelimited d.name) :
    ∀ p ∈ declPieces d, p.Clear := by
  have hindent : Apart ("    " ++ d.kind.type).toList := by
    apply apart_of_notMem
    cases d.kind <;> simp [DeclKind.type]
  have hname := hindent.weave [(d.name.toList, " = ".toList)] (by
    simp only [List.forall_mem_cons]
    exact ⟨⟨hn, word_of_notMem (by simp) (by simp)⟩, by simp⟩)
  simp only [declPieces, List.forall_mem_cons, List.not_mem_nil, false_imp_iff, implies_true,
    and_true]
  refine ⟨?_, fun key e => ?_, apart_of_notMem (by simp)⟩
  · simpa [Piece.Clear] using hname
  · cases e
    exact hk

theorem legible {o : Outline} (h : o.WellNamed) : Legible [] o.pieces := by
  apply legible_of_clear apart_nil
  unfold pieces
  simp only [List.forall_mem_append, List.forall_mem_flatMap, List.mem_singleton, forall_eq]
  refine ⟨⟨clear_headerPieces, fun d hd => clear_declPieces (h.keys d hd) (h.names d hd)⟩, ?_⟩
  have hclose : Apart "\x7d\n".toList := apart_of_notMem (by simp)
  rw [Piece.Clear, String.toList_append]
  cases hl : o.loop with
  | none => exact apart_nil.append hclose
  | some l => exact (apart_loopText (h.loop l hl)).append hclose

def slotLine (s : Slot) : String :=
  "    " ++ s.elementType ++ " *" ++ s.ident ++ " [[buffer(" ++ s.index.repr ++ ")]],\n"

def header (name : String) : String :=
  "kernel void " ++ name ++ "(\n" ++ String.join (Slot.all.map slotLine) ++
    ("    uint index [[thread_position_in_grid]],\n" ++
      "    uint num_threads [[threads_per_grid]])\n" ++ "\x7b\n")

def declLine (load : String → String) (d : Decl) : String :=
  "    " ++ d.kind.type ++ d.name ++ " = " ++ load d.key ++ ";\n"

/-- The text of the kernel, where `load` gives the load expression of each key. -/
def written (o : Outline) (name : String) (load : String → String) : String :=
  header name ++ String.join (o.decls.map (declLine load)) ++
    ((o.loop.map loopText).getD "" ++ "\x7d\n")

theorem exists_written_eq (o : Outline) (name : String) (load : String → String) :
    ∃ rest, o.written name load = "kernel void " ++ name ++ "(" ++ rest := by
  have hopen : "(\n" = "(" ++ "\n" := by decide
  unfold written header
  rw [hopen]
  simp only [String.append_assoc]
  exact ⟨_, rfl⟩

section

variable (value : Directive → String)

theorem textWith_append (t u : Template) :
    textWith value (t ++ u) = textWith value t ++ textWith value u := by
  unfold textWith
  rw [List.map_append, String.join_append]

theorem textWith_flatMap {α : Type} (f : α → Template) (xs : List α) :
    textWith value (xs.flatMap f) = String.join (xs.map fun x => textWith value (f x)) := by
  induction xs with
  | nil => rfl
  | cons x xs ih =>
    calc textWith value ((x :: xs).flatMap f)
      _ = textWith value (f x) ++ textWith value (xs.flatMap f) := by
        rw [List.flatMap_cons, textWith_append]
      _ = textWith value (f x) ++ String.join (xs.map fun x => textWith value (f x)) := by rw [ih]
      _ = String.join ((x :: xs).map fun x => textWith value (f x)) := by
        rw [List.map_cons, String.join_cons]

end

theorem written_pieces (o : Outline) (name : String) (load : String → String) :
    Template.written name load o.pieces = o.written name load := by
  have hslot : (fun s => textWith (Directive.written name load) (slotPieces s)) = slotLine := by
    funext s
    simp [textWith, slotPieces, slotLine, Piece.textWith, Directive.written, String.append_assoc]
  have hdecl : (fun d => textWith (Directive.written name load) (declPieces d)) = declLine load := by
    funext d
    simp [textWith, declPieces, declLine, Piece.textWith, Directive.written, String.append_assoc]
  have hhead : textWith (Directive.written name load) headerPieces = header name := by
    unfold headerPieces header
    rw [textWith_append, textWith_append, textWith_flatMap, hslot]
    simp only [textWith, List.map_cons, List.map_nil, Piece.textWith, Directive.written,
      String.join_cons, String.join_nil, String.append_empty, String.append_assoc]
  unfold Template.written pieces written
  rw [textWith_append, textWith_append, textWith_flatMap, hdecl, hhead]
  simp only [textWith, List.map_cons, List.map_nil, Piece.textWith, String.join_cons,
    String.join_nil, String.append_empty]

theorem inject_text {o : Outline} (ho : o.WellNamed) (name : String) {s : Injector}
    {load : String → String} (hload : ∀ d ∈ o.decls, s.registry.load d.key = .ok (load d.key))
    (hclean : ∀ key, '%' ∉ (load key).toList) : ∃ text, (s.inject o.text).1 = .ok text ∧
      injectName name text = .ok (o.written name load) := by
  have hlegible := legible ho
  have hkeys : ∀ key, .directive (.load key) ∈ o.pieces → s.registry.load key = .ok (load key) := by
    intro key hmem
    have hkey : key ∈ o.pieces.filterMap Piece.key? :=
      List.mem_filterMap.2 ⟨.directive (.load key), hmem, rfl⟩
    rw [keys_pieces] at hkey
    obtain ⟨d, hd, rfl⟩ := List.mem_map.1 hkey
    exact hload d hd
  refine ⟨buffered load o.pieces, Injector.inject_eq (parse_source hlegible) hkeys, ?_⟩
  rw [injectName_buffered name hclean hlegible, written_pieces]

end Outline

end TensorKernels
