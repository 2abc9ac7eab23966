import TensorKernels.Proofs.Template.Reading

set_option autoImplicit false

namespace TensorKernels

namespace Template

theorem apart_cons {c : Char} {cs : List Char} (h : Apart cs)
    (hc : c = '%' → ∃ d ds, cs = d :: ds ∧ d ≠ '%') : Apart (c :: cs) := by
  constructor
  · rw [List.infix_cons_iff, not_or]
    refine ⟨fun hp => ?_, h.1⟩
    rw [delimiter, List.cons_prefix_cons] at hp
    obtain ⟨d, ds, rfl, hd⟩ := hc hp.1.symm
    exact hd (List.cons_prefix_cons.1 hp.2).1.symm
  · cases cs with
    | nil =>
      intro hl
      obtain ⟨d, ds, e, -⟩ := hc (by simpa using hl)
      cases e
    | cons d ds =>
      rw [List.getLast?_cons_cons]
      exact h.2

/-- What stands before the leftmost delimiter makes no delimiter with it. -/
theorem apart_of_cut? {cs a b : List Char} (h : cut? cs = some (a, b)) : Apart a := by
  fun_induction cut? cs generalizing a with
  | case1 rest =>
    cases h
    exact apart_nil
  | case2 c rest hne ih =>
    obtain ⟨⟨before, after⟩, hrest, e⟩ := Option.map_eq_some_iff.1 h
    cases e
    refine apart_cons (ih hrest) fun hc => ?_
    -- A percent sign here, followed by one, would have been the leftmost delimiter.
    have hcut := eq_of_cut? hrest
    cases before with
    | nil => exact (hne _ hc hcut).elim
    | cons d ds => exact ⟨d, ds, rfl, fun hd => hne _ hc (hcut.trans (by rw [hd]; rfl))⟩
  | case3 => cases h

theorem eq_of_loadArgument? {body key : List Char} (h : loadArgument? body = some key) :
    body = "LOAD_BUFFER(".toList ++ (key ++ [')']) := by
  obtain ⟨rest, hp, hs⟩ := Option.bind_eq_some_iff.1 h
  rw [List.isPrefixOf?_eq_some_iff_append_eq] at hp
  rw [List.isSuffixOf?_eq_some_iff_append_eq] at hs
  rw [hs, hp]

theorem of_directive {body : List Char} {d : Directive} (h : directive body = .ok d) :
    d.Valid ∧ d.body.toList = body := by
  unfold directive at h
  split at h
  · next hname =>
    cases h
    exact ⟨fun key e => (by cases e), hname.symm⟩
  · split at h
    · next s hs =>
      cases h
      refine ⟨fun key e => (by cases e), ?_⟩
      have hp := List.find?_some hs
      rw [Directive.body, of_decide_eq_true hp, String.toList_ofList]
    · split at h
      · next key hkey =>
        split at h
        · next hk =>
          cases h
          refine ⟨fun k e => ?_, ?_⟩
          · cases e
            rwa [String.toList_ofList]
          · rw [toList_body_load, show (String.ofList key).toList = key from String.toList_ofList,
              eq_of_loadArgument? hkey]
        · cases h
      · cases h

theorem toList_source_textPieces (before : List Char) (t : Template) :
    (source (textPieces before ++ t)).toList = before ++ (source t).toList := by
  unfold textPieces
  split
  · next h => rw [h, List.nil_append, List.nil_append]
  · rw [List.singleton_append, toList_source_cons, Piece.chars, String.toList_ofList]

theorem plain_ofList {cs : List Char} (hne : cs ≠ []) (h : ¬ delimiter <:+: cs) :
    Plain (String.ofList cs) := by
  refine ⟨fun e => hne ?_, by rwa [String.toList_ofList]⟩
  simpa using congrArg String.toList e

theorem normal_textPieces {cs : List Char} (h : ¬ delimiter <:+: cs) : Normal (textPieces cs) := by
  unfold textPieces
  split
  · trivial
  · next hne => exact plain_ofList hne h

theorem normal_textPieces_cons {before : List Char} {d : Directive} {ps : Template}
    (hb : Apart before) (hd : d.Valid) (hps : Normal ps) :
    Normal (textPieces before ++ .directive d :: ps) := by
  unfold textPieces
  split
  · exact ⟨hd, hps⟩
  · next hne =>
    refine ⟨plain_ofList hne hb.1, ?_, hd, hps⟩
    rw [String.toList_ofList]
    exact hb.2

theorem normal_of_scan {cs : List Char} {t : Template} (h : scan cs = .ok t) :
    Normal t ∧ (source t).toList = cs := by
  fun_induction scan cs generalizing t with
  | case1 cs hcut =>
    cases h
    refine ⟨normal_textPieces (cut?_eq_none_iff.1 hcut), ?_⟩
    have hs := toList_source_textPieces cs []
    rwa [List.append_nil, show (source []).toList = [] from rfl, List.append_nil] at hs
  | case2 => cases h
  | case3 cs before after hopen body rest hclose ih =>
    obtain ⟨d, hd, h⟩ := bind_eq_ok h
    obtain ⟨ps, hps, h⟩ := bind_eq_ok h
    cases h
    obtain ⟨hvalid, hbody⟩ := of_directive hd
    obtain ⟨hnormal, hrest⟩ := ih hps
    refine ⟨normal_textPieces_cons (apart_of_cut? hopen) hvalid hnormal, ?_⟩
    calc (source (textPieces before ++ .directive d :: ps)).toList
      _ = before ++ ('%' :: '%' :: (d.body.toList ++ ['%', '%']) ++ (source ps).toList) := by
        rw [toList_source_textPieces, toList_source_cons, Piece.chars, toList_display]
      _ = before ++ '%' :: '%' :: (body ++ '%' :: '%' :: rest) := by
        rw [hbody, hrest]
        simp
      _ = cs := by rw [eq_of_cut? hopen, eq_of_cut? hclose]

theorem textPieces_toList {s : String} (h : s ≠ "") : textPieces s.toList = [.text s] := by
  rw [textPieces, if_neg (String.toList_eq_nil_iff.not.2 h), String.ofList_toList]

theorem Normal.legible {t : Template} (h : Normal t) : Legible [] t := by
  fun_induction Normal t with
  | case1 => exact apart_nil.1
  | case2 s => exact h.2
  | case3 => exact h.elim
  | case4 s d ps ih =>
    obtain ⟨hs, hlast, hps⟩ := h
    obtain ⟨-, hd, hlegible⟩ := ih hps
    exact ⟨⟨hs.2, hlast⟩, hd, hlegible⟩
  | case5 d ps ih => exact ⟨apart_nil, h.1, ih h.2⟩

theorem Normal.merge_eq {t : Template} (h : Normal t) : merge [] t = t := by
  fun_induction Normal t with
  | case1 => rfl
  | case2 s => exact textPieces_toList h.1
  | case3 => exact h.elim
  | case4 s d ps ih =>
    have hrest := ih h.2.2
    rw [merge, textPieces, if_pos rfl, List.nil_append] at hrest
    rw [merge, List.nil_append, merge, textPieces_toList h.1.1, List.singleton_append, hrest]
  | case5 d ps ih => rw [merge, textPieces, if_pos rfl, List.nil_append, ih h.2]

theorem parse_eq_ok_iff {text : String} {t : Template} :
    parse text = .ok t ↔ Normal t ∧ source t = text := by
  constructor
  · intro h
    cases hs : scan text.toList with
    | error e => rw [parse, hs] at h; cases h
    | ok u =>
      rw [parse, hs] at h
      cases h
      obtain ⟨hnormal, htext⟩ := normal_of_scan hs
      exact ⟨hnormal, String.toList_injective htext⟩
  · rintro ⟨hnormal, rfl⟩
    rw [parse_source hnormal.legible, hnormal.merge_eq]

/-- The text that gives every directive its own display. -/
def display (t : Template) : Except LoweringError String := t.render fun d => .ok d.display

theorem display_eq_ok_iff {t : Template} {text : String} :
    display t = .ok text ↔ source t = text := by
  rw [display, render_display, Except.ok.injEq]

theorem malformed_of_parse {text : String} {e : LoweringError} (h : parse text = .error e) :
    ∃ fault : TemplateFault, e = .malformedTemplate fault.reason := by
  cases hs : scan text.toList with
  | ok u => rw [parse, hs] at h; cases h
  | error fault =>
    rw [parse, hs] at h
    cases h
    exact ⟨fault, rfl⟩

/-- Reading and displaying are inverse to each other between the texts that are read and the normal
templates. The scan ends on every text, with pieces or with a fault. -/
theorem parse_inverts_display (text : String) :
    (∀ t, parse text = .ok t ↔ Normal t ∧ display t = .ok text) ∧
      ((∃ t, parse text = .ok t) ↔ ∃ t, Normal t ∧ display t = .ok text) ∧
      (∀ t u, Normal t ∧ display t = .ok text → Normal u ∧ display u = .ok text → t = u) ∧
      ((∃ t, parse text = .ok t) ∨
        ∃ fault : TemplateFault, parse text = .error (.malformedTemplate fault.reason)) := by
  have hiff (t : Template) : parse text = .ok t ↔ Normal t ∧ display t = .ok text := by
    rw [parse_eq_ok_iff, display_eq_ok_iff]
  refine ⟨hiff, exists_congr hiff, fun t u ht hu => ?_, ?_⟩
  · have h := (hiff t).2 ht
    rw [(hiff u).2 hu, Except.ok.injEq] at h
    exact h.symm
  · cases h : parse text with
    | ok t => exact .inl ⟨t, rfl⟩
    | error e =>
      obtain ⟨fault, rfl⟩ := malformed_of_parse h
      exact .inr ⟨fault, rfl⟩

/-- A single percent sign is text, also right behind a directive. -/
example : parse "5 % %%META_BUFFER%%%" =
    .ok [.text "5 % ", .directive (.slot .metadata), .text "%"] := by
  decide +kernel

end Template

end TensorKernels
