import Collate.Proofs.Sequence.Setting
import Collate.Proofs.Sequence.Woven

/-!
# Sequences in their setting

What the layout of a sequence depends on is read off the setting it stands in, so an edit writes the texts of
the entries into the renewed setting.

* `Sequence.Stands`             the entries stand in a setting;
* `Stands.edit_eq`              an edit writes into the renewed setting;
* `Stands.applyAll_edit`        what the text is then;
* `Stands.edit_settled`         in a setting that is renewed to itself, nothing changes.
-/

namespace Collate

namespace Text

theorem woven_ends {last : Text} {gaps texts : List Text} (h : gaps.length = texts.length)
    (hlast : texts.getLast? = some last) : ∃ before, woven gaps texts = before ++ last := by
  induction gaps generalizing texts with
  | nil =>
    rw [List.length_eq_zero_iff.mp h.symm] at hlast
    cases hlast
  | cons gap gaps ih =>
    cases texts with
    | nil => cases h
    | cons text texts =>
      cases texts with
      | nil =>
        obtain rfl := List.length_eq_zero_iff.mp (Nat.succ.inj h)
        obtain rfl := Option.some.inj hlast
        exact ⟨gap, List.append_nil _⟩
      | cons next texts =>
        rw [List.getLast?_cons_cons] at hlast
        obtain ⟨before, hrest⟩ := ih (Nat.succ.inj h) hlast
        exact ⟨gap ++ text ++ before, by rw [woven_cons, hrest]; simp⟩

theorem ne_of_loud {c : Char} (hc : isLoud c = true) : c ≠ ' ' ∧ c ≠ '\t' ∧ c ≠ '\r' ∧ c ≠ '\n' := by
  refine ⟨?_, ?_, ?_, ?_⟩
  all_goals
    rintro rfl
    exact absurd hc (by decide)

theorem entryIndent_cut {c : Char} (hc : isLoud c = true) (a b : Text) :
    Sequence.entryIndent (a ++ c :: b) a.size = a.openLine.indent := by
  rw [Sequence.entryIndent, indentation_cut (ne_of_loud hc), columnOf_cut, indent]

end Text

namespace Sequence
open Text (woven places)

namespace Setting
variable {s : Setting} {texts texts' : List Text} {interleaved braced : Bool}

theorem Fits.row_ends (h : s.Fits texts interleaved braced) :
    (∃ c rest, s.row texts = c :: rest ∧ isLoud c = true) ∧
      ∃ rest c, s.row texts = rest ++ [c] ∧ isLoud c = true := by
  have htwo := h.two
  have hlength : ([] :: s.gaps).length = texts.length := h.length
  have hne : texts ≠ [] := fun hnil => by
    rw [hnil] at htwo
    cases htwo
  constructor
  · obtain ⟨text, others, rfl⟩ := List.exists_cons_of_ne_nil hne
    obtain ⟨c, rest, htext, hc⟩ := (h.sharp text List.mem_cons_self).first
    exact ⟨c, rest ++ woven s.gaps others, by rw [row, Text.woven_cons, htext]; rfl, hc⟩
  · have hlast := List.getLast?_eq_some_getLast hne
    obtain ⟨before, hrow⟩ := Text.woven_ends hlength hlast
    obtain ⟨rest, c, htext, hc⟩ := (h.sharp _ (List.getLast_mem hne)).last
    exact ⟨before ++ rest, c, by rw [row, hrow, htext, List.append_assoc], hc⟩

theorem Fits.inside_ends (h : s.Fits texts interleaved braced) :
    (∃ c rest, s.inside texts = c :: rest ∧ isLoud c = true) ∧
      ∃ rest c, s.inside texts = rest ++ [c] ∧ isLoud c = true := by
  cases braced with
  | true =>
    obtain ⟨-, ⟨opening, hopening⟩, closing, hclosing⟩ := h.marked rfl
    rw [inside, hopening, hclosing]
    exact ⟨⟨'{', _, rfl, by decide⟩, ⟨_, '}', (List.append_assoc ..).symm, by decide⟩⟩
  | false =>
    obtain ⟨hopening, hclosing⟩ := h.bare rfl
    rw [inside, hopening, hclosing, List.nil_append, List.append_nil]
    exact h.row_ends

end Setting

/-- The entries of a sequence stand in a setting, with their texts, their spans and the braces there. -/
structure Stands (t : Text) (q : Sequence) (s : Setting) : Prop where
  fits : s.Fits (q.entries.map (·.text)) q.interleaved q.braces.isSome
  whole : t = s.whole (q.entries.map (·.text))
  spans : q.entries.map (·.span) = places (s.front ++ s.opening).size ([] :: s.gaps) (q.entries.map (·.text))
  container : q.container = ⟨s.front.size, (s.front ++ s.inside (q.entries.map (·.text))).size⟩
  braces : ∀ braces, q.braces = some braces → braces.opening = ⟨q.container.start, q.container.start + 1⟩ ∧
    braces.closing = ⟨q.container.stop - 1, q.container.stop⟩

theorem startsWithComma_concat (t : Text) : startsWithComma (t ++ ['}']) = startsWithComma t := by
  rw [startsWithComma, startsWithComma, Text.trimStart, Text.trimStart, List.dropWhile_append]
  cases t.dropWhile isBlank with
  | nil => rfl
  | cons c rest => rfl

namespace Stands
variable {t : Text} {q : Sequence} {s : Setting}

theorem length (h : q.Stands t s) : ([] :: s.gaps).length = (q.entries.map (·.text)).length :=
  h.fits.length

theorem whole_row (h : q.Stands t s) :
    t = s.front ++ s.opening ++ s.row (q.entries.map (·.text)) ++ (s.closing ++ s.rest) := by
  conv_lhs => rw [h.whole]
  simp only [Setting.whole, Setting.inside, List.append_assoc]

theorem exists_last (h : q.Stands t s) : ∃ last, q.entries.getLast? = some last ∧
    last.span.stop = (s.front ++ s.opening ++ s.row (q.entries.map (·.text))).size := by
  have hne : q.entries.map (·.text) ≠ [] := fun hnil => by
    have htwo := h.fits.two
    rw [hnil] at htwo
    cases htwo
  have hstop := Text.getLast?_places h.length hne (s.front ++ s.opening).size
  rw [← h.spans, List.getLast?_map, ← Text.size_append, Option.map_map] at hstop
  exact Option.map_eq_some_iff.mp hstop

theorem ends (h : q.Stands t s) : ∃ first last, q.entry 0 = .ok first ∧
    q.entry (q.entries.length - 1) = .ok last ∧ first.span.start = (s.front ++ s.opening).size ∧
    last.span.stop = (s.front ++ s.opening ++ s.row (q.entries.map (·.text))).size ∧
    q.range = ⟨first.span.start, last.span.stop⟩ := by
  obtain ⟨last, hlast, hstop⟩ := h.exists_last
  obtain ⟨first, others, hentries⟩ : ∃ first others, q.entries = first :: others := by
    refine List.exists_cons_of_ne_nil fun hnil => ?_
    rw [hnil] at hlast
    cases hlast
  have hspans := h.spans
  rw [hentries, List.map_cons, List.map_cons, places] at hspans
  obtain ⟨hfirst, hothers⟩ := List.cons.inj hspans
  have hstart : first.span.start = (s.front ++ s.opening).size := congrArg Span.start hfirst
  refine ⟨first, last, ?_, ?_, hstart, hstop, ?_⟩
  · rw [entry, hentries]
    rfl
  · rw [entry, ← List.getLast?_eq_getElem?, hlast]
  · -- the last entry is the first one, or it stands behind it
    have hle : first.span.start ≤ last.span.start ∧ first.span.stop ≤ last.span.stop := by
      have hmem := List.mem_of_getLast? hlast
      rw [hentries] at hmem
      rcases List.mem_cons.mp hmem with rfl | hmem
      · exact ⟨Nat.le_refl _, Nat.le_refl _⟩
      · have hplace : last.span ∈ others.map (·.span) := List.mem_map_of_mem hmem
        rw [hothers] at hplace
        obtain ⟨hbehind, hordered, -⟩ := Text.le_of_mem_places hplace
        have hend : first.span.stop = _ := congrArg Span.stop hfirst
        dsimp only at hend
        omega
    rw [range, hlast, hentries]
    exact Span.join_eq hle.1 hle.2

theorem isSingleLine_iff (h : q.Stands t s) :
    t.isSingleLine q.container = true ↔ '\n' ∉ s.inside (q.entries.map (·.text)) := by
  obtain ⟨-, rest, c, hinside, hc⟩ := h.fits.inside_ends
  rw [h.container, hinside, h.whole, Setting.whole, hinside]
  exact Text.isSingleLine_iff (Text.ne_of_loud hc).2.2.2 s.front rest s.rest

theorem layout_eq (h : q.Stands t s) : Layout.of t q.container
    = if '\n' ∈ s.inside (q.entries.map (·.text)) then .multi else .single := by
  rw [Layout.of]
  by_cases hline : '\n' ∈ s.inside (q.entries.map (·.text))
  · rw [if_pos hline, if_neg (fun hsingle => h.isSingleLine_iff.mp hsingle hline)]
  · rw [if_neg hline, if_pos (h.isSingleLine_iff.mpr hline)]

theorem lineEnd_eq (h : q.Stands t s) :
    lineEnd t q.container = .ok (s.inside (q.entries.map (·.text))).ending := by
  have hslice : t.slice? q.container = some (s.inside (q.entries.map (·.text))) := by
    rw [h.container, h.whole]
    exact Text.slice?_eq_some.mpr ⟨s.front, s.rest, rfl, rfl, Text.size_append _ _⟩
  rw [lineEnd, Text.slice, hslice]
  rfl

theorem exists_row (h : q.Stands t s) :
    ∃ c rest, t = (s.front ++ s.opening) ++ c :: rest ∧ isLoud c = true := by
  obtain ⟨⟨c, rest, hrow, hc⟩, -⟩ := h.fits.row_ends
  refine ⟨c, rest ++ (s.closing ++ s.rest), h.whole_row.trans ?_, hc⟩
  rw [hrow, List.append_assoc]
  rfl

theorem exists_marked_cut (h : q.Stands t s) (hmarked : q.braces.isSome = true) : ∃ before behind,
    s.opening = '{' :: before ∧ s.closing = behind ++ ['}'] ∧
      t = s.front ++ '{' :: (before ++ s.row (q.entries.map (·.text)) ++ s.closing ++ s.rest) ∧
      t = s.front ++ s.opening ++ s.row (q.entries.map (·.text)) ++ behind ++ '}' :: s.rest ∧
      q.container = ⟨s.front.size,
        (s.front ++ s.opening ++ s.row (q.entries.map (·.text)) ++ behind).size + 1⟩ := by
  obtain ⟨-, ⟨before, hopening⟩, behind, hclosing⟩ := h.fits.marked hmarked
  have hwhole : t = s.front ++ s.inside (q.entries.map (·.text)) ++ s.rest := h.whole
  have hinside : s.front ++ s.inside (q.entries.map (·.text))
      = s.front ++ s.opening ++ s.row (q.entries.map (·.text)) ++ behind ++ ['}'] := by
    rw [Setting.inside, hclosing]
    simp
  refine ⟨before, behind, hopening, hclosing, ?_, ?_, ?_⟩
  · rw [hwhole, Setting.inside, hopening]
    simp
  · rw [hwhole, hinside]
    simp
  · rw [h.container, hinside, Text.size_append _ ['}']]
    rfl

/-- the braces stand at the ends of the container, and the closing one behind the rest of its last piece -/
theorem exists_marks (h : q.Stands t s) {braces : Delimiters} (hbraces : q.braces = some braces) :
    t.slice? braces.opening = some ['{'] ∧ t.slice? braces.closing = some ['}'] ∧
      braces.opening.join braces.closing = q.container ∧
      (∃ behind, t = s.front ++ '{' :: behind) ∧
      ∃ behind, s.closing = behind ++ ['}'] ∧
        t.slice? ⟨(s.front ++ s.opening ++ s.row (q.entries.map (·.text))).size, braces.closing.start⟩
          = some behind := by
  obtain ⟨before, behind, hopening, hclosing, hfront, hback, hcontainer⟩ :=
    h.exists_marked_cut (by rw [hbraces]; rfl)
  obtain ⟨hfirst, hlast⟩ := h.braces braces hbraces
  rw [hfirst, hlast, hcontainer, Nat.add_sub_cancel]
  refine ⟨?_, ?_, ?_, ⟨_, hfront⟩, behind, hclosing, ?_⟩
  · exact Text.slice?_eq_some.mpr ⟨s.front, _, by rw [List.append_assoc]; exact hfront, rfl, rfl⟩
  · exact Text.slice?_eq_some.mpr ⟨_, s.rest, by rw [List.append_assoc]; exact hback, rfl, rfl⟩
  · have hsize : s.front.size + 1
        ≤ (s.front ++ s.opening ++ s.row (q.entries.map (·.text)) ++ behind).size := by
      rw [hopening]
      simp only [Text.size_append, Text.size_cons]
      have hc : '{'.utf8Size = 1 := rfl
      omega
    exact Span.join_eq (Nat.le_of_succ_le hsize) (Nat.le_succ_of_le hsize)
  · exact Text.slice?_eq_some.mpr ⟨_, '}' :: s.rest, hback, rfl, Text.size_append _ _⟩

/-! ## edits -/

section
variable {order : List Nat} {texts : List Text} (htexts : q.texts order = .ok texts)
  (hlength : texts.length = q.entries.length)
include htexts hlength

theorem interleavedEdit_eq (h : q.Stands t s) (horder : order.length = q.entries.length) :
    interleavedEdit t q order = .ok ⟨q.range, s.row texts⟩ := by
  obtain ⟨first, last, -, -, hstart, -, hrange⟩ := h.ends
  have hfill := fillSlots_places h.length (hlength.trans (List.length_map _).symm) _ _
    (h.whole_row.trans (List.append_assoc ..)) h.spans
  have hcursor : q.range.start = (s.front ++ s.opening).size := by rw [hrange, hstart]
  rw [interleavedEdit, List.take_of_length_le (Nat.le_of_eq horder), htexts, hcursor]
  show (do return ⟨_, ← fillSlots t _ q.entries texts⟩ : Except Fault Edit) = _
  rw [hfill]
  rfl

theorem singleLineEdit_eq (h : q.Stands t s) : singleLineEdit q order
    = .ok ⟨q.range, woven ([] :: List.replicate (q.entries.length - 1) [',', ' ']) texts⟩ := by
  have htwo := h.fits.two
  rw [List.length_map] at htwo
  rw [singleLineEdit, htexts, ← joinTexts_woven htwo hlength]
  rfl

theorem bareEdit_eq (h : q.Stands t s) : bareEdit t q order
    = .ok ⟨q.range, woven ([] :: List.replicate (q.entries.length - 1)
      (',' :: ((s.inside (q.entries.map (·.text))).ending ++ List.replicate s.line.size ' '))) texts⟩ := by
  have htwo := h.fits.two
  rw [List.length_map] at htwo
  obtain ⟨first, last, hfirst, -, hstart, -, -⟩ := h.ends
  obtain ⟨c, rest, hcut, -⟩ := h.exists_row
  have hcolumn : t.columnOf first.span.start = s.line.size := by
    rw [hstart, hcut]
    exact Text.columnOf_cut _ _
  rw [bareEdit, hfirst, h.lineEnd_eq, htexts, ← joinTexts_woven htwo hlength, ← hcolumn]
  rfl

theorem bracedEdit_eq (h : q.Stands t s) {braces : Delimiters} (hbraces : q.braces = some braces) :
    bracedEdit t q braces order = .ok ⟨q.container,
      woven (('{' :: ((s.inside (q.entries.map (·.text))).ending ++ s.line.indent)) ::
          List.replicate (q.entries.length - 1)
            (',' :: ((s.inside (q.entries.map (·.text))).ending ++ s.line.indent))) texts ++
        ((if startsWithComma s.closing then [','] else []) ++
          ((s.inside (q.entries.map (·.text))).ending ++ (s.front.openLine.blanks ++ ['}'])))⟩ := by
  obtain ⟨first, last, hfirst, hlast, hstart, hstop, -⟩ := h.ends
  obtain ⟨c, row, hcut, hc⟩ := h.exists_row
  obtain ⟨hopening, hclosing, hjoin, ⟨inner, hbrace⟩, behind, hend, hbehind⟩ := h.exists_marks hbraces
  have hindent : entryIndent t first.span.start = s.line.indent := by
    rw [hstart, hcut]
    exact Text.entryIndent_cut hc _ _
  have hbase : t.indentation q.container.start = s.front.openLine.blanks := by
    rw [h.container, hbrace]
    exact Text.indentation_cut (by decide) _ _
  have hcomma : startsWithComma behind = startsWithComma s.closing := by
    rw [hend, startsWithComma_concat]
  rw [← hstop] at hbehind
  rw [bracedEdit, hfirst, hlast, h.lineEnd_eq, htexts, Text.slice, hopening, Text.slice, hclosing]
  show (do
    let behind ← t.slice ⟨last.span.stop, braces.closing.start⟩
    return Edit.mk (braces.opening.join braces.closing) (['{'] ++ _ ++
      entryLines (entryIndent t first.span.start) _ (startsWithComma behind) texts ++
      t.indentation q.container.start ++ ['}'])) = _
  rw [Text.slice, hbehind, hjoin, hindent, hbase]
  show Except.ok (Edit.mk _ (_ ++ _ ++ entryLines _ _ (startsWithComma behind) texts ++ _ ++ _)) = _
  have htwo := h.fits.two
  rw [List.length_map] at htwo
  cases texts with
  | nil =>
    rw [List.length_nil] at hlength
    omega
  | cons text texts =>
    rw [hcomma, entryLines_woven, ← hlength]
    simp

/-- **An edit writes into the renewed setting.**  It replaces the range of the entries and leaves the ends of
the container as they are, or it replaces the whole container. -/
theorem edit_eq (h : q.Stands t s) (horder : order.length = q.entries.length) :
    let s' := s.renewed (q.entries.map (·.text)) q.interleaved q.braces.isSome
    (q.edit t order = .ok ⟨q.range, s'.row texts⟩ ∧ s'.opening = s.opening ∧ s'.closing = s.closing) ∨
      q.edit t order = .ok ⟨q.container, s'.inside texts⟩ := by
  dsimp only
  rw [edit, h.layout_eq]
  cases hgap : q.interleaved with
  | true =>
    rw [if_pos rfl, Setting.renewed_among]
    exact .inl ⟨h.interleavedEdit_eq htexts hlength horder, rfl, rfl⟩
  | false =>
    rw [if_neg Bool.false_ne_true]
    by_cases hline : '\n' ∈ s.inside (q.entries.map (·.text))
    · rw [if_pos hline]
      cases hbraces : q.braces with
      | some braces =>
        rw [Option.isSome_some, Setting.renewed_braced hline, List.length_map]
        refine .inr ((h.bracedEdit_eq htexts hlength hbraces).trans ?_)
        have hne : texts ≠ [] := fun hnil => by
          have htwo := h.fits.two
          rw [List.length_map, ← hlength, hnil] at htwo
          cases htwo
        rw [Text.woven_first hne]
        rfl
      | none =>
        rw [Option.isSome_none, Setting.renewed_bare hline, List.length_map]
        exact .inl ⟨h.bareEdit_eq htexts hlength, rfl, rfl⟩
    · rw [if_neg hline, Setting.renewed_single hline, List.length_map]
      exact .inl ⟨h.singleLineEdit_eq htexts hlength, rfl, rfl⟩

end

theorem applyAll_edit (h : q.Stands t s) {order : List Nat} {texts : List Text}
    (htexts : q.texts order = .ok texts) (hlength : texts.length = q.entries.length)
    (horder : order.length = q.entries.length) : ∃ e, q.edit t order = .ok e ∧ Edit.applyAll t [e]
      = .ok ((s.renewed (q.entries.map (·.text)) q.interleaved q.braces.isSome).whole texts) := by
  obtain ⟨first, last, -, -, hstart, hstop, hrange⟩ := h.ends
  rcases h.edit_eq htexts hlength horder with ⟨hedit, hopening, hclosing⟩ | hedit
  · refine ⟨_, hedit, ?_⟩
    rw [hrange, hstart, hstop, Setting.whole, Setting.inside, hopening, hclosing, Setting.renewed_front,
      Setting.renewed_rest]
    conv_lhs => rw [h.whole_row]
    rw [Edit.applyAll_single]
    simp
  · refine ⟨_, hedit, ?_⟩
    rw [h.container, Setting.whole, Setting.renewed_front, Setting.renewed_rest]
    conv_lhs => rw [h.whole, Setting.whole]
    exact Edit.applyAll_single

/-- an edit of a settled sequence writes what is there -/
theorem edit_settled (h : q.Stands t s)
    (hsettled : s.renewed (q.entries.map (·.text)) q.interleaved q.braces.isSome = s) :
    ∃ e, q.edit t (List.range q.entries.length) = .ok e ∧ t.slice? e.span = some e.replacement := by
  obtain ⟨first, last, -, -, hstart, hstop, hrange⟩ := h.ends
  have htexts : q.texts (List.range q.entries.length) = .ok (q.entries.map (·.text)) :=
    texts_eq _ _ (Policy.range_map_getElem? q.entries)
  rcases h.edit_eq htexts (List.length_map _) List.length_range with ⟨hedit, -, -⟩ | hedit
  · refine ⟨_, hedit, ?_⟩
    rw [hsettled, hrange, hstart, hstop]
    exact Text.slice?_eq_some.mpr ⟨s.front ++ s.opening, s.closing ++ s.rest, h.whole_row, rfl,
      Text.size_append _ _⟩
  · refine ⟨_, hedit, ?_⟩
    rw [hsettled, h.container]
    exact Text.slice?_eq_some.mpr ⟨s.front, s.rest, h.whole, rfl, Text.size_append _ _⟩

end Stands

end Sequence

end Collate
