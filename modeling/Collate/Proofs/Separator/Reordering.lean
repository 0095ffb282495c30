import Mathlib.Data.List.TakeWhile
import Collate.Proofs.Separator.Sequence

/-!
# Entries change places, and nothing else does

An edit of a sequence writes the texts of the entries, each once, in the order of a policy.  Among other
siblings it keeps what stands between them.  Else it writes commas and white space there, and what it
drops is commas, white space and joined lines too.

* `Text.White`               blanks, tabs and line ends;
* `Sequence.Assembled`       texts of entries with separators;
* `Sequence.KeepsGaps`, `Sequence.RenewsGaps`   the separators of the two kinds of edits;
* `Sequence.edit_permutes`   what an edit writes and what it drops.
-/

namespace Collate

/-! ## white space -/

def Text.White (t : Text) : Prop :=
  ∀ c ∈ t, c = ' ' ∨ c = '\t' ∨ c = '\r' ∨ c = '\n'

namespace Text.White

theorem append {a b : Text} (ha : a.White) (hb : b.White) : Text.White (a ++ b) :=
  fun c hc => (List.mem_append.mp hc).elim (ha c) (hb c)

theorem blanks (n : Nat) : Text.White (List.replicate n ' ') :=
  fun _ hc => .inl (List.eq_of_mem_replicate hc)

theorem indentation (t : Text) (offset : Nat) : (t.indentation offset).White := by
  intro c hc
  have hblank := List.mem_takeWhile_imp hc
  rw [Bool.or_eq_true, beq_iff_eq, beq_iff_eq] at hblank
  exact hblank.imp_right .inl

theorem entryIndent (t : Text) (start : Nat) : (Sequence.entryIndent t start).White := by
  unfold Sequence.entryIndent
  dsimp only
  split
  next => exact indentation t start
  next => exact blanks _

end Text.White

namespace Sequence
variable {t : Text} {q : Sequence}

/-! ## separators -/

/-- a text that is made of the texts of the entries in an order, each once, with the texts of `inner` between
them, and with `first` in front and `last` behind -/
structure Assembled (t : Text) (q : Sequence) (order : List Nat) (first : Text) (inner : List Text)
    (last written : Text) : Prop where
  once : order.Perm (List.range q.entries.length)
  written_eq : ∃ texts,
    order.map (fun index => q.entries[index]?.bind (fun entry => t.slice? entry.span)) = texts.map some ∧
      inner.length + 1 = texts.length ∧ written = Text.woven (first :: inner) texts ++ last

/-- the edit writes the gaps of the text again -/
structure KeepsGaps (t : Text) (q : Sequence) (e : Edit) (first : Text) (inner : List Text) (last : Text) :
    Prop where
  ends_empty : first = [] ∧ last = []
  gaps_eq : q.gaps t = (first :: inner).map some
  span_eq : e.span = q.range
  size_eq : e.replacement.size = e.span.stop - e.span.start

/-- The edit writes a comma and white space into every gap.  It replaces the range, or on several lines the
braces with all between them, which it writes again with white space and perhaps a comma behind the last
entry.  What it drops is commas and filler. -/
structure RenewsGaps (t : Text) (q : Sequence) (e : Edit) (first : Text) (inner : List Text) (last : Text) :
    Prop where
  inner_commas : ∀ separator ∈ inner, ∃ white : Text, separator = ',' :: white ∧ white.White
  ends : (e.span = q.range ∧ first = [] ∧ last = []) ∨
    t.isSingleLine q.container = false ∧ ∃ (braces : Delimiters) (white comma white' : Text), q.braces = some braces ∧
      e.span = braces.opening.join braces.closing ∧ first = '{' :: white ∧
      last = comma ++ white' ++ ['}'] ∧ white.White ∧ (comma = [] ∨ comma = [',']) ∧ white'.White
  spaced : q.Spaced t

/-- the texts of the entries in the order of a policy, with separators -/
theorem InRow.assembled (h : q.InRow t) (p : Policy) (first last : Text) {inner : List Text}
    (hlength : inner.length + 1 = q.entries.length) :
    q.Assembled t (p.order q.entries) first inner last
      (Text.woven (first :: inner) ((p.arranged q.entries).map (·.text)) ++ last) := by
  refine ⟨p.order_perm q.entries, _, ?_, hlength.trans (arranged_length p q).symm, rfl⟩
  have hslices : (p.arranged q.entries).map (fun e => t.slice? e.span)
      = (p.arranged q.entries).map (fun e => some e.text) :=
    List.map_congr_left fun e he => (h.entries_fit e ((p.arranged_perm q.entries).mem_iff.mp he)).slice
  calc (p.order q.entries).map (fun index => q.entries[index]?.bind (fun e => t.slice? e.span))
      = ((p.order q.entries).map (fun index => q.entries[index]?)).map
          (fun found => found.bind (fun e => t.slice? e.span)) := by
        rw [List.map_map]
        rfl
    _ = (p.arranged q.entries).map (fun e => t.slice? e.span) := by
        rw [p.map_order, List.map_map]
        rfl
    _ = ((p.arranged q.entries).map (·.text)).map some := by
        rw [hslices, List.map_map]
        rfl

/-! ## layouts -/

theorem lineEnd_white (h : q.Fits t) : ∃ ending, lineEnd t q.container = .ok ending ∧ ending.White := by
  obtain ⟨inside, hinside⟩ := h.container_slice
  unfold lineEnd
  rw [Text.slice, hinside]
  refine ⟨_, rfl, ?_⟩
  split
  next => simp [Text.White]
  next => simp [Text.White]

/-- on several lines without braces, a comma and a line end with an indentation in each of the gaps -/
theorem bareEdit_woven (h : q.Fits t) (p : Policy) : ∃ white : Text, white.White ∧
    bareEdit t q (p.order q.entries) = .ok ⟨q.range, Text.woven
      ([] :: List.replicate (q.entries.length - 1) (',' :: white))
      ((p.arranged q.entries).map (·.text))⟩ := by
  have htwo := h.two
  obtain ⟨ending, hending, hwhite⟩ := lineEnd_white h
  have hfirst := entry_eq (show 0 < q.entries.length by omega)
  generalize q.entries.get ⟨0, _⟩ = first at hfirst
  refine ⟨ending ++ List.replicate (t.columnOf first.span.start) ' ', hwhite.append (.blanks _), ?_⟩
  rw [bareEdit, hfirst, hending, texts_order p q, ← joinTexts_arranged h.toInRow p]
  rfl

theorem bracedEdit_woven (h : q.Fits t) (p : Policy) {braces : Delimiters} (hbraces : q.braces = some braces) :
    ∃ white separator comma white' : Text, white.White ∧ separator.White ∧ (comma = [] ∨ comma = [',']) ∧
      white'.White ∧ bracedEdit t q braces (p.order q.entries) = .ok ⟨braces.opening.join braces.closing,
        Text.woven (('{' :: white) :: List.replicate (q.entries.length - 1) (',' :: separator))
          ((p.arranged q.entries).map (·.text)) ++ (comma ++ white' ++ ['}'])⟩ := by
  obtain ⟨hopening, hclosing, -⟩ := h.braces_fit braces hbraces
  obtain ⟨ending, hending, hwhite⟩ := lineEnd_white h
  obtain ⟨e, hedit, -⟩ := bracedEdit_safe h hbraces (p.order_lt q.entries)
  have hwritten := hedit
  unfold bracedEdit at hwritten
  obtain ⟨first, -, hwritten⟩ := bind_eq_ok hwritten
  obtain ⟨last, -, hwritten⟩ := bind_eq_ok hwritten
  obtain ⟨behind, -, hwritten⟩ := bind_eq_ok hwritten
  rw [hending, Text.slice, hopening, Text.slice, hclosing, texts_order p q] at hwritten
  change Except.ok _ = Except.ok e at hwritten
  refine ⟨ending ++ entryIndent t first.span.start, ending ++ entryIndent t first.span.start,
    if startsWithComma behind then [','] else [], ending ++ t.indentation q.container.start,
    hwhite.append (.entryIndent _ _), hwhite.append (.entryIndent _ _), ?_,
    hwhite.append (.indentation _ _), ?_⟩
  · split
    next => exact .inr rfl
    next => exact .inl rfl
  · rw [hedit, ← hwritten]
    have htwo := h.two
    have hlength := arranged_length p q
    cases harranged : (p.arranged q.entries).map (·.text) with
    | nil =>
      rw [harranged, List.length_nil] at hlength
      omega
    | cons text texts =>
      rw [harranged] at hlength
      rw [entryLines_woven, ← hlength]
      simp

/-- entries with nothing between them get the same gap everywhere, alone or between the braces -/
theorem Fits.edit_cases (h : q.Fits t) (hgap : q.interleaved = false) (p : Policy) :
    (∃ white : Text, white.White ∧ q.edit t (p.order q.entries) = .ok ⟨q.range, Text.woven
      ([] :: List.replicate (q.entries.length - 1) (',' :: white)) ((p.arranged q.entries).map (·.text))⟩) ∨
    t.isSingleLine q.container = false ∧ ∃ (braces : Delimiters) (white separator comma white' : Text),
      q.braces = some braces ∧ white.White ∧ separator.White ∧ (comma = [] ∨ comma = [',']) ∧ white'.White ∧
      q.edit t (p.order q.entries) = .ok ⟨braces.opening.join braces.closing,
        Text.woven (('{' :: white) :: List.replicate (q.entries.length - 1) (',' :: separator))
          ((p.arranged q.entries).map (·.text)) ++ (comma ++ white' ++ ['}'])⟩ := by
  rw [edit, hgap, if_neg Bool.false_ne_true, Layout.of]
  cases hline : t.isSingleLine q.container with
  | true => exact .inl ⟨[' '], .blanks 1, singleLineEdit_woven h.toInRow p⟩
  | false =>
    cases hbraces : q.braces with
    | none => exact .inl (bareEdit_woven h p)
    | some braces =>
      obtain ⟨white, separator, comma, white', hfacts⟩ := bracedEdit_woven h p hbraces
      exact .inr ⟨rfl, braces, white, separator, comma, white', rfl, hfacts⟩

/-! ## edits -/

theorem InRow.edit_keepsGaps (h : q.InRow t) (hgap : q.interleaved = true) (p : Policy) :
    ∃ e first inner last, q.edit t (p.order q.entries) = .ok e ∧
      q.Assembled t (p.order q.entries) first inner last e.replacement ∧
      q.KeepsGaps t e first inner last := by
  obtain ⟨gaps, hgaps, hlength, hslice, hfill⟩ := interleavedEdit_woven h
  obtain ⟨-, -, -, -, hstop⟩ := Text.slice?_eq_some.mp hslice
  have hperm := (p.arranged_perm q.entries).map (·.text)
  refine ⟨⟨q.range, _⟩, [], gaps, [], (if_pos hgap).trans (hfill p), ?_, ⟨rfl, rfl⟩, hgaps, rfl, ?_⟩
  · have hassembled := h.assembled p [] [] hlength
    rwa [List.append_nil] at hassembled
  · have hsize : (Text.woven ([] :: gaps) ((p.arranged q.entries).map (·.text))).size
        = (Text.woven ([] :: gaps) (q.entries.map (·.text))).size :=
      Text.size_woven_perm (hlength.trans (arranged_length p q).symm) hperm
    show Text.size (Text.woven _ _) = q.range.stop - q.range.start
    rw [hsize, hstop]
    omega

theorem Fits.edit_renewsGaps (h : q.Fits t) (hspaced : q.Spaced t) (hgap : q.interleaved = false) (p : Policy) :
    ∃ e first inner last, q.edit t (p.order q.entries) = .ok e ∧
      q.Assembled t (p.order q.entries) first inner last e.replacement ∧
      q.RenewsGaps t e first inner last := by
  have hcommas {white : Text} (hwhite : white.White) :
      ∀ separator ∈ List.replicate (q.entries.length - 1) (',' :: white),
        ∃ white : Text, separator = ',' :: white ∧ white.White :=
    fun separator hmem => ⟨white, List.eq_of_mem_replicate hmem, hwhite⟩
  have hlength (separator : Text) :
      (List.replicate (q.entries.length - 1) separator).length + 1 = q.entries.length := by
    have htwo := h.two
    rw [List.length_replicate]
    omega
  obtain ⟨white, hwhite, hedit⟩ |
    ⟨hline, braces, white, separator, comma, white', hbraces, hwhite, hseparator, hcomma, hwhite', hedit⟩ :=
    h.edit_cases hgap p
  · have hassembled := h.toInRow.assembled p [] [] (hlength (',' :: white))
    rw [List.append_nil] at hassembled
    exact ⟨_, [], _, [], hedit, hassembled, hcommas hwhite, .inl ⟨rfl, rfl, rfl⟩, hspaced⟩
  · have hassembled := h.toInRow.assembled p ('{' :: white) (comma ++ white' ++ ['}'])
      (hlength (',' :: separator))
    exact ⟨_, _, _, _, hedit, hassembled, hcommas hseparator,
      .inr ⟨hline, braces, white, comma, white', hbraces, rfl, rfl, rfl, hwhite, hcomma, hwhite'⟩, hspaced⟩

/-- **An edit only makes the entries change places.**  What it writes is the texts of the entries of a
sequence, each once, in the order of a policy, with separators.  Where other siblings stand between the
entries, the separators are the gaps of the text, and the length does not change.  Else they are commas
and white space, with the braces around them, and what is dropped for them is a comma and filler in every
gap, and filler with at most one comma next to the braces. -/
theorem edit_permutes (t : Text) (d : Document) (q : Sequence) (p : Policy) (hread : Document.read t = .ok d)
    (hoffers : d.Offers q) (hloose : q.hasLooseComment d.comments = false) :
    ∃ e first inner last, q.edit t (p.order q.entries) = .ok e ∧
      q.Assembled t (p.order q.entries) first inner last e.replacement ∧
      (q.interleaved = true → q.KeepsGaps t e first inner last) ∧
      (q.interleaved = false → q.RenewsGaps t e first inner last) := by
  have hspaced := hoffers.spaced hread hloose
  obtain ⟨rfl, hplaced⟩ := Document.placed_of_read hread
  have hfits := hoffers.fits hplaced
  by_cases hgap : q.interleaved = true
  · obtain ⟨e, first, inner, last, hedit, hassembled, hkeeps⟩ := hfits.toInRow.edit_keepsGaps hgap p
    exact ⟨e, first, inner, last, hedit, hassembled, fun _ => hkeeps,
      fun hnone => absurd (hgap.symm.trans hnone) (by simp)⟩
  · rw [Bool.not_eq_true] at hgap
    obtain ⟨e, first, inner, last, hedit, hassembled, hrenews⟩ := hfits.edit_renewsGaps (hspaced hgap) hgap p
    exact ⟨e, first, inner, last, hedit, hassembled, fun hsome => absurd (hgap.symm.trans hsome) (by simp),
      fun _ => hrenews⟩

/-- a hash with a line for every pair, and symbols around another argument -/
theorem edit_permutes_lines_and_slots :
    (∃ d q e first inner last,
      Document.read "x = \x7b\r\n  b: [1, # one\n  2] \\\n ,\r\n  a: 2,\r\n\x7d".toList = .ok d ∧ d.Offers q ∧
      q.hasLooseComment d.comments = false ∧
      e.replacement = "\x7b\r\n  a: 2,\r\n  b: [1, # one\n  2],\r\n\x7d".toList ∧
      q.RenewsGaps "x = \x7b\r\n  b: [1, # one\n  2] \\\n ,\r\n  a: 2,\r\n\x7d".toList e first inner last) ∧
    ∃ d q e first inner last, Document.read "attr :b, x, :a".toList = .ok d ∧ d.Offers q ∧
      q.hasLooseComment d.comments = false ∧ e.replacement = ":a, x, :b".toList ∧
      q.KeepsGaps "attr :b, x, :a".toList e first inner last := by
  constructor
  · have hfacts : (Document.read "x = \x7b\r\n  b: [1, # one\n  2] \\\n ,\r\n  a: 2,\r\n\x7d".toList).toOption.bind
        (fun d => (d.literalSequence 8).value.map (fun q => (q.hasLooseComment d.comments, q.interleaved,
          (q.edit d.text (Policy.alphabetical.order q.entries)).toOption.map (·.replacement))))
        = some (false, false, some "\x7b\r\n  a: 2,\r\n  b: [1, # one\n  2],\r\n\x7d".toList) := by
      decide +kernel
    obtain ⟨d, hd, hfacts⟩ := Option.bind_eq_some_iff.mp hfacts
    obtain ⟨q, hq, hfacts⟩ := Option.map_eq_some_iff.mp hfacts
    obtain ⟨hloose, hgap, hedit⟩ : _ ∧ _ ∧ _ := by simpa only [Prod.mk.injEq] using hfacts
    obtain ⟨e', he', hwritten⟩ := Option.map_eq_some_iff.mp hedit
    have hread := eq_ok_of_toOption hd
    have hoffers : d.Offers q := ⟨8, [], .inl hq⟩
    obtain ⟨e, first, inner, last, hedit, -, -, hrenews⟩ :=
      edit_permutes _ d q .alphabetical hread hoffers hloose
    rw [← (Document.placed_of_read hread).1, eq_ok_of_toOption he'] at hedit
    obtain rfl := Except.ok.inj hedit
    exact ⟨d, q, e', first, inner, last, hread, hoffers, hloose, hwritten, hrenews hgap⟩
  · have hfacts : (Document.read "attr :b, x, :a".toList).toOption.bind
        (fun d => (d.symbolSequence 3 ["attr".toList]).value.map (fun q =>
          (q.hasLooseComment d.comments, q.interleaved,
            (q.edit d.text (Policy.alphabetical.order q.entries)).toOption.map (·.replacement))))
        = some (false, true, some ":a, x, :b".toList) := by
      decide +kernel
    obtain ⟨d, hd, hfacts⟩ := Option.bind_eq_some_iff.mp hfacts
    obtain ⟨q, hq, hfacts⟩ := Option.map_eq_some_iff.mp hfacts
    obtain ⟨hloose, hgap, hedit⟩ : _ ∧ _ ∧ _ := by simpa only [Prod.mk.injEq] using hfacts
    obtain ⟨e', he', hwritten⟩ := Option.map_eq_some_iff.mp hedit
    have hread := eq_ok_of_toOption hd
    have hoffers : d.Offers q := ⟨3, ["attr".toList], .inr (.inr (.inl hq))⟩
    obtain ⟨e, first, inner, last, hedit, -, hkeeps, -⟩ :=
      edit_permutes _ d q .alphabetical hread hoffers hloose
    rw [← (Document.placed_of_read hread).1, eq_ok_of_toOption he'] at hedit
    obtain rfl := Except.ok.inj hedit
    exact ⟨d, q, e', first, inner, last, hread, hoffers, hloose, hwritten, hkeeps hgap⟩

end Sequence

end Collate
