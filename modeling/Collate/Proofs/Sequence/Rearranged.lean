import Mathlib.Data.List.TakeWhile
import Collate.Proofs.Separator.Sequence
import Collate.Proofs.Sequence.Standing

/-!
# Rearranged sequences

An edit leaves a text in which the entries of a sequence stand in another order, in a renewed setting.  There
the sequence is in order, and an edit of it writes what is there.

* `Sequence.setting`          the pieces around the entries of a sequence;
* `Document.Offers.stands`    the entries stand in it;
* `Sequence.rewritten`        the text with the entries in the order of a policy;
* `Sequence.rearranged`       the sequence in it;
* `Sequence.Settled`          the sequence is in order, and an edit changes nothing;
* `Sequence.edit_settles`     what an edit leaves is settled.
-/

namespace Collate

namespace Text

/-- the text between two offsets, or nothing if they do not fit it -/
def part (t : Text) (start stop : Nat) : Text :=
  (t.slice? ⟨start, stop⟩).getD []

theorem part_of_slice? {t piece : Text} {start stop : Nat} (h : t.slice? ⟨start, stop⟩ = some piece) :
    t.part start stop = piece := by
  rw [part, h]
  rfl

/-- from one token to another, a text begins and ends with loud characters -/
theorem Edged.sharp {t piece : Text} {span : Span} (h : t.Edged span) (hslice : t.slice? span = some piece)
    (hne : piece ≠ []) : piece.Sharp := by
  have hfits (token : Token) (hmem : token ∈ t.tokens) : token.Fits t := t.tokens_fit.1 token hmem
  constructor
  · obtain ⟨token, hmem, hstart⟩ := h.first
    obtain ⟨c, rest, htext, hc⟩ := (tokens_sharp hmem).first
    have hhead := head?_of_slice? hslice (hfits token hmem).slice hstart.symm hne (by simp [htext])
    rw [htext] at hhead
    obtain ⟨rest', hpiece⟩ := List.head?_eq_some_iff.mp hhead
    exact ⟨c, rest', hpiece, hc⟩
  · obtain ⟨token, hmem, hstop⟩ := h.last
    obtain ⟨rest, c, htext, hc⟩ := (tokens_sharp hmem).last
    have hlast := getLast?_of_slice? hslice (hfits token hmem).slice hstop.symm hne (by simp [htext])
    rw [htext, List.getLast?_concat] at hlast
    obtain ⟨rest', hpiece⟩ := List.getLast?_eq_some_iff.mp hlast
    exact ⟨rest', c, hpiece, hc⟩

end Text

namespace Sequence
open Text (places)

/-! ## where a sequence stands -/

def setting (t : Text) (q : Sequence) : Setting where
  front := t.part 0 q.container.start
  opening := t.part q.container.start q.range.start
  gaps := (q.gaps t).tail.map (·.getD [])
  closing := t.part q.range.stop q.container.stop
  rest := t.part q.container.stop t.size

variable {t : Text} {q : Sequence}

theorem Fits.exists_setting (h : q.Fits t) : ∃ s : Setting, q.gaps t = ([] :: s.gaps).map some ∧
    s.gaps.length + 1 = q.entries.length ∧ t = s.whole (q.entries.map (·.text)) ∧
    q.container = ⟨s.front.size, (s.front ++ s.inside (q.entries.map (·.text))).size⟩ ∧
    q.range = ⟨(s.front ++ s.opening).size, (s.front ++ s.opening ++ s.row (q.entries.map (·.text))).size⟩ ∧
    q.entries.map (·.span) = places (s.front ++ s.opening).size ([] :: s.gaps) (q.entries.map (·.text)) := by
  obtain ⟨gaps, hgaps, hlength, hrow, hspans⟩ := h.toInRow.exists_row
  obtain ⟨inside, hinside⟩ := h.container_slice
  obtain ⟨front, rest, ht, hcontainer⟩ := Text.exists_cut hinside
  obtain ⟨before, behind, ht', hrange⟩ := Text.exists_cut hrow
  obtain ⟨hstart, hstop⟩ := Replaces.inside (.inl rfl) h
  rw [hcontainer, hrange] at hstart hstop
  have hcut : front ++ (inside ++ rest)
      = before ++ (Text.woven ([] :: gaps) (q.entries.map (·.text)) ++ behind) := by
    rw [← List.append_assoc, ← List.append_assoc, ← ht, ← ht']
  obtain ⟨opening, rfl, -⟩ := Text.exists_between hcut hstart
  obtain ⟨closing, hclosing, rfl⟩ := Text.exists_between (ht'.symm.trans ht) hstop
  have hinner : inside = opening ++ Text.woven ([] :: gaps) (q.entries.map (·.text)) ++ closing :=
    List.append_cancel_left (hclosing.trans (by simp only [List.append_assoc]))
  rw [hinner] at ht hcontainer
  rw [hrange] at hspans
  exact ⟨⟨front, opening, gaps, closing, rest⟩, hgaps, hlength, ht, hcontainer, hrange, hspans⟩

section
variable {s : Setting} (hwhole : t = s.whole (q.entries.map (·.text)))
  (hcontainer : q.container = ⟨s.front.size, (s.front ++ s.inside (q.entries.map (·.text))).size⟩)
  (hrange : q.range =
    ⟨(s.front ++ s.opening).size, (s.front ++ s.opening ++ s.row (q.entries.map (·.text))).size⟩)
include hwhole hcontainer hrange

theorem slices_around : t.slice? ⟨0, q.container.start⟩ = some s.front ∧
    t.slice? ⟨q.container.start, q.range.start⟩ = some s.opening ∧
    t.slice? ⟨q.range.stop, q.container.stop⟩ = some s.closing ∧
    t.slice? ⟨q.container.stop, t.size⟩ = some s.rest := by
  rw [Setting.whole, Setting.inside] at hwhole
  rw [hcontainer, hrange, Setting.inside]
  generalize s.row (q.entries.map (·.text)) = row at *
  refine ⟨?_, ?_, ?_, ?_⟩
  · exact Text.slice?_eq_some.mpr ⟨[], s.opening ++ row ++ s.closing ++ s.rest, by rw [hwhole]; simp, rfl,
      (Nat.zero_add _).symm⟩
  · exact Text.slice?_eq_some.mpr ⟨s.front, row ++ s.closing ++ s.rest, by rw [hwhole]; simp, rfl,
      Text.size_append _ _⟩
  · refine Text.slice?_eq_some.mpr ⟨s.front ++ s.opening ++ row, s.rest, by rw [hwhole]; simp, rfl, ?_⟩
    simp [Nat.add_assoc]
  · refine Text.slice?_eq_some.mpr ⟨_, [], hwhole.trans (List.append_nil _).symm, rfl, ?_⟩
    rw [← Text.size_append, ← hwhole]

theorem setting_eq (hgaps : q.gaps t = ([] :: s.gaps).map some) : q.setting t = s := by
  obtain ⟨hfront, hopening, hclosing, hrest⟩ := slices_around hwhole hcontainer hrange
  have htail : (q.gaps t).tail.map (·.getD []) = s.gaps := by
    rw [hgaps, List.map_cons, List.tail_cons, List.map_map]
    exact List.map_id s.gaps
  rw [setting, Text.part_of_slice? hfront, Text.part_of_slice? hopening, htail, Text.part_of_slice? hclosing,
    Text.part_of_slice? hrest]

end

/-- the braces stand at the ends of the container, around the entries -/
theorem Fits.marks (h : q.Fits t) {braces : Delimiters} (hbraces : q.braces = some braces) :
    braces.opening = ⟨q.container.start, q.container.start + 1⟩ ∧
      braces.closing = ⟨q.container.stop - 1, q.container.stop⟩ ∧
      q.container.start + 1 ≤ q.range.start ∧ q.range.stop + 1 ≤ q.container.stop := by
  obtain ⟨hopening, hclosing, hbetween, hstart, hstop⟩ := h.braces_fit braces hbraces
  obtain ⟨first, last, hfirst, hlast, hrange, -⟩ := h.toInRow.range_eq
  have h₁ : braces.opening.stop ≤ first.span.start := (hbetween first (List.mem_of_head? hfirst)).1
  have h₂ : last.span.stop ≤ braces.closing.start := (hbetween last (List.mem_of_getLast? hlast)).2
  have h₃ : braces.opening.stop = braces.opening.start + 1 := Text.stop_of_slice? hopening
  have h₄ : braces.closing.stop = braces.closing.start + 1 := Text.stop_of_slice? hclosing
  rw [hrange, ← hstart, ← hstop]
  dsimp only
  refine ⟨?_, ?_, by omega, by omega⟩
  · rw [← h₃]
  · rw [h₄, Nat.add_sub_cancel, ← h₄]

theorem Fits.marked_ends (h : q.Fits t) {braces : Delimiters} (hbraces : q.braces = some braces)
    {opening closing : Text} (hfront : t.slice? ⟨q.container.start, q.range.start⟩ = some opening)
    (hback : t.slice? ⟨q.range.stop, q.container.stop⟩ = some closing) :
    (∃ rest, opening = '{' :: rest) ∧ ∃ rest, closing = rest ++ ['}'] := by
  obtain ⟨hopening, hclosing, -⟩ := h.braces_fit braces hbraces
  obtain ⟨hfirst, hlast, hstart, hstop⟩ := h.marks hbraces
  have hne {start stop : Nat} {piece : Text} (hslice : t.slice? ⟨start, stop⟩ = some piece)
      (hlt : start + 1 ≤ stop) : piece ≠ [] := fun hnil => by
    have hsize := Text.stop_of_slice? hslice
    rw [hnil, Text.size_nil] at hsize
    dsimp only at hsize
    omega
  have hhead := Text.head?_of_slice? hfront hopening (by rw [hfirst]) (hne hfront hstart) (by simp)
  have hend := Text.getLast?_of_slice? hback hclosing (by rw [hlast]) (hne hback hstop) (by simp)
  exact ⟨List.head?_eq_some_iff.mp hhead, List.getLast?_eq_some_iff.mp hend⟩

/-- entries in a row stand in the pieces around them, inside a container that may have braces -/
theorem Fits.stands (h : q.Fits t) (hedged : ∀ e ∈ q.entries, t.Edged e.span)
    (hbare : q.braces = none → q.container = q.range) (hamong : q.interleaved = true → q.braces = none) :
    q.Stands t (q.setting t) := by
  obtain ⟨s, hgaps, hlength, hwhole, hcontainer, hrange, hspans⟩ := h.exists_setting
  rw [setting_eq hwhole hcontainer hrange hgaps]
  refine ⟨⟨?_, ?_, ?_, fun hnone => ?_, fun hsome => ?_⟩, hwhole, hspans, hcontainer, fun braces hbraces => ?_⟩
  · rw [List.length_map]
    exact h.two
  · rw [List.length_map]
    exact hlength
  · intro text htext
    obtain ⟨e, he, rfl⟩ := List.mem_map.mp htext
    have hfit := h.entries_fit e he
    refine (hedged e he).sharp hfit.slice fun hnil => ?_
    have hstop := Text.stop_of_slice? hfit.slice
    have hne := hfit.nonempty
    rw [hnil, Text.size_nil] at hstop
    omega
  · -- without braces nothing stands between the ends of the entries and those of the container
    have hsame := hbare (Option.not_isSome_iff_eq_none.mp (by rw [hnone]; exact Bool.false_ne_true))
    rw [hcontainer, hrange, Setting.inside] at hsame
    obtain ⟨hstart, hstop⟩ := Span.mk.inj hsame
    simp only [Text.size_append] at hstart hstop
    exact ⟨Text.size_eq_zero (by omega), Text.size_eq_zero (by omega)⟩
  · obtain ⟨braces, hbraces⟩ := Option.isSome_iff_exists.mp hsome
    obtain ⟨-, hfront, hback, -⟩ := slices_around hwhole hcontainer hrange
    refine ⟨Bool.eq_false_iff.mpr fun hamid => ?_, h.marked_ends hbraces hfront hback⟩
    rw [hamong hamid] at hbraces
    cases hbraces
  · obtain ⟨hfirst, hlast, -⟩ := h.marks hbraces
    exact ⟨hfirst, hlast⟩

end Sequence

/-- the entries of a sequence of a document stand in the pieces around them -/
theorem Document.Offers.stands {t : Text} {d : Document} {q : Sequence} (hread : Document.read t = .ok d)
    (h : d.Offers q) : q.Stands t (q.setting t) := by
  have hedged := h.edged hread
  have hbare := h.container_eq hread
  have hamong := h.braces_eq hread
  obtain ⟨rfl, hplaced⟩ := Document.placed_of_read hread
  exact (h.fits hplaced).stands hedged hbare hamong

def Entry.moved (t : Text) (e : Entry) (span : Span) : Entry :=
  { e with span := span, line := t.firstLine span }

namespace Sequence
open Text (places)
variable {t : Text} {q : Sequence} {s : Setting} {p : Policy}

/-! ## where an edit puts it -/

/-- the pieces that an edit writes around the entries -/
def renewed (t : Text) (q : Sequence) : Setting :=
  (q.setting t).renewed (q.entries.map (·.text)) q.interleaved q.braces.isSome

def rewritten (t : Text) (q : Sequence) (p : Policy) : Text :=
  (q.renewed t).whole ((p.arranged q.entries).map (·.text))

/-- the sequence there: the entries in their new places, with the ends of the container and of the braces
shifted by the change of length -/
def rearranged (t : Text) (q : Sequence) (p : Policy) : Sequence :=
  let t' := q.rewritten t p
  let s := q.renewed t
  let arranged := p.arranged q.entries
  let spans := places (s.front ++ s.opening).size ([] :: s.gaps) (arranged.map (·.text))
  let shift := fun offset => offset + t'.size - t.size
  { entries := (arranged.zip spans).map (fun placed => placed.1.moved t' placed.2)
    container := ⟨q.container.start, shift q.container.stop⟩
    braces := q.braces.map (fun braces =>
      ⟨braces.opening, ⟨shift braces.closing.start, shift braces.closing.stop⟩⟩)
    interleaved := q.interleaved }

/-- the entries are texts under their spans, one behind the other in the container, which has the braces at
its ends -/
structure Laid (t : Text) (q : Sequence) : Prop where
  slices : ∀ e ∈ q.entries, t.slice? e.span = some e.text
  ordered : q.entries.Pairwise (fun a b => a.span.Precedes b.span)
  covers : ∀ e ∈ q.entries, q.container.start ≤ e.span.start ∧ e.span.stop ≤ q.container.stop
  marked : ∀ braces, q.braces = some braces →
    t.slice? braces.opening = some ['{'] ∧ t.slice? braces.closing = some ['}'] ∧
      braces.opening.start = q.container.start ∧ braces.closing.stop = q.container.stop

/-- the sequence is in the order of a policy, and an edit writes what is there -/
structure Settled (t : Text) (q : Sequence) (p : Policy) : Prop where
  identity : isIdentity (p.order q.entries) = true
  unchanged : ∃ e, q.edit t (List.range q.entries.length) = .ok e ∧ t.slice? e.span = some e.replacement

theorem Stands.laid (h : q.Stands t s) : q.Laid t := by
  refine ⟨fun e he => ?_, ?_, fun e he => ?_, fun braces hbraces => ?_⟩
  · have hslices := Text.slice?_places h.length _ _ (h.whole_row.trans (List.append_assoc ..))
    rw [← h.spans, List.map_map, List.map_map] at hslices
    exact List.map_inj_left.mp hslices e he
  · have hordered := Text.pairwise_places ([] :: s.gaps) (q.entries.map (·.text)) (s.front ++ s.opening).size
    rw [← h.spans] at hordered
    exact List.pairwise_map.mp hordered
  · have hplace : e.span ∈ places (s.front ++ s.opening).size ([] :: s.gaps) (q.entries.map (·.text)) := by
      rw [← h.spans]
      exact List.mem_map_of_mem he
    obtain ⟨hstart, -, hstop⟩ := Text.le_of_mem_places hplace
    rw [h.container, Setting.inside, Setting.row]
    simp only [Text.size_append] at hstart hstop ⊢
    omega
  · obtain ⟨hopening, hclosing, -⟩ := h.exists_marks hbraces
    obtain ⟨hfirst, hlast⟩ := h.braces braces hbraces
    exact ⟨hopening, hclosing, by rw [hfirst], by rw [hlast]⟩

/-! ## what is left -/

theorem texts_perm (p : Policy) (q : Sequence) :
    (q.entries.map (·.text)).Perm ((p.arranged q.entries).map (·.text)) :=
  ((p.arranged_perm q.entries).map _).symm

theorem rearranged_braced : (q.rearranged t p).braces.isSome = q.braces.isSome :=
  Option.isSome_map

section
variable (h : q.Stands t (q.setting t))
include h

theorem Stands.renewed_length :
    ([] :: (q.renewed t).gaps).length = ((p.arranged q.entries).map (·.text)).length := by
  rw [arranged_length, List.length_cons, renewed, h.fits.renewed_length, List.length_map]

/-- the entries are arranged, and they are given the places between the new gaps -/
theorem Stands.exists_placed : ∃ placed : List (Entry × Span),
    (q.rearranged t p).entries = placed.map (fun placed => placed.1.moved (q.rewritten t p) placed.2) ∧
    placed.map Prod.fst = p.arranged q.entries ∧
    placed.map Prod.snd = places ((q.renewed t).front ++ (q.renewed t).opening).size
      ([] :: (q.renewed t).gaps) ((p.arranged q.entries).map (·.text)) := by
  have hlength := (Text.length_places (h.renewed_length (p := p))
    ((q.renewed t).front ++ (q.renewed t).opening).size).trans (List.length_map _)
  exact ⟨_, rfl, List.map_fst_zip (Nat.le_of_eq hlength.symm), List.map_snd_zip (Nat.le_of_eq hlength)⟩

theorem Stands.rearranged_texts :
    (q.rearranged t p).entries.map (·.text) = (p.arranged q.entries).map (·.text) := by
  obtain ⟨placed, hentries, hfst, -⟩ := h.exists_placed (p := p)
  rw [hentries, ← hfst, List.map_map, List.map_map]
  rfl

theorem Stands.rearranged_pairwise : (q.rearranged t p).entries.Pairwise (p.le · ·) := by
  obtain ⟨placed, hentries, hfst, -⟩ := h.exists_placed (p := p)
  have hordered := p.arranged_pairwise q.entries
  rw [← hfst] at hordered
  rw [hentries]
  exact List.pairwise_map.mpr (List.pairwise_map.mp hordered)

/-- the new container ends as far from the end of the text as the old one -/
theorem Stands.container_shift : (q.renewed t).front.size = q.container.start ∧
    ((q.renewed t).front ++ (q.renewed t).inside ((p.arranged q.entries).map (·.text))).size
      = q.container.stop + (q.rewritten t p).size - t.size := by
  have hold : t.size = q.container.stop + (q.setting t).rest.size := by
    conv_lhs => rw [h.whole, Setting.whole, Text.size_append]
    rw [h.container]
  have hnew : (q.rewritten t p).size = ((q.renewed t).front ++
      (q.renewed t).inside ((p.arranged q.entries).map (·.text))).size + (q.setting t).rest.size := by
    rw [rewritten, Setting.whole, Text.size_append _ (q.renewed t).rest, renewed, Setting.renewed_rest]
  refine ⟨?_, by omega⟩
  rw [renewed, Setting.renewed_front, h.container]

/-- the rearranged sequence stands in the renewed setting -/
theorem Stands.rearranged : (q.rearranged t p).Stands (q.rewritten t p) (q.renewed t) := by
  have htexts := h.rearranged_texts (p := p)
  obtain ⟨hstart, hstop⟩ := h.container_shift (p := p)
  refine ⟨?_, ?_, ?_, ?_, fun braces hbraces => ?_⟩
  · rw [htexts, rearranged_braced]
    exact h.fits.renewed (texts_perm p q)
  · rw [htexts]
    rfl
  · obtain ⟨placed, hentries, -, hsnd⟩ := h.exists_placed (p := p)
    rw [htexts, hentries, List.map_map, ← hsnd]
    rfl
  · rw [htexts, hstart, hstop]
    rfl
  · obtain ⟨marks, hmarks, rfl⟩ := Option.map_eq_some_iff.mp hbraces
    obtain ⟨hfirst, hlast⟩ := h.braces marks hmarks
    have hsize : marks.closing.stop = marks.closing.start + 1 := Text.stop_of_slice? (h.exists_marks hmarks).2.1
    refine ⟨hfirst, ?_⟩
    rw [hlast] at hsize ⊢
    dsimp only at hsize
    exact congrArg₂ Span.mk (by simp only [Sequence.rearranged]; omega) rfl

end

/-- **What an edit leaves is settled.**  In the text that it leaves, the entries stand in the order of the
policy, and another edit writes what is there: line ends, indentations and a trailing comma are found again as
they were written. -/
theorem edit_settles (t : Text) (d : Document) (q : Sequence) (p : Policy) (hread : Document.read t = .ok d)
    (hoffers : d.Offers q) :
    ∃ e, q.edit t (p.order q.entries) = .ok e ∧ Edit.applyAll t [e] = .ok (q.rewritten t p) ∧
      (q.rearranged t p).entries.map (·.text) = (p.arranged q.entries).map (·.text) ∧
      (q.rearranged t p).Laid (q.rewritten t p) ∧ (q.rearranged t p).Settled (q.rewritten t p) p := by
  have hstands := hoffers.stands hread
  have hmoved := hstands.rearranged (p := p)
  obtain ⟨e, hedit, happly⟩ := hstands.applyAll_edit (texts_order p q) (arranged_length p q)
    (p.order_length q.entries)
  refine ⟨e, hedit, happly, hstands.rearranged_texts, hmoved.laid, ?_, ?_⟩
  · exact (p.isIdentity_order _).mpr hstands.rearranged_pairwise
  · refine hmoved.edit_settled ?_
    rw [hstands.rearranged_texts, rearranged_braced]
    exact hstands.fits.renewed_renewed (texts_perm p q)

/-- a literal with its first entry on the line of the brace, and another one on several lines -/
theorem edit_settles_brace_line :
    let t := "\tx = \x7b b: [1,\r\n  2],\r\n\ta: 2, \x7d".toList
    let t' := "\tx = \x7b\r\n       a: 2,\r\n       b: [1,\r\n  2],\r\n\t\x7d".toList
    ∃ d q e, Document.read t = .ok d ∧ d.Offers q ∧ Edit.applyAll t [e] = .ok t' ∧
      (q.rearranged t .alphabetical).Laid t' ∧ (q.rearranged t .alphabetical).Settled t' .alphabetical := by
  intro t t'
  have hfacts : (Document.read t).toOption.bind (fun d => (d.literalSequence 8).value.map (fun q =>
      q.rewritten t .alphabetical)) = some t' := by
    decide +kernel
  obtain ⟨d, hd, hfacts⟩ := Option.bind_eq_some_iff.mp hfacts
  obtain ⟨q, hq, hwritten⟩ := Option.map_eq_some_iff.mp hfacts
  have hread := eq_ok_of_toOption hd
  have hoffers : d.Offers q := ⟨8, [], .inl hq⟩
  obtain ⟨e, -, happly, -, hlaid, hsettled⟩ := edit_settles t d q .alphabetical hread hoffers
  rw [hwritten] at happly hlaid hsettled
  exact ⟨d, q, e, hread, hoffers, happly, hlaid, hsettled⟩

end Sequence

end Collate
