import Collate.Proofs.Rule.Comments
import Collate.Proofs.Rule.Signature
import Collate.Proofs.Separator.Gap

/-!
# Commas between entries

The entries of a sequence that nothing interleaves are neighbours among the items they are taken from.  So
if no comment is loose, one comma with filler around it stands between two of them, filler stands between an
opening brace and the first one, and filler with at most one comma between the last one and a closing brace.

* `Document.Offers`            the sequences of a document;
* `Sequence.Among`             the entries that are found among siblings;
* `Document.Offers.source`     where the entries of a sequence come from;
* `Document.Offers.separated`  the entries are neighbours, in the braces they have;
* `Document.Offers.edged`      every entry begins with a token and ends with one;
* `Sequence.Spaced`            what stands between entries and braces;
* `Document.Offers.spaced`     it does, if no comment is loose.
-/

namespace Collate

/-- the sequence is one of those that are looked for in the document -/
def Document.Offers (d : Document) (q : Sequence) : Prop :=
  ∃ id methods, (d.literalSequence id).value = some q ∨ (d.keywordSequence id methods).value = some q ∨
    (d.symbolSequence id methods).value = some q ∨ (d.parameterSequence id).value = some q

theorem Document.Offers.fits {d : Document} {q : Sequence} (hplaced : d.Placed) (h : d.Offers q) :
    q.Fits d.text := by
  obtain ⟨id, methods, hq | hq | hq | hq⟩ := h
  · exact ((Document.literalSequence_safe hplaced id).of_value hq).1
  · exact ((Document.keywordSequence_safe hplaced id methods).of_value hq).1
  · exact (Document.symbolSequence_safe hplaced id methods).of_value hq
  · exact (Document.parameterSequence_safe hplaced id).of_value hq

theorem Node.Separated.elements {α : Type} {t : Text} {spanOf : α → Span} {braces : Option Delimiters}
    {elements : List α} (h : (Node.literal braces elements).Separated t spanOf) :
    t.Separates (elements.map spanOf) := by
  cases braces with
  | none => exact h
  | some braces => exact h.1

namespace Sequence
variable {t : Text} {q : Sequence}

/-! ## entries among siblings -/

theorem filterMap_dropWhile {α : Type} (xs : List (Option α)) :
    (xs.dropWhile Option.isNone).filterMap id = xs.filterMap id := by
  induction xs with
  | nil => rfl
  | cons x xs ih =>
    cases x with
    | none => exact ih
    | some a => rfl

theorem map_some_filterMap {α : Type} {xs : List (Option α)} (h : xs.any Option.isNone = false) :
    (xs.filterMap id).map some = xs := by
  induction xs with
  | nil => rfl
  | cons x xs ih =>
    obtain ⟨hx, hxs⟩ := Bool.or_eq_false_iff.mp (List.any_cons.symm.trans h)
    cases x with
    | none => cases hx
    | some a => exact congrArg (some a :: ·) (ih hxs)

theorem exists_run_of_hasGap {α : Type} {xs : List (Option α)} (h : hasGap xs = false) :
    ∃ before behind, xs = before ++ ((xs.filterMap id).map some ++ behind) := by
  have hfront := (List.takeWhile_append_dropWhile (p := Option.isNone) (l := xs)).symm
  have hback := (List.takeWhile_append_dropWhile (p := Option.isNone)
    (l := (xs.dropWhile Option.isNone).reverse)).symm
  rw [List.reverse_eq_iff, List.reverse_append] at hback
  have hkept := map_some_filterMap h
  rw [filterMap_dropWhile, List.filterMap_reverse, filterMap_dropWhile, List.map_reverse] at hkept
  rw [← hkept, List.reverse_reverse] at hback
  refine ⟨xs.takeWhile Option.isNone,
    ((xs.dropWhile Option.isNone).reverse.takeWhile Option.isNone).reverse, ?_⟩
  rw [← hback]
  exact hfront

theorem spans_of_values {d : Document} {entry : Nat → Attempt Entry}
    (hentry : ∀ id, Attempt.Safe (entry id) (fun e => e.span = d.span id ∧ e.Fits d.text))
    {siblings : List Nat} : ∀ {es : List Entry}, siblings.map (fun id => (entry id).value) = es.map some →
      es.map Entry.span = siblings.map d.span := by
  induction siblings with
  | nil =>
    intro es h
    rw [List.map_eq_nil_iff.mp h.symm]
    rfl
  | cons id siblings ih =>
    intro es h
    cases es with
    | nil => cases h
    | cons e es =>
      obtain ⟨hvalue, hrest⟩ := List.cons.inj h
      rw [List.map_cons, List.map_cons, ih hrest, ((hentry id).of_value hvalue).1]

/-- entries with nothing between them are neighbours among the siblings -/
theorem ofSiblings_separated {d : Document} {entry : Nat → Attempt Entry} {siblings : List Nat}
    {container : Span}
    (hentry : ∀ id, Attempt.Safe (entry id) (fun e => e.span = d.span id ∧ e.Fits d.text))
    (hseparates : t.Separates (siblings.map d.span))
    (h : (ofSiblings siblings container entry).value = some q) (hgap : q.interleaved = false) :
    (Node.literal q.braces q.entries).Separated t Entry.span := by
  obtain ⟨hentries, -, hinterleaved, hbraces, -⟩ := ofSiblings_value h
  rw [hinterleaved] at hgap
  obtain ⟨before, behind, hrun⟩ := exists_run_of_hasGap hgap
  rw [List.filterMap_map, Function.id_comp, ← hentries] at hrun
  obtain ⟨front, rest, rfl, -, hrest⟩ := List.map_eq_append_iff.mp hrun
  obtain ⟨middle, back, rfl, hmiddle, -⟩ := List.map_eq_append_iff.mp hrest
  rw [hbraces]
  show t.Separates (q.entries.map Entry.span)
  rw [spans_of_values hentry hmiddle]
  rw [List.map_append, List.map_append] at hseparates
  exact (Text.separates_append.mp (Text.separates_append.mp hseparates).2.1).1

end Sequence

/-- the entries of a sequence are those that are found among separated siblings -/
def Sequence.Among (t : Text) (d : Document) (q : Sequence) : Prop :=
  ∃ (siblings : List Nat) (container : Span) (entry : Nat → Attempt Entry),
    (∀ id, Attempt.Safe (entry id) (fun e => e.span = d.span id ∧ e.Fits d.text)) ∧
    t.Separates (siblings.map d.span) ∧ (Sequence.ofSiblings siblings container entry).value = some q

namespace Document
variable {t : Text} {d : Document} {q : Sequence} {id : Nat} (hread : read t = .ok d)
include hread

/-- the entries of a literal are all its elements, and without braces they are all of it -/
theorem literalSequence_source (hq : (d.literalSequence id).value = some q) :
    (Node.literal q.braces q.entries).Separated t Entry.span ∧ q.interleaved = false ∧
      (q.braces = none → q.container = q.range) := by
  obtain ⟨rfl, hplaced⟩ := placed_of_read hread
  obtain ⟨hfits, hid, hne⟩ := (literalSequence_safe hplaced id).of_value hq
  obtain ⟨braces, elements, hnode, -, -, -, rfl⟩ := literalSequence_eq_some hplaced hq
  have hseparated := separated_of_read hread id
  rw [hnode] at hseparated
  refine ⟨(Node.separated_map (.literal braces elements)).mpr hseparated, rfl, fun hbraces => ?_⟩
  obtain rfl : braces = none := hbraces
  obtain ⟨hstart, hstop⟩ := hplaced.marked hid hne hnode
  obtain ⟨first, last, hfirst, hlast, hrange, -⟩ := hfits.toInRow.range_eq
  rw [hrange]
  rw [List.head?_map, Option.map_eq_some_iff] at hfirst
  rw [List.getLast?_map, Option.map_eq_some_iff] at hlast
  obtain ⟨element, helement, rfl⟩ := hfirst
  obtain ⟨element', helement', rfl⟩ := hlast
  rw [List.head?_map, helement] at hstart
  rw [List.getLast?_map, helement'] at hstop
  exact congrArg₂ Span.mk (Option.some.inj hstart).symm (Option.some.inj hstop).symm

theorem symbolSequence_among {methods : List Text} (hq : (d.symbolSequence id methods).value = some q) :
    q.Among t d := by
  obtain ⟨rfl, hplaced⟩ := placed_of_read hread
  have hseparated := separated_of_read hread id
  unfold symbolSequence listedArguments at hq
  split at hq
  next args hargs =>
    split at hargs
    next method selector args' hnode =>
      rw [hnode] at hseparated
      split at hargs
      next =>
        obtain rfl := Option.some.inj hargs
        split at hq
        next => cases hq
        next => exact ⟨args', d.span id, Entry.ofSymbol d, Entry.ofSymbol_safe hplaced, hseparated, hq⟩
      next => cases hargs
    next => cases hargs
  next => cases hq

theorem parameterSequence_among (hq : (d.parameterSequence id).value = some q) : q.Among t d := by
  obtain ⟨rfl, hplaced⟩ := placed_of_read hread
  have hseparated := separated_of_read hread id
  unfold parameterSequence at hq
  split at hq
  next keyword name singleton params body hnode =>
    rw [hnode] at hseparated
    split at hq
    next => cases hq
    next =>
      rw [Attempt.value_bind, Option.bind_eq_some_iff] at hq
      obtain ⟨found, hfound, hq⟩ := hq
      split at hq
      next =>
        obtain rfl := Option.some.inj hq
        exact ⟨params, d.span id, Entry.ofParameter d, Entry.ofParameter_safe hplaced, hseparated, hfound⟩
      next => cases hq
  next => cases hq

/-- The entries of a sequence are all elements of a literal, or they are found among the items of a call or a
definition.  Without braces they are the container. -/
theorem Offers.source (h : d.Offers q) :
    ((Node.literal q.braces q.entries).Separated t Entry.span ∧ q.interleaved = false ∧
      (q.braces = none → q.container = q.range)) ∨ q.Among t d := by
  obtain ⟨id, methods, hq | hq | hq | hq⟩ := h
  · exact .inl (literalSequence_source hread hq)
  · unfold keywordSequence at hq
    split at hq
    next last _ =>
      rw [Attempt.value_bind, Option.bind_eq_some_iff] at hq
      obtain ⟨found, hfound, hq⟩ := hq
      obtain rfl := Option.some.inj hq
      obtain ⟨hseparated, hgap, -⟩ := literalSequence_source hread hfound
      exact .inl ⟨hseparated.elements, hgap, fun _ => (Sequence.range_range found).symm⟩
    next => cases hq
  · exact .inr (symbolSequence_among hread hq)
  · exact .inr (parameterSequence_among hread hq)

end Document

/-- the entries of a sequence with nothing between them are separated, and touch the braces they have -/
theorem Document.Offers.separated {t : Text} {d : Document} {q : Sequence} (hread : Document.read t = .ok d)
    (h : d.Offers q) (hgap : q.interleaved = false) :
    (Node.literal q.braces q.entries).Separated t Entry.span := by
  obtain ⟨hseparated, -, -⟩ | ⟨siblings, container, entry, hentry, hseparates, hq⟩ := h.source hread
  · exact hseparated
  · exact Sequence.ofSiblings_separated hentry hseparates hq hgap

/-- every entry of a sequence begins with a token and ends with one -/
theorem Document.Offers.edged {t : Text} {d : Document} {q : Sequence} (hread : Document.read t = .ok d)
    (h : d.Offers q) : ∀ e ∈ q.entries, t.Edged e.span := by
  obtain ⟨hseparated, -, -⟩ | ⟨siblings, container, entry, hentry, hseparates, hq⟩ := h.source hread
  · exact fun e he => hseparated.elements.1 e.span (List.mem_map_of_mem he)
  · intro e he
    rw [(Sequence.ofSiblings_value hq).1] at he
    obtain ⟨id, hid, hvalue⟩ := List.mem_filterMap.mp he
    rw [((hentry id).of_value hvalue).1]
    exact hseparates.1 (d.span id) (List.mem_map_of_mem hid)

theorem Document.Offers.container_eq {t : Text} {d : Document} {q : Sequence} (hread : Document.read t = .ok d)
    (h : d.Offers q) (hbraces : q.braces = none) : q.container = q.range := by
  obtain ⟨-, -, hcontainer⟩ | ⟨siblings, container, entry, -, -, hq⟩ := h.source hread
  · exact hcontainer hbraces
  · exact (Sequence.ofSiblings_value hq).2.2.2.2

/-- other siblings stand between the entries of calls and definitions only -/
theorem Document.Offers.braces_eq {t : Text} {d : Document} {q : Sequence} (hread : Document.read t = .ok d)
    (h : d.Offers q) (hgap : q.interleaved = true) : q.braces = none := by
  obtain ⟨-, hnone, -⟩ | ⟨siblings, container, entry, -, -, hq⟩ := h.source hread
  · exact absurd (hgap.symm.trans hnone) (by simp)
  · exact (Sequence.ofSiblings_value hq).2.2.2.1

/-! ## texts between entries -/

/-- A comma with filler around it stands between neighbours, filler between the opening brace and the first
entry, and filler with at most one comma between the last entry and the closing brace. -/
structure Sequence.Spaced (t : Text) (q : Sequence) : Prop where
  gaps : ∀ gap ∈ (q.gaps t).tail, ∃ dropped, gap = some dropped ∧ dropped.Parts
  front : ∀ braces, q.braces = some braces → ∀ first, q.entries.head? = some first →
    ∃ dropped, t.slice? ⟨braces.opening.stop, first.span.start⟩ = some dropped ∧ dropped.Filler
  back : ∀ braces, q.braces = some braces → ∀ last, q.entries.getLast? = some last →
    ∃ dropped, t.slice? ⟨last.span.stop, braces.closing.start⟩ = some dropped ∧
      (dropped.Filler ∨ dropped.Parts)

namespace Sequence
variable {t : Text} {q : Sequence}

theorem mem_gapsFrom_tail {gap : Option Text} {entries : List Entry} : ∀ {offset : Nat},
    gap ∈ (t.gapsFrom offset entries).tail → ∃ front a b rest,
      entries = front ++ a :: b :: rest ∧ gap = t.slice? ⟨a.span.stop, b.span.start⟩ := by
  induction entries with
  | nil =>
    intro offset h
    cases h
  | cons a entries ih =>
    intro offset h
    cases entries with
    | nil => cases h
    | cons b entries =>
      rcases List.mem_cons.mp h with rfl | h
      · exact ⟨[], a, b, entries, rfl, rfl⟩
      · obtain ⟨front, a', b', rest, hentries, hgap⟩ := @ih a.span.stop h
        exact ⟨a :: front, a', b', rest, congrArg (a :: ·) hentries, hgap⟩

/-- no comment stands in a part of the container that no entry has a share in -/
theorem uncommented {start stop : Nat} (hloose : q.hasLooseComment t.comments = false)
    (hstart : q.container.start ≤ start) (hstop : stop ≤ q.container.stop)
    (hapart : ∀ e ∈ q.entries, e.span.stop ≤ start ∨ stop ≤ e.span.start) : t.Uncommented start stop := by
  rintro comment hcomment ⟨hfirst, hlast⟩
  have hne := Text.comments_nonempty hcomment
  obtain ⟨entry, hentry, hholds⟩ := exists_holder hloose hcomment (by omega) (by omega)
  have hin := Span.contains_iff.mp hholds
  have := hapart entry hentry
  omega

theorem Fits.spaced (h : q.Fits t) (hseparated : (Node.literal q.braces q.entries).Separated t Entry.span)
    (hloose : q.hasLooseComment t.comments = false) : q.Spaced t := by
  refine ⟨fun gap hgap => ?_, fun braces hbraces first hfirst => ?_, fun braces hbraces last hlast => ?_⟩
  · obtain ⟨front, a, b, rest, hentries, rfl⟩ := mem_gapsFrom_tail hgap
    have hbetween : t.Between a.span.stop b.span.start [.comma] := by
      have hchain := hseparated.elements
      rw [hentries, List.map_append] at hchain
      exact (List.isChain_cons_cons.mp (Text.separates_append.mp hchain).2.1.2).1
    have hmem : a ∈ q.entries ∧ b ∈ q.entries := by
      rw [hentries]
      simp
    have ha := h.covers a hmem.1
    have hb := h.covers b hmem.2
    have hane := (h.entries_fit a hmem.1).nonempty
    have hbne := (h.entries_fit b hmem.2).nonempty
    refine hbetween.slice?_parts (uncommented hloose (by omega) (by omega) fun e he => ?_)
    -- the other entries stand in front of these two or behind them
    have hordered := h.ordered
    rw [hentries] at hordered he
    obtain ⟨-, hback, hfront⟩ := List.pairwise_append.mp hordered
    obtain ⟨hrest, -⟩ := List.pairwise_cons.mp (List.pairwise_cons.mp hback).2
    simp only [List.mem_append, List.mem_cons] at he
    rcases he with he | rfl | rfl | he
    · have hprecedes : e.span.stop ≤ a.span.start := hfront e he a List.mem_cons_self
      omega
    · omega
    · omega
    · have hprecedes : b.span.stop ≤ e.span.start := hrest e he
      omega
  · obtain ⟨hopening, -, -, hstart, -⟩ := h.braces_fit braces hbraces
    obtain ⟨-, -, -, -, hstop⟩ := Text.slice?_eq_some.mp hopening
    have hcovers := h.covers first (List.mem_of_head? hfirst)
    have hne := (h.entries_fit first (List.mem_of_head? hfirst)).nonempty
    rw [hbraces] at hseparated
    refine (hseparated.2.1 first.span.start ?_).slice?_filler
      (uncommented hloose (by omega) (by omega) fun e he => .inr ?_)
    · rw [List.head?_map, hfirst]
      rfl
    · obtain ⟨first', last, hfirst', -, hrange, -⟩ := h.toInRow.range_eq
      obtain rfl := Option.some.inj (hfirst.symm.trans hfirst')
      have hle := (h.toInRow.range_covers e he).1
      rwa [hrange] at hle
  · obtain ⟨-, hclosing, -, -, hstop⟩ := h.braces_fit braces hbraces
    obtain ⟨-, -, -, -, hend⟩ := Text.slice?_eq_some.mp hclosing
    have hcovers := h.covers last (List.mem_of_getLast? hlast)
    have hne := (h.entries_fit last (List.mem_of_getLast? hlast)).nonempty
    have hplain : t.Uncommented last.span.stop braces.closing.start := by
      refine uncommented hloose (by omega) (by omega) fun e he => .inl ?_
      obtain ⟨first, last', -, hlast', hrange, -⟩ := h.toInRow.range_eq
      obtain rfl := Option.some.inj (hlast.symm.trans hlast')
      have hle := (h.toInRow.range_covers e he).2
      rwa [hrange] at hle
    rw [hbraces] at hseparated
    rcases hseparated.2.2 last.span.stop (by rw [List.getLast?_map, hlast]; rfl) with hnone | hcomma
    · obtain ⟨dropped, hslice, hfiller⟩ := hnone.slice?_filler hplain
      exact ⟨dropped, hslice, .inl hfiller⟩
    · obtain ⟨dropped, hslice, hparts⟩ := hcomma.slice?_parts hplain
      exact ⟨dropped, hslice, .inr hparts⟩

end Sequence

/-- **The entries of a sequence that nothing interleaves are spaced**, if no comment is loose. -/
theorem Document.Offers.spaced {t : Text} {d : Document} {q : Sequence} (hread : Document.read t = .ok d)
    (h : d.Offers q) (hloose : q.hasLooseComment d.comments = false) (hgap : q.interleaved = false) :
    q.Spaced t := by
  have hseparated := h.separated hread hgap
  obtain ⟨rfl, hplaced⟩ := Document.placed_of_read hread
  exact (h.fits hplaced).spaced hseparated (hplaced.comments_eq ▸ hloose)

end Collate
