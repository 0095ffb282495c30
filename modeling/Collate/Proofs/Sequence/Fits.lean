import Collate.Proofs.Document.Placed
import Collate.Proofs.Sequence.Safe
import Collate.Sequence.Eligible

/-!
# Sequences that fit

The entries of a sequence that is taken from a placed document are texts of the document in their
order, two or more, with the container and the braces around them.  Looking for one never fails.

* `Entry.Fits`, `Sequence.Fits`   entry and sequence fit a text;
* `Sequence.InRow`                the entries alone do;
* `Sequence.InRow.range_eq`       from the first entry to the last one;
* `Document.literalSequence_safe` and its like   the sequences of a placed document fit.
-/

namespace Collate

/-- the entry is a text under its span, with one character at least, and ends inside no comment -/
structure Entry.Fits (t : Text) (e : Entry) : Prop where
  slice : t.slice? e.span = some e.text
  nonempty : e.span.start < e.span.stop
  clear : t.Clear e.span.start ∧ t.Clear e.span.stop

/-- two or more entries that fit, in a row -/
structure Sequence.InRow (t : Text) (s : Sequence) : Prop where
  two : 2 ≤ s.entries.length
  entries_fit : ∀ e ∈ s.entries, e.Fits t
  ordered : s.entries.Pairwise (fun a b => a.span.Precedes b.span)

/-- entries in a row, with a container that fits around them and between the braces it has, which
stand at its ends -/
structure Sequence.Fits (t : Text) (s : Sequence) : Prop extends InRow t s where
  container_slice : ∃ inside, t.slice? s.container = some inside
  container_clear : t.Clear s.container.start ∧ t.Clear s.container.stop
  covers : ∀ e ∈ s.entries, s.container.start ≤ e.span.start ∧ e.span.stop ≤ s.container.stop
  braces_fit : ∀ braces, s.braces = some braces →
    t.slice? braces.opening = some ['{'] ∧ t.slice? braces.closing = some ['}'] ∧
      (∀ e ∈ s.entries, braces.opening.Precedes e.span ∧ e.span.Precedes braces.closing) ∧
      braces.opening.start = s.container.start ∧ braces.closing.stop = s.container.stop

/-! ## the range of a sequence -/

/-- with the entries as its container, a sequence has the same range -/
theorem Sequence.range_range (s : Sequence) :
    ({ s with container := s.range, braces := none } : Sequence).range = s.range := by
  unfold range
  dsimp only
  cases s.entries.head? with
  | none => rfl
  | some first => cases s.entries.getLast? <;> rfl

namespace Sequence.InRow
variable {t : Text} {s : Sequence}

/-- the range has the start of the first entry, the end of the last one, and all entries inside -/
theorem range_eq (h : s.InRow t) : ∃ first last, s.entries.head? = some first ∧
    s.entries.getLast? = some last ∧ s.range = ⟨first.span.start, last.span.stop⟩ ∧
    first.span.start < last.span.stop := by
  obtain ⟨entries, container, braces, interleaved⟩ := s
  have htwo := h.two
  have hfit := h.entries_fit
  have hordered := h.ordered
  dsimp only at htwo hfit hordered
  match entries, htwo with
  | first :: second :: rest, _ =>
    have hlast : (first :: second :: rest).getLast? = some (rest.getLastD second) := by
      rw [List.getLast?_cons_cons, List.getLast?_cons, List.getLastD_eq_getLast?]
    have hmem : rest.getLastD second ∈ second :: rest := List.getLastD_mem_cons
    have h₁ := (hfit first List.mem_cons_self).nonempty
    have h₂ := (hfit _ (List.mem_cons_of_mem _ hmem)).nonempty
    have h₃ : first.span.stop ≤ (rest.getLastD second).span.start :=
      (List.pairwise_cons.mp hordered).1 _ hmem
    refine ⟨first, rest.getLastD second, rfl, hlast, ?_, by omega⟩
    unfold range
    rw [hlast]
    exact Span.join_eq (by omega) (by omega)

theorem boundary (h : s.InRow t) {e : Entry} (he : e ∈ s.entries) :
    t.isBoundary e.span.start = true ∧ t.isBoundary e.span.stop = true :=
  Text.isBoundary_of_slice? (h.entries_fit e he).slice

theorem range_boundary (h : s.InRow t) : s.range.start < s.range.stop ∧
    t.isBoundary s.range.start = true ∧ t.isBoundary s.range.stop = true := by
  obtain ⟨first, last, hfirst, hlast, hrange, hlt⟩ := h.range_eq
  rw [hrange]
  exact ⟨hlt, (h.boundary (List.mem_of_head? hfirst)).1, (h.boundary (List.mem_of_getLast? hlast)).2⟩

theorem range_covers (h : s.InRow t) :
    ∀ e ∈ s.entries, s.range.start ≤ e.span.start ∧ e.span.stop ≤ s.range.stop := by
  intro e he
  obtain ⟨first, last, hfirst, hlast, hrange, -⟩ := h.range_eq
  rw [hrange]
  constructor
  · obtain ⟨rest, hrest⟩ := List.head?_eq_some_iff.mp hfirst
    have hordered := h.ordered
    have h₁ := (h.entries_fit first (List.mem_of_head? hfirst)).nonempty
    rw [hrest] at he hordered
    rcases List.mem_cons.mp he with rfl | he
    · exact Nat.le_refl _
    · have h₂ : first.span.stop ≤ e.span.start := (List.pairwise_cons.mp hordered).1 e he
      exact Nat.le_trans (Nat.le_of_lt h₁) h₂
  · obtain ⟨front, hfront⟩ := List.getLast?_eq_some_iff.mp hlast
    have hordered := h.ordered
    have h₁ := (h.entries_fit last (List.mem_of_getLast? hlast)).nonempty
    rw [hfront] at he hordered
    rcases List.mem_append.mp he with he | he
    · have h₂ : e.span.stop ≤ last.span.start :=
        (List.pairwise_append.mp hordered).2.2 e he last List.mem_cons_self
      exact Nat.le_trans h₂ (Nat.le_of_lt h₁)
    · exact Nat.le_of_eq (congrArg (·.span.stop) (List.mem_singleton.mp he))

theorem range_clear (h : s.InRow t) : t.Clear s.range.start ∧ t.Clear s.range.stop := by
  obtain ⟨first, last, hfirst, hlast, hrange, -⟩ := h.range_eq
  rw [hrange]
  exact ⟨(h.entries_fit first (List.mem_of_head? hfirst)).clear.1,
    (h.entries_fit last (List.mem_of_getLast? hlast)).clear.2⟩

theorem fits_range (h : s.InRow t) : Fits t { s with container := s.range, braces := none } := by
  obtain ⟨hlt, hstart, hstop⟩ := h.range_boundary
  exact ⟨⟨h.two, h.entries_fit, h.ordered⟩,
    Text.slice?_of_boundaries (Nat.le_of_lt hlt) hstart hstop, h.range_clear, h.range_covers,
    fun _ h => nomatch h⟩

end Sequence.InRow

namespace Entry
variable {d : Document} {id : Nat}

/-! ## single entries -/

theorem ofNode_safe (h : d.Placed) (hid : id < d.nodes.size) (hne : id ≠ d.root) (kind : EntryKind)
    (key : Text) :
    Attempt.Safe (ofNode d id kind key) (fun e => e.span = d.span id ∧ e.Fits d.text) := by
  obtain ⟨text, htext, hsource⟩ := h.source_eq hid hne
  unfold ofNode
  refine Attempt.Safe.bind (Attempt.safe_lift ⟨text, hsource, rfl⟩) ?_
  rintro _ rfl
  exact Attempt.safe_pure ⟨rfl, htext, h.table.nonempty hid hne, (h.table.placed id hid hne).clear⟩

theorem ofPair_safe (h : d.Placed) (id : Nat) :
    Attempt.Safe (ofPair d id) (fun e => e.span = d.span id ∧ e.Fits d.text) := by
  unfold ofPair
  split
  next key value colon hnode =>
    obtain ⟨hid, hne⟩ := h.inner (by rw [hnode]; simp) (by rw [hnode]; simp)
    split
    next name hname => exact ofNode_safe h hid hne _ _
    next => exact Attempt.safe_failure
  next => exact Attempt.safe_failure

theorem ofSymbol_safe (h : d.Placed) (id : Nat) :
    Attempt.Safe (ofSymbol d id) (fun e => e.span = d.span id ∧ e.Fits d.text) := by
  unfold ofSymbol Document.symbolName
  split
  next name hname =>
    split at hname
    next held hnode =>
      obtain ⟨hid, hne⟩ := h.inner (by rw [hnode]; simp) (by rw [hnode]; simp)
      exact ofNode_safe h hid hne _ _
    next => exact nomatch hname
  next => exact Attempt.safe_failure

theorem ofParameter_safe (h : d.Placed) (id : Nat) :
    Attempt.Safe (ofParameter d id) (fun e => e.span = d.span id ∧ e.Fits d.text) := by
  unfold ofParameter
  split
  next kind name fallback hnode =>
    obtain ⟨hid, hne⟩ := h.inner (by rw [hnode]; simp) (by rw [hnode]; simp)
    split
    next => exact ofNode_safe h hid hne _ _
    next => exact Attempt.safe_failure
  next => exact Attempt.safe_failure

end Entry

namespace Sequence
variable {d : Document}

/-! ## entries among siblings -/

/-- the entries that are found have the spans of some of the siblings, in their order -/
theorem entriesOf_safe {entry : Nat → Attempt Entry} (siblings : List Nat)
    (hentry : ∀ id, Attempt.Safe (entry id) (fun e => e.span = d.span id ∧ e.Fits d.text)) :
    Safe (entriesOf siblings entry) (fun found =>
      ((found.filterMap id).map Entry.span).Sublist (siblings.map d.span) ∧
        ∀ e ∈ found.filterMap id, e.Fits d.text) := by
  unfold entriesOf
  induction siblings with
  | nil => exact ⟨[], rfl, List.Sublist.refl _, by simp⟩
  | cons sibling siblings ih =>
    rw [List.mapM_cons]
    refine Safe.bind (hentry sibling) ?_
    intro found hfound
    refine ih.bind ?_
    intro others hothers
    refine Safe.ok ?_
    cases found with
    | none => exact ⟨hothers.1.cons _, hothers.2⟩
    | some e =>
      obtain ⟨hspan, hfits⟩ := hfound e rfl
      refine ⟨?_, List.forall_mem_cons.mpr ⟨hfits, hothers.2⟩⟩
      show (e.span :: (others.filterMap id).map Entry.span).Sublist _
      rw [hspan]
      exact hothers.1.cons_cons _

theorem ofSiblings_safe {entry : Nat → Attempt Entry} {siblings : List Nat} (container : Span)
    (hentry : ∀ id, Attempt.Safe (entry id) (fun e => e.span = d.span id ∧ e.Fits d.text))
    (hordered : (siblings.map d.span).Pairwise Span.Precedes) :
    Attempt.Safe (ofSiblings siblings container entry) (fun s => s.Fits d.text) := by
  unfold ofSiblings
  refine Attempt.Safe.bind (Attempt.safe_lift (entriesOf_safe siblings hentry)) ?_
  rintro found ⟨hsublist, hfits⟩
  dsimp only
  split
  next => exact Attempt.safe_failure
  next hcheck =>
    refine Attempt.safe_pure ?_
    have htwo : 2 ≤ (found.filterMap id).length := by
      simp only [Bool.or_eq_true, decide_eq_true_eq, not_or, Nat.not_lt] at hcheck
      exact hcheck.1
    have hrow : (found.filterMap id).Pairwise (fun a b => a.span.Precedes b.span) :=
      List.pairwise_map.mp (hordered.sublist hsublist)
    have hinRow : InRow d.text ⟨found.filterMap id, container, none, hasGap found⟩ :=
      ⟨htwo, hfits, hrow⟩
    exact hinRow.fits_range

end Sequence

namespace Document
variable {d : Document}

/-! ## sequences of a document -/

/-- the children of a number follow each other, but for a trailing condition -/
theorem Placed.ordered (h : d.Placed) {id : Nat} (hid : id < d.nodes.size) :
    ((d.node id).inOrder.map d.span).Pairwise Span.Precedes := by
  have hp := (h.table.row id hid).ordered
  rw [List.pairwise_map] at hp
  exact List.pairwise_map.mpr hp

theorem literalSequence_safe (h : d.Placed) (id : Nat) :
    Attempt.Safe (d.literalSequence id)
      (fun s => s.Fits d.text ∧ id < d.nodes.size ∧ id ≠ d.root) := by
  unfold literalSequence
  split
  next braces elements hnode =>
    obtain ⟨hid, hne⟩ := h.inner (by rw [hnode]; simp) (by rw [hnode]; simp)
    split
    next => exact Attempt.safe_failure
    next htwo =>
      refine (Attempt.safe_mapM (fun id _ => Entry.ofPair_safe h id)).bind ?_
      rintro entries ⟨hspans, hfits⟩
      dsimp only
      split
      next => exact Attempt.safe_failure
      next =>
        have hmem (e : Entry) (he : e ∈ entries) : ∃ element ∈ elements, d.span element = e.span := by
          refine List.mem_map.mp ?_
          rw [← hspans]
          exact List.mem_map_of_mem he
        refine Attempt.safe_pure
          ⟨⟨⟨?_, hfits, ?_⟩, ?_, (h.table.placed id hid hne).clear, ?_, ?_⟩, hid, hne⟩
        · have hlen := congrArg List.length hspans
          rw [List.length_map, List.length_map] at hlen
          show 2 ≤ entries.length
          omega
        · have hordered := h.ordered hid
          rw [hnode] at hordered
          change (elements.map d.span).Pairwise Span.Precedes at hordered
          rw [← hspans] at hordered
          exact List.pairwise_map.mp hordered
        · obtain ⟨text, htext, -⟩ := h.source_eq hid hne
          exact ⟨text, htext⟩
        · intro e he
          obtain ⟨element, helement, hspan⟩ := hmem e he
          rw [← hspan]
          exact h.table.contained hid (show element ∈ (d.node id).children by rwa [hnode])
        · intro found hfound
          change braces = some found at hfound
          subst hfound
          obtain ⟨hopening, hclosing, hstart, hstop, hrow⟩ := h.marked hid hne hnode
          obtain ⟨-, hbetween⟩ := NodeTable.Placed.row_ids hrow
          refine ⟨hopening, hclosing, fun e he => ?_, hstart, hstop⟩
          obtain ⟨element, helement, hspan⟩ := hmem e he
          rw [← hspan]
          exact hbetween element helement
  next => exact Attempt.safe_failure

theorem eligibleLiteral_safe (h : d.Placed) (id : Nat) (excluded : List Text) :
    Attempt.Safe (d.eligibleLiteral id excluded)
      (fun s => s.Fits d.text ∧ id < d.nodes.size ∧ id ≠ d.root) := by
  unfold eligibleLiteral
  refine (literalSequence_safe h id).bind ?_
  intro s hs
  split
  next => exact Attempt.safe_failure
  next => exact Attempt.safe_pure hs

theorem anyCorrectable_safe (h : d.Placed) (excluded : List Text) (policy : Policy)
    (ids : List Nat) : Safe (d.anyCorrectable excluded policy ids) (fun _ => True) := by
  induction ids with
  | nil => exact Safe.ok trivial
  | cons id ids ih =>
    unfold anyCorrectable
    refine Safe.bind (eligibleLiteral_safe h id excluded) ?_
    intro found _
    cases found with
    | none => exact ih
    | some s =>
      dsimp only
      split
      next => exact Safe.ok trivial
      next => exact ih

theorem listedArguments_ordered (h : d.Placed) {id : Nat} {methods : List Text} {args : List Nat}
    (hargs : d.listedArguments id methods = some args) :
    (id < d.nodes.size ∧ id ≠ d.root) ∧ (args.map d.span).Pairwise Span.Precedes := by
  unfold listedArguments at hargs
  split at hargs
  next method selector args' hnode =>
    have hinner := h.inner (by rw [hnode]; simp) (by rw [hnode]; simp)
    have hordered := h.ordered hinner.1
    rw [hnode] at hordered
    split at hargs
    next =>
      rw [← Option.some.inj hargs]
      exact ⟨hinner, hordered⟩
    next => exact nomatch hargs
  next => exact nomatch hargs

theorem keywordSequence_safe (h : d.Placed) (id : Nat) (methods : List Text) :
    Attempt.Safe (d.keywordSequence id methods)
      (fun s => s.Fits d.text ∧ id < d.nodes.size ∧ id ≠ d.root) := by
  unfold keywordSequence
  split
  next last hlast =>
    obtain ⟨args, hargs, -⟩ := Option.bind_eq_some_iff.mp hlast
    refine (literalSequence_safe h last).bind ?_
    intro s hs
    exact Attempt.safe_pure ⟨hs.1.toInRow.fits_range, (listedArguments_ordered h hargs).1⟩
  next => exact Attempt.safe_failure

theorem symbolSequence_safe (h : d.Placed) (id : Nat) (methods : List Text) :
    Attempt.Safe (d.symbolSequence id methods) (fun s => s.Fits d.text) := by
  unfold symbolSequence
  split
  next args hargs =>
    split
    next => exact Attempt.safe_failure
    next =>
      exact Sequence.ofSiblings_safe _ (Entry.ofSymbol_safe h) (listedArguments_ordered h hargs).2
  next => exact Attempt.safe_failure

theorem parameterSequence_safe (h : d.Placed) (id : Nat) :
    Attempt.Safe (d.parameterSequence id) (fun s => s.Fits d.text) := by
  unfold parameterSequence
  split
  next keyword name singleton params body hnode =>
    obtain ⟨hid, -⟩ := h.inner (by rw [hnode]; simp) (by rw [hnode]; simp)
    split
    next => exact Attempt.safe_failure
    next =>
      have hordered := h.ordered hid
      rw [hnode] at hordered
      change ((singleton.toList ++ (params ++ body)).map d.span).Pairwise Span.Precedes at hordered
      have hparams : (params.map d.span).Pairwise Span.Precedes := by
        refine hordered.sublist (List.Sublist.map _ ?_)
        exact (List.sublist_append_left params body).trans (List.sublist_append_right _ _)
      refine (Sequence.ofSiblings_safe _ (Entry.ofParameter_safe h) hparams).bind ?_
      intro s hs
      split
      next => exact Attempt.safe_pure hs
      next => exact Attempt.safe_failure
  next => exact Attempt.safe_failure

end Document

end Collate
