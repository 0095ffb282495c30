import Collate.Proofs.Sequence.Fits
import Collate.Proofs.Sequence.Order
import Collate.Proofs.Text.Edit
import Collate.Sequence.Layout

/-!
# The edit of a sequence

Whatever the layout, putting a sequence that fits into the order of a policy gives an edit that
fits: every text that is cut for it is there, and it replaces the entries or the whole literal.
-/

namespace Collate

/-! ## the order of a policy -/

theorem Policy.order_lt (p : Policy) (entries : List Entry) :
    ∀ index ∈ p.order entries, index < entries.length :=
  fun _ hindex => List.mem_range.mp ((p.order_perm entries).mem_iff.mp hindex)

namespace Sequence
variable {t : Text} {s : Sequence} {order : List Nat}

theorem entry_eq {index : Nat} (h : index < s.entries.length) :
    s.entry index = .ok (s.entries.get ⟨index, h⟩) := by
  unfold entry
  rw [List.getElem?_eq_getElem h]
  rfl

theorem texts_safe (horder : ∀ index ∈ order, index < s.entries.length) :
    Safe (s.texts order) (fun _ => True) := by
  unfold texts
  refine (Safe.mapM (g := fun _ => ()) (h := fun _ => ()) (Q := fun _ => True) ?_).mono
    (fun _ _ => trivial)
  intro index hindex
  rw [entry_eq (horder index hindex)]
  exact Safe.ok ⟨rfl, trivial⟩

/-! ## the layouts -/

theorem edit_fits_range (h : s.InRow t) (replacement : Text) :
    Edit.Fits t ⟨s.range, replacement⟩ := by
  obtain ⟨hlt, hboundary⟩ := h.range_boundary
  exact ⟨hlt, hboundary⟩

theorem slice_safe {span : Span} {piece : Text} (h : t.slice? span = some piece) :
    Safe (t.slice span) (fun _ => True) := by
  rw [Text.slice, h]
  exact Safe.ok trivial

theorem lineEnd_safe (h : s.Fits t) : Safe (lineEnd t s.container) (fun _ => True) := by
  obtain ⟨inside, hinside⟩ := h.container_slice
  unfold lineEnd
  refine (slice_safe hinside).bind ?_
  intro inside _
  exact Safe.ok trivial

theorem singleLineEdit_safe (h : s.Fits t) (horder : ∀ index ∈ order, index < s.entries.length) :
    Safe (singleLineEdit s order) (Edit.Fits t) := by
  unfold singleLineEdit
  refine (texts_safe horder).bind ?_
  intro texts _
  exact Safe.ok (edit_fits_range h.toInRow _)

theorem bareEdit_safe (h : s.Fits t) (horder : ∀ index ∈ order, index < s.entries.length) :
    Safe (bareEdit t s order) (Edit.Fits t) := by
  have htwo := h.two
  unfold bareEdit
  rw [entry_eq (by omega)]
  refine (lineEnd_safe h).bind ?_
  intro ending _
  refine (texts_safe horder).bind ?_
  intro texts _
  exact Safe.ok (edit_fits_range h.toInRow _)

/-- the braces with all between them, given an entry that stands there -/
theorem edit_fits_braces {opening closing : Span} {e : Entry} (hopening : t.slice? opening = some ['{'])
    (hclosing : t.slice? closing = some ['}']) (he : e.Fits t) (hfront : opening.Precedes e.span)
    (hbehind : e.span.Precedes closing) (replacement : Text) :
    Edit.Fits t ⟨opening.join closing, replacement⟩ := by
  obtain ⟨_, _, _, _, ho⟩ := Text.slice?_eq_some.mp hopening
  obtain ⟨_, _, _, _, hc⟩ := Text.slice?_eq_some.mp hclosing
  change opening.stop = opening.start + 1 at ho
  change closing.stop = closing.start + 1 at hc
  change opening.stop ≤ e.span.start at hfront
  change e.span.stop ≤ closing.start at hbehind
  have hne := he.nonempty
  rw [Span.join_eq (by omega) (by omega)]
  refine ⟨?_, (Text.isBoundary_of_slice? hopening).1, (Text.isBoundary_of_slice? hclosing).2⟩
  show opening.start < closing.stop
  omega

theorem bracedEdit_safe {braces : Delimiters} (h : s.Fits t) (hbraces : s.braces = some braces)
    (horder : ∀ index ∈ order, index < s.entries.length) :
    Safe (bracedEdit t s braces order) (Edit.Fits t) := by
  have htwo := h.two
  have hlt : s.entries.length - 1 < s.entries.length := by omega
  obtain ⟨hopening, hclosing, hbetween, -, -⟩ := h.braces_fit braces hbraces
  have hlast := s.entries.get_mem ⟨s.entries.length - 1, hlt⟩
  obtain ⟨hfront, hbehind⟩ := hbetween _ hlast
  have hfits := h.entries_fit _ hlast
  have hstop := (h.boundary hlast).2
  unfold bracedEdit
  rw [entry_eq (by omega), entry_eq hlt]
  generalize s.entries.get ⟨s.entries.length - 1, hlt⟩ = last at *
  obtain ⟨behind, hslice⟩ := Text.slice?_of_boundaries
    (s := ⟨last.span.stop, braces.closing.start⟩) hbehind hstop (Text.isBoundary_of_slice? hclosing).1
  refine (slice_safe hslice).bind ?_
  intro behind _
  refine (lineEnd_safe h).bind ?_
  intro ending _
  refine (slice_safe hopening).bind ?_
  intro opening _
  refine (slice_safe hclosing).bind ?_
  intro closing _
  refine (texts_safe horder).bind ?_
  intro texts _
  exact Safe.ok (edit_fits_braces hopening hclosing hfits hfront hbehind _)

/-- what stands between entries in a row can be cut, from a boundary before them on -/
theorem fillSlots_safe {entries : List Entry} (hfits : ∀ e ∈ entries, e.Fits t)
    (hordered : entries.Pairwise (fun a b => a.span.Precedes b.span)) (texts : List Text) :
    ∀ cursor, t.isBoundary cursor = true → (∀ e ∈ entries, cursor ≤ e.span.start) →
      Safe (fillSlots t cursor entries texts) (fun _ => True) := by
  induction entries generalizing texts with
  | nil =>
    intro cursor _ _
    exact Safe.ok trivial
  | cons e es ih =>
    intro cursor hcursor hle
    obtain ⟨he, hes⟩ := List.pairwise_cons.mp hordered
    have hb := Text.isBoundary_of_slice? (hfits e List.mem_cons_self).slice
    cases texts with
    | nil => exact Safe.ok trivial
    | cons text texts =>
      obtain ⟨between, hbetween⟩ := Text.slice?_of_boundaries (s := ⟨cursor, e.span.start⟩)
        (hle e List.mem_cons_self) hcursor hb.1
      unfold fillSlots
      refine (slice_safe hbetween).bind ?_
      intro between _
      refine (ih (fun x hx => hfits x (List.mem_cons_of_mem _ hx)) hes texts _ hb.2 he).bind ?_
      intro rest _
      exact Safe.ok trivial

theorem interleavedEdit_safe (h : s.Fits t) (horder : ∀ index ∈ order, index < s.entries.length) :
    Safe (interleavedEdit t s order) (Edit.Fits t) := by
  have hle : ∀ e ∈ s.entries, s.range.start ≤ e.span.start :=
    fun e he => (h.toInRow.range_covers e he).1
  unfold interleavedEdit
  refine (texts_safe (fun index hindex => horder index (List.mem_of_mem_take hindex))).bind ?_
  intro texts _
  refine (fillSlots_safe h.entries_fit h.ordered texts _ h.toInRow.range_boundary.2.1 hle).bind ?_
  intro replacement _
  exact Safe.ok (edit_fits_range h.toInRow _)

/-- in every layout the entries are put into an order by an edit that fits -/
theorem edit_safe (h : s.Fits t) (horder : ∀ index ∈ order, index < s.entries.length) :
    Safe (s.edit t order) (Edit.Fits t) := by
  unfold edit
  split
  next => exact interleavedEdit_safe h horder
  next =>
    split
    next => exact singleLineEdit_safe h horder
    next braces _ hbraces => exact bracedEdit_safe h hbraces horder
    next => exact bareEdit_safe h horder

end Sequence

end Collate
