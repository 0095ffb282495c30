import Collate.Proofs.Sequence.Layout
import Collate.Proofs.Sequence.Order

/-!
# What the edit of a sequence writes

Whatever the layout, the replacement holds the text of every entry as it is, once and in the order
of the policy.  Only what stands between these texts differs, and what is replaced is the range of
the entries or the literal with its braces.
-/

namespace Collate

/-- the texts stand in a text one behind the other, with anything around them -/
inductive Text.Threads : List Text → Text → Prop
  | nil (behind : Text) : Threads [] behind
  | cons (gap text : Text) {texts : List Text} {rest : Text} (h : Threads texts rest) :
      Threads (text :: texts) (gap ++ (text ++ rest))

namespace Text.Threads
variable {texts : List Text} {t : Text}

theorem behind (front : Text) (h : Threads texts t) : Threads texts (front ++ t) := by
  cases h with
  | nil => exact nil _
  | cons gap text h =>
    rw [← List.append_assoc]
    exact cons (front ++ gap) text h

theorem before (h : Threads texts t) (rest : Text) : Threads texts (t ++ rest) := by
  induction h with
  | nil => exact nil _
  | cons gap text _ ih =>
    rw [List.append_assoc, List.append_assoc]
    exact cons gap text ih

theorem first (text : Text) (h : Threads texts t) : Threads (text :: texts) (text ++ t) :=
  cons [] text h

theorem joinTexts (separator : Text) (texts : List Text) :
    Threads texts (joinTexts separator texts) := by
  induction texts with
  | nil => exact nil _
  | cons text texts ih =>
    cases texts with
    | nil =>
      have hone := first text (nil [])
      rwa [List.append_nil] at hone
    | cons next texts =>
      show Threads _ (text ++ separator ++ Collate.joinTexts separator (next :: texts))
      rw [List.append_assoc]
      exact first text (ih.behind separator)

theorem entryLines (indent lineEnd : Text) (trailing : Bool) (texts : List Text) :
    Threads texts (Sequence.entryLines indent lineEnd trailing texts) := by
  induction texts with
  | nil => exact nil _
  | cons text texts ih =>
    cases texts with
    | nil =>
      show Threads _ (indent ++ text ++ (if trailing then [','] else []) ++ lineEnd)
      rw [List.append_assoc, List.append_assoc]
      exact cons indent text (nil _)
    | cons next texts =>
      show Threads _ (indent ++ text ++ [','] ++ lineEnd
        ++ Sequence.entryLines indent lineEnd trailing (next :: texts))
      rw [List.append_assoc, List.append_assoc, List.append_assoc]
      exact cons indent text ((ih.behind lineEnd).behind [','])

theorem fillSlots {t : Text} (slots : List Entry) :
    ∀ (texts : List Text) (cursor : Nat) (filled : Text), texts.length ≤ slots.length →
      Sequence.fillSlots t cursor slots texts = .ok filled → Threads texts filled := by
  induction slots with
  | nil =>
    intro texts cursor filled hlen _
    rw [List.eq_nil_of_length_eq_zero (Nat.le_zero.mp hlen)]
    exact nil _
  | cons slot slots ih =>
    intro texts cursor filled hlen h
    cases texts with
    | nil => exact nil _
    | cons text texts =>
      unfold Sequence.fillSlots at h
      obtain ⟨between, -, h⟩ := bind_eq_ok h
      obtain ⟨rest, hrest, h⟩ := bind_eq_ok h
      rw [← Except.ok.inj h, List.append_assoc]
      exact cons between text (ih texts _ rest (Nat.le_of_succ_le_succ hlen) hrest)

end Text.Threads

namespace Sequence
variable {t : Text} {s : Sequence} {order : List Nat} {e : Edit}

theorem texts_eq (order : List Nat) : ∀ es : List Entry,
    order.map (fun index => s.entries[index]?) = es.map some →
      s.texts order = .ok (es.map (·.text)) := by
  unfold texts
  induction order with
  | nil =>
    intro es h
    obtain rfl : es = [] := List.map_eq_nil_iff.mp h.symm
    rfl
  | cons index order ih =>
    intro es h
    cases es with
    | nil => exact nomatch h
    | cons entry es =>
      obtain ⟨hentry, hrest⟩ := List.cons.inj h
      have hfound : s.entry index = .ok entry := by
        change s.entries[index]? = some entry at hentry
        rw [Sequence.entry, hentry]
      rw [List.mapM_cons, hfound, ih es hrest]
      rfl

theorem texts_order (p : Policy) (s : Sequence) :
    s.texts (p.order s.entries) = .ok ((p.arranged s.entries).map (·.text)) :=
  texts_eq _ _ (p.map_order s.entries)

/-- what an edit replaces: the entries, or the braces with all between them -/
def Replaces (s : Sequence) (span : Span) : Prop :=
  span = s.range ∨ ∃ braces, s.braces = some braces ∧ span = braces.opening.join braces.closing

theorem bracedEdit_threads {braces : Delimiters} {texts : List Text} (htexts : s.texts order = .ok texts)
    (h : bracedEdit t s braces order = .ok e) :
    Text.Threads texts e.replacement ∧ e.span = braces.opening.join braces.closing := by
  unfold bracedEdit at h
  obtain ⟨first, -, h⟩ := bind_eq_ok h
  obtain ⟨last, -, h⟩ := bind_eq_ok h
  obtain ⟨behind, -, h⟩ := bind_eq_ok h
  obtain ⟨lineEnd, -, h⟩ := bind_eq_ok h
  obtain ⟨opening, -, h⟩ := bind_eq_ok h
  obtain ⟨closing, -, h⟩ := bind_eq_ok h
  obtain ⟨texts', htexts', h⟩ := bind_eq_ok h
  obtain rfl : texts = texts' := Except.ok.inj (htexts.symm.trans htexts')
  rw [← Except.ok.inj h]
  refine ⟨?_, rfl⟩
  exact (((Text.Threads.entryLines ..).behind (opening ++ lineEnd)).before _).before _

theorem bareEdit_threads {texts : List Text} (htexts : s.texts order = .ok texts)
    (h : bareEdit t s order = .ok e) : Text.Threads texts e.replacement ∧ e.span = s.range := by
  unfold bareEdit at h
  obtain ⟨first, -, h⟩ := bind_eq_ok h
  obtain ⟨lineEnd, -, h⟩ := bind_eq_ok h
  obtain ⟨texts', htexts', h⟩ := bind_eq_ok h
  obtain rfl : texts = texts' := Except.ok.inj (htexts.symm.trans htexts')
  rw [← Except.ok.inj h]
  exact ⟨Text.Threads.joinTexts .., rfl⟩

theorem singleLineEdit_threads {texts : List Text} (htexts : s.texts order = .ok texts)
    (h : singleLineEdit s order = .ok e) : Text.Threads texts e.replacement ∧ e.span = s.range := by
  unfold singleLineEdit at h
  obtain ⟨texts', htexts', h⟩ := bind_eq_ok h
  obtain rfl : texts = texts' := Except.ok.inj (htexts.symm.trans htexts')
  rw [← Except.ok.inj h]
  exact ⟨Text.Threads.joinTexts .., rfl⟩

theorem interleavedEdit_threads {texts : List Text} (htexts : s.texts order = .ok texts)
    (hall : order.length = s.entries.length) (hlen : texts.length = s.entries.length)
    (h : interleavedEdit t s order = .ok e) :
    Text.Threads texts e.replacement ∧ e.span = s.range := by
  unfold interleavedEdit at h
  rw [List.take_of_length_le (Nat.le_of_eq hall)] at h
  obtain ⟨texts', htexts', h⟩ := bind_eq_ok h
  obtain rfl : texts = texts' := Except.ok.inj (htexts.symm.trans htexts')
  obtain ⟨filled, hfilled, h⟩ := bind_eq_ok h
  rw [← Except.ok.inj h]
  exact ⟨Text.Threads.fillSlots _ _ _ _ (Nat.le_of_eq hlen) hfilled, rfl⟩

/-- **In every layout the texts of the entries are kept**, each once, in the order of the policy. -/
theorem edit_threads (p : Policy) (h : s.edit t (p.order s.entries) = .ok e) :
    Text.Threads ((p.arranged s.entries).map (·.text)) e.replacement ∧ s.Replaces e.span := by
  have htexts := texts_order p s
  have hall := p.order_length s.entries
  have hlen : ((p.arranged s.entries).map (·.text)).length = s.entries.length := by
    rw [List.length_map, (p.arranged_perm s.entries).length_eq]
  unfold edit at h
  split at h
  next =>
    obtain ⟨hthreads, hspan⟩ := interleavedEdit_threads htexts hall hlen h
    exact ⟨hthreads, .inl hspan⟩
  next =>
    split at h
    next =>
      obtain ⟨hthreads, hspan⟩ := singleLineEdit_threads htexts h
      exact ⟨hthreads, .inl hspan⟩
    next braces _ hbraces =>
      obtain ⟨hthreads, hspan⟩ := bracedEdit_threads htexts h
      exact ⟨hthreads, .inr ⟨braces, hbraces, hspan⟩⟩
    next =>
      obtain ⟨hthreads, hspan⟩ := bareEdit_threads htexts h
      exact ⟨hthreads, .inl hspan⟩

theorem Fits.braces_join (h : s.Fits t) {braces : Delimiters} (hbraces : s.braces = some braces) :
    braces.opening.join braces.closing = s.container := by
  obtain ⟨hopening, hclosing, hbetween, hstart, hstop⟩ := h.braces_fit braces hbraces
  obtain ⟨first, -, hfirst, -⟩ := h.toInRow.range_eq
  have hmem := List.mem_of_head? hfirst
  have h₁ : braces.opening.stop ≤ first.span.start := (hbetween first hmem).1
  have h₂ : first.span.stop ≤ braces.closing.start := (hbetween first hmem).2
  have h₃ := (h.entries_fit first hmem).nonempty
  obtain ⟨_, _, _, _, h₄⟩ := Text.slice?_eq_some.mp hopening
  obtain ⟨_, _, _, _, h₅⟩ := Text.slice?_eq_some.mp hclosing
  rw [Span.join_eq (by omega) (by omega), hstart, hstop]

theorem Replaces.inside {span : Span} (hspan : s.Replaces span) (h : s.Fits t) :
    s.container.start ≤ span.start ∧ span.stop ≤ s.container.stop := by
  rcases hspan with rfl | ⟨braces, hbraces, rfl⟩
  · obtain ⟨first, last, hfirst, hlast, hrange, -⟩ := h.toInRow.range_eq
    rw [hrange]
    exact ⟨(h.covers first (List.mem_of_head? hfirst)).1, (h.covers last (List.mem_of_getLast? hlast)).2⟩
  · rw [h.braces_join hbraces]
    exact ⟨Nat.le_refl _, Nat.le_refl _⟩

end Sequence

end Collate
