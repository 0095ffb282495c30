import Collate.Proofs.Sequence.Arrangement
import Collate.Proofs.Text.Woven

/-!
# Texts and gaps

Every layout writes the texts of the entries one behind the other, with a gap in front of each.  The gaps
are those between the entries in the text, or they are the same for all entries but the first one.

* `Text.gapsFrom`            the gaps in front of entries, and `Sequence.gaps` those of a sequence;
* `InRow.exists_row`         the range of entries in a row;
* `interleavedEdit_woven`    the gaps of the text are written again;
* `joinTexts_arranged`, `entryLines_woven`   the gaps that are written anew.
-/

namespace Collate

/-! ## texts and gaps -/

/-- what stands in front of each of the entries, from an offset on -/
def Text.gapsFrom (t : Text) : Nat → List Entry → List (Option Text)
  | _, [] => []
  | offset, entry :: entries => t.slice? ⟨offset, entry.span.start⟩ :: gapsFrom t entry.span.stop entries

theorem joinTexts_eq_woven (separator text : Text) (texts : List Text) :
    joinTexts separator (text :: texts)
      = Text.woven ([] :: List.replicate texts.length separator) (text :: texts) := by
  induction texts generalizing text with
  | nil => exact (List.append_nil text).symm
  | cons next texts ih =>
    show text ++ separator ++ joinTexts separator (next :: texts) = _
    rw [ih next, List.length_cons, List.replicate_succ]
    simp

theorem joinTexts_woven {n : Nat} {texts : List Text} (htwo : 2 ≤ n) (hlength : texts.length = n)
    (separator : Text) :
    joinTexts separator texts = Text.woven ([] :: List.replicate (n - 1) separator) texts := by
  cases texts with
  | nil =>
    rw [List.length_nil] at hlength
    omega
  | cons text texts =>
    rw [← hlength, List.length_cons, Nat.add_sub_cancel, joinTexts_eq_woven]

namespace Sequence
variable {t : Text} {q : Sequence}

/-- what stands in front of each of the entries in the range of a sequence -/
def gaps (t : Text) (q : Sequence) : List (Option Text) :=
  t.gapsFrom q.range.start q.entries

theorem entryLines_woven (indent lineEnd text : Text) (trailing : Bool) (texts : List Text) :
    entryLines indent lineEnd trailing (text :: texts)
      = Text.woven (indent :: List.replicate texts.length (',' :: lineEnd ++ indent)) (text :: texts)
        ++ ((if trailing then [','] else []) ++ lineEnd) := by
  induction texts generalizing text with
  | nil =>
    show indent ++ text ++ (if trailing then [','] else []) ++ lineEnd = _
    simp [Text.woven]
  | cons next texts ih =>
    show indent ++ text ++ [','] ++ lineEnd ++ entryLines indent lineEnd trailing (next :: texts) = _
    rw [ih next, List.length_cons, List.replicate_succ]
    simp

/-- entries in a row cut a text into their own texts and the gaps in front of them -/
theorem exists_gaps {entries : List Entry} (hfits : ∀ e ∈ entries, e.Fits t)
    (hordered : entries.Pairwise (fun a b => a.span.Precedes b.span)) :
    ∀ front rest, t = front ++ rest → (∀ e ∈ entries, front.size ≤ e.span.start) →
      ∃ gaps behind, gaps.length = entries.length ∧ t.gapsFrom front.size entries = gaps.map some ∧
        rest = Text.woven gaps (entries.map (·.text)) ++ behind ∧
        entries.map (·.span) = Text.places front.size gaps (entries.map (·.text)) := by
  induction entries with
  | nil =>
    intro front rest _ _
    exact ⟨[], rest, rfl, rfl, rfl, rfl⟩
  | cons entry entries ih =>
    intro front rest ht hle
    obtain ⟨hentry, hentries⟩ := List.pairwise_cons.mp hordered
    obtain ⟨before, tail, hcut, hbefore, hstop⟩ :=
      Text.slice?_eq_some.mp (hfits entry List.mem_cons_self).slice
    have hsplit : front ++ rest = before ++ (entry.text ++ tail) := by
      rw [← ht, hcut, List.append_assoc]
    obtain ⟨gap, rfl, rfl⟩ := Text.exists_between hsplit (by rw [hbefore]; exact hle entry List.mem_cons_self)
    have hsize : (front ++ gap ++ entry.text).size = entry.span.stop := by
      rw [Text.size_append, hbefore, hstop]
    have hgap : t.slice? ⟨front.size, entry.span.start⟩ = some gap :=
      Text.slice?_eq_some.mpr ⟨front, _, hcut.trans (List.append_assoc ..), rfl,
        by rw [← hbefore, Text.size_append]⟩
    obtain ⟨gaps, behind, hlength, hgaps, rfl, hspans⟩ := ih
      (fun e he => hfits e (List.mem_cons_of_mem _ he)) hentries (front ++ gap ++ entry.text) tail hcut
      (fun e he => by rw [hsize]; exact hentry e he)
    rw [hsize] at hgaps hspans
    have hplace : entry.span = ⟨front.size + gap.size, front.size + gap.size + entry.text.size⟩ := by
      rw [← Text.size_append, hbefore, ← hstop]
    refine ⟨gap :: gaps, behind, congrArg (· + 1) hlength, ?_, by simp, ?_⟩
    · rw [Text.gapsFrom, hgap, hgaps, List.map_cons]
    · rw [List.map_cons, List.map_cons, Text.places, hspans, ← hplace, hplace]

theorem fillSlots_places {gaps texts : List Text} (hgaps : gaps.length = texts.length) {written : List Text}
    (hwritten : written.length = texts.length) {slots : List Entry} :
    ∀ front rest, t = front ++ (Text.woven gaps texts ++ rest) →
      slots.map (·.span) = Text.places front.size gaps texts →
      fillSlots t front.size slots written = .ok (Text.woven gaps written) := by
  induction gaps generalizing texts written slots with
  | nil =>
    intro front rest _ hspans
    obtain rfl := List.length_eq_zero_iff.mp hgaps.symm
    obtain rfl := List.map_eq_nil_iff.mp hspans
    rfl
  | cons gap gaps ih =>
    intro front rest ht hspans
    cases texts with
    | nil => cases hgaps
    | cons text texts =>
      obtain ⟨slot, slots, rfl, hslot, hslots⟩ := List.map_eq_cons_iff.mp hspans
      cases written with
      | nil => cases hwritten
      | cons first written =>
        have hsplit : t = front ++ gap ++ text ++ (Text.woven gaps texts ++ rest) := by
          rw [ht, Text.woven_cons]
          simp
        have hstart : slot.span.start = front.size + gap.size := congrArg Span.start hslot
        have hstop : slot.span.stop = (front ++ gap ++ text).size := by
          rw [Text.size_append, Text.size_append]
          exact congrArg Span.stop hslot
        have hslice : t.slice? ⟨front.size, slot.span.start⟩ = some gap :=
          Text.slice?_eq_some.mpr ⟨front, text ++ (Text.woven gaps texts ++ rest), by rw [hsplit]; simp, rfl,
            hstart⟩
        have hrest := ih (Nat.succ.inj hgaps) (Nat.succ.inj hwritten) (front ++ gap ++ text) rest hsplit
          (by rw [hslots, Text.size_append, Text.size_append])
        rw [fillSlots, Text.slice, hslice, hstop]
        show (do let rest ← fillSlots t _ slots written; return gap ++ first ++ rest) = _
        rw [hrest]
        rfl

/-! ## what is written -/

theorem arranged_length (p : Policy) (q : Sequence) :
    ((p.arranged q.entries).map (·.text)).length = q.entries.length := by
  rw [List.length_map, (p.arranged_perm q.entries).length_eq]

/-- the range is the texts of the entries with the gaps between them -/
theorem InRow.exists_row (h : q.InRow t) : ∃ gaps,
    q.gaps t = ([] :: gaps).map some ∧ gaps.length + 1 = q.entries.length ∧
      t.slice? q.range = some (Text.woven ([] :: gaps) (q.entries.map (·.text))) ∧
      q.entries.map (·.span) = Text.places q.range.start ([] :: gaps) (q.entries.map (·.text)) := by
  obtain ⟨first, last, hfirst, hlast, hrange, -⟩ := h.range_eq
  have hcovers := h.range_covers
  rw [hrange] at hcovers
  obtain ⟨front, tail, ht, hfront, -⟩ :=
    Text.slice?_eq_some.mp (h.entries_fit first (List.mem_of_head? hfirst)).slice
  rw [List.append_assoc] at ht
  obtain ⟨gaps, behind, hlength, hgaps, hrest, hspans⟩ := exists_gaps h.entries_fit h.ordered
    front _ ht (fun e he => by rw [hfront]; exact (hcovers e he).1)
  have htexts : gaps.length = (q.entries.map (·.text)).length := by rw [hlength, List.length_map]
  have hend : (front ++ Text.woven gaps (q.entries.map (·.text))).size = last.span.stop := by
    have hplace := Text.getLast?_places htexts
      (fun hnil => by rw [List.map_eq_nil_iff.mp hnil] at hfirst; cases hfirst) front.size
    rw [← hspans, List.getLast?_map, hlast, ← Text.size_append] at hplace
    exact (Option.some.inj hplace).symm
  -- the range begins with the first entry, so the first gap is empty
  obtain ⟨rest, hentries⟩ := List.head?_eq_some_iff.mp hfirst
  cases gaps with
  | nil =>
    rw [hentries] at hlength
    cases hlength
  | cons gap gaps =>
    obtain rfl : gap = [] := by
      have hgap : t.slice? ⟨front.size, first.span.start⟩ = some gap := by
        rw [hentries] at hgaps
        exact (List.cons.inj hgaps).1
      have hstop := Text.stop_of_slice? hgap
      dsimp only at hstop
      exact Text.size_eq_zero (by omega)
    refine ⟨gaps, ?_, hlength, ?_, by rw [hrange, ← hfront, hspans]⟩
    · rw [Sequence.gaps, hrange, ← hfront, hgaps]
    · refine Text.slice?_eq_some.mpr ⟨front, behind, ?_, ?_, ?_⟩
      · rw [ht, hrest, List.append_assoc]
      · rw [hrange, hfront]
      · rw [hrange, ← hend, Text.size_append, ← hfront]

/-- an edit among other siblings writes the texts in another order, with the same gaps -/
theorem interleavedEdit_woven (h : q.InRow t) : ∃ gaps,
    q.gaps t = ([] :: gaps).map some ∧ gaps.length + 1 = q.entries.length ∧
      t.slice? q.range = some (Text.woven ([] :: gaps) (q.entries.map (·.text))) ∧
      ∀ p : Policy, interleavedEdit t q (p.order q.entries)
        = .ok ⟨q.range, Text.woven ([] :: gaps) ((p.arranged q.entries).map (·.text))⟩ := by
  obtain ⟨gaps, hgaps, hlength, hslice, hspans⟩ := h.exists_row
  refine ⟨gaps, hgaps, hlength, hslice, fun p => ?_⟩
  obtain ⟨front, behind, ht, hfront, -⟩ := Text.slice?_eq_some.mp hslice
  rw [List.append_assoc] at ht
  have htexts : ([] :: gaps).length = (q.entries.map (·.text)).length := by
    rw [List.length_map]
    exact hlength
  have hwritten := (arranged_length p q).trans (List.length_map (·.text)).symm
  have hfill := fillSlots_places htexts hwritten front behind ht (hfront ▸ hspans)
  unfold interleavedEdit
  rw [List.take_of_length_le (Nat.le_of_eq (p.order_length q.entries)), texts_order p q, ← hfront]
  show (do return ⟨_, ← fillSlots t front.size q.entries _⟩ : Except Fault Edit) = _
  rw [hfill]
  rfl

theorem joinTexts_arranged (h : q.InRow t) (p : Policy) (separator : Text) :
    joinTexts separator ((p.arranged q.entries).map (·.text))
      = Text.woven ([] :: List.replicate (q.entries.length - 1) separator)
          ((p.arranged q.entries).map (·.text)) :=
  joinTexts_woven h.two (arranged_length p q) separator

theorem singleLineEdit_woven (h : q.InRow t) (p : Policy) :
    singleLineEdit q (p.order q.entries) = .ok ⟨q.range, Text.woven
      ([] :: List.replicate (q.entries.length - 1) [',', ' ']) ((p.arranged q.entries).map (·.text))⟩ := by
  rw [singleLineEdit, texts_order p q, ← joinTexts_arranged h p]
  rfl

end Sequence

end Collate
