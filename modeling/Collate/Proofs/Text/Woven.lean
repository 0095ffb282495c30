import Collate.Proofs.Text.Slice
import Collate.Proofs.Text.Span

/-!
# Texts between gaps

* `Text.woven`            texts one behind the other, each with a gap in front of it;
* `Text.size_woven_perm`  the same texts in another order take as many bytes;
* `Text.places`           where the texts stand;
* `Text.slice?_places`    they stand there.
-/

namespace Collate

namespace Text

def woven (gaps texts : List Text) : Text :=
  (List.zipWith (· ++ ·) gaps texts).flatten

@[simp]
theorem woven_cons (gap text : Text) (gaps texts : List Text) :
    woven (gap :: gaps) (text :: texts) = gap ++ text ++ woven gaps texts := rfl

theorem woven_first {texts : List Text} (hne : texts ≠ []) (gap : Text) (gaps : List Text) :
    woven (gap :: gaps) texts = gap ++ woven ([] :: gaps) texts := by
  obtain ⟨text, texts, rfl⟩ := List.exists_cons_of_ne_nil hne
  rw [woven_cons, woven_cons, List.append_assoc, List.append_assoc]
  rfl

theorem size_woven {gaps texts : List Text} (h : gaps.length = texts.length) :
    (woven gaps texts).size = size gaps.flatten + size texts.flatten := by
  induction gaps generalizing texts with
  | nil =>
    rw [List.length_eq_zero_iff.mp h.symm]
    rfl
  | cons gap gaps ih =>
    cases texts with
    | nil => cases h
    | cons text texts =>
      rw [woven_cons, size_append, size_append, ih (Nat.succ.inj h), List.flatten_cons, List.flatten_cons,
        size_append, size_append]
      omega

theorem size_perm {a b : Text} (h : a.Perm b) : a.size = b.size := by
  induction h with
  | nil => rfl
  | cons c _ ih => rw [size_cons, size_cons, ih]
  | swap c c' rest =>
    rw [size_cons, size_cons, size_cons, size_cons]
    omega
  | trans _ _ ih ih' => exact ih.trans ih'

theorem size_woven_perm {gaps texts texts' : List Text} (h : gaps.length = texts.length)
    (hperm : texts.Perm texts') : (woven gaps texts).size = (woven gaps texts').size := by
  rw [size_woven h, size_woven (h.trans hperm.length_eq), size_perm hperm.flatten]

/-! ## places -/

/-- where the texts between gaps stand, from an offset on -/
def places : Nat → List Text → List Text → List Span
  | offset, gap :: gaps, text :: texts =>
    ⟨offset + gap.size, offset + gap.size + text.size⟩ ::
      places (offset + gap.size + text.size) gaps texts
  | _, _, _ => []

theorem length_places {gaps texts : List Text} (h : gaps.length = texts.length) (offset : Nat) :
    (places offset gaps texts).length = texts.length := by
  induction gaps generalizing texts offset with
  | nil => rw [List.length_eq_zero_iff.mp h.symm]; rfl
  | cons gap gaps ih =>
    cases texts with
    | nil => cases h
    | cons text texts => exact congrArg (· + 1) (ih (Nat.succ.inj h) _)

theorem le_of_mem_places {gaps texts : List Text} {offset : Nat} {span : Span}
    (h : span ∈ places offset gaps texts) :
    offset ≤ span.start ∧ span.start ≤ span.stop ∧ span.stop ≤ offset + (woven gaps texts).size := by
  induction gaps generalizing texts offset with
  | nil => cases h
  | cons gap gaps ih =>
    cases texts with
    | nil => cases h
    | cons text texts =>
      rw [woven_cons, size_append, size_append]
      rcases List.mem_cons.mp h with rfl | h
      · dsimp only
        omega
      · have hplace := ih h
        omega

theorem pairwise_places (gaps texts : List Text) (offset : Nat) :
    (places offset gaps texts).Pairwise Span.Precedes := by
  induction gaps generalizing texts offset with
  | nil => exact .nil
  | cons gap gaps ih =>
    cases texts with
    | nil => exact .nil
    | cons text texts => exact .cons (fun span h => (le_of_mem_places h).1) (ih texts _)

theorem getLast?_places {gaps texts : List Text} (h : gaps.length = texts.length) (hne : texts ≠ [])
    (offset : Nat) : (places offset gaps texts).getLast?.map Span.stop = some (offset + (woven gaps texts).size) := by
  induction gaps generalizing texts offset with
  | nil => exact absurd (List.length_eq_zero_iff.mp h.symm) hne
  | cons gap gaps ih =>
    cases texts with
    | nil => cases h
    | cons text texts =>
      rw [places, woven_cons, size_append, size_append, List.getLast?_cons]
      cases texts with
      | nil =>
        obtain rfl := List.length_eq_zero_iff.mp (Nat.succ.inj h)
        show some (offset + gap.size + text.size) = some (offset + (gap.size + text.size + 0))
        rw [Nat.add_zero, Nat.add_assoc]
      | cons next texts =>
        obtain ⟨last, hlast, hstop⟩ := Option.map_eq_some_iff.mp
          (ih (Nat.succ.inj h) (List.cons_ne_nil next texts) (offset + gap.size + text.size))
        rw [hlast, Option.getD_some, Option.map_some, hstop]
        exact congrArg some (by omega)

theorem slice?_places {t : Text} {gaps texts : List Text} (h : gaps.length = texts.length) :
    ∀ front rest, t = front ++ (woven gaps texts ++ rest) →
      (places front.size gaps texts).map t.slice? = texts.map some := by
  induction gaps generalizing texts with
  | nil =>
    obtain rfl := List.length_eq_zero_iff.mp h.symm
    exact fun _ _ _ => rfl
  | cons gap gaps ih =>
    cases texts with
    | nil => cases h
    | cons text texts =>
      intro front rest ht
      have hsplit : t = front ++ gap ++ text ++ (woven gaps texts ++ rest) := by
        rw [ht, woven_cons]
        simp
      have hrest := ih (Nat.succ.inj h) _ rest hsplit
      rw [size_append, size_append] at hrest
      rw [places, List.map_cons, List.map_cons, hrest]
      refine congrArg (· :: texts.map some) (slice?_eq_some.mpr ⟨front ++ gap, _, hsplit, ?_, rfl⟩)
      rw [size_append]

end Text

end Collate
