import Collate.Proofs.Text.Slice
import Collate.Text.Lines

/-!
# Line starts

The table of line starts grows, and every entry but the first stands behind a line feed.  So the
line of an offset starts no later than the offset, and its characters can be cut from the text.
-/

namespace Collate

namespace Text

/-! ## the table -/

theorem mem_lineBreaks {t : Text} {offset x : Nat} (h : x ∈ lineBreaks offset t) :
    ∃ front rest, t = front ++ '\n' :: rest ∧ x = offset + front.size + 1 := by
  induction t generalizing offset with
  | nil => exact nomatch h
  | cons c cs ih =>
    have hrest (h : x ∈ lineBreaks (offset + c.utf8Size) cs) :
        ∃ front rest, c :: cs = front ++ '\n' :: rest ∧ x = offset + Text.size front + 1 := by
      obtain ⟨front, rest, hcs, hx⟩ := ih h
      refine ⟨c :: front, rest, by rw [hcs]; rfl, ?_⟩
      rw [size_cons]
      omega
    rw [lineBreaks] at h
    split at h
    next hc =>
      rcases List.mem_cons.mp h with rfl | h
      · subst hc
        exact ⟨[], cs, rfl, rfl⟩
      · exact hrest h
    next => exact hrest h

theorem lineBreaks_ordered (t : Text) (offset : Nat) :
    (offset :: lineBreaks offset t).Pairwise (· < ·) := by
  induction t generalizing offset with
  | nil => exact List.pairwise_singleton _ _
  | cons c cs ih =>
    have hc := Char.utf8Size_pos c
    have hcs := ih (offset + c.utf8Size)
    have hbehind : ∀ x ∈ (offset + c.utf8Size) :: lineBreaks (offset + c.utf8Size) cs, offset < x := by
      intro x hx
      rcases List.mem_cons.mp hx with rfl | hx
      · omega
      · have := (List.pairwise_cons.mp hcs).1 x hx
        omega
    rw [lineBreaks]
    split
    next => exact List.pairwise_cons.mpr ⟨hbehind, hcs⟩
    next =>
      refine List.pairwise_cons.mpr ⟨fun x hx => hbehind x (List.mem_cons_of_mem _ hx), ?_⟩
      exact (List.pairwise_cons.mp hcs).2

theorem lineStarts_ordered (t : Text) : t.lineStarts.Pairwise (· < ·) :=
  lineBreaks_ordered t 0

theorem isBoundary_of_mem_lineStarts {t : Text} {x : Nat} (h : x ∈ t.lineStarts) :
    t.isBoundary x = true ∧ (0 < x → t.isBoundary (x - 1) = true) := by
  rcases List.mem_cons.mp h with rfl | h
  · exact ⟨isBoundary_zero t, fun h => absurd h (Nat.lt_irrefl 0)⟩
  · obtain ⟨front, rest, rfl, rfl⟩ := mem_lineBreaks h
    have hfeed : Text.size ['\n'] = 1 := rfl
    refine ⟨isBoundary_iff.mpr ⟨front ++ ['\n'], rest, by simp, ?_⟩,
      fun _ => isBoundary_iff.mpr ⟨front, '\n' :: rest, rfl, by omega⟩⟩
    rw [size_append, hfeed]
    omega

/-! ## the line of an offset -/

theorem getElem_le_of_lt_countP {l : List Nat} (h : l.Pairwise (· < ·)) (bound : Nat) :
    ∀ i, (hi : i < l.countP (fun x => decide (x ≤ bound))) → ∃ x, l[i]? = some x ∧ x ≤ bound := by
  induction l with
  | nil =>
    intro i hi
    exact absurd hi (Nat.not_lt_zero i)
  | cons a l ih =>
    obtain ⟨ha, hl⟩ := List.pairwise_cons.mp h
    intro i hi
    by_cases hle : a ≤ bound
    · cases i with
      | zero => exact ⟨a, rfl, hle⟩
      | succ i =>
        rw [List.countP_cons_of_pos (by simpa using hle)] at hi
        exact ih hl i (by omega)
    · have hnone : l.countP (fun x => decide (x ≤ bound)) = 0 := by
        refine List.countP_eq_zero.mpr ?_
        intro x hx
        have := ha x hx
        simp only [decide_eq_true_eq]
        omega
      rw [List.countP_cons_of_neg (by simpa using hle), hnone] at hi
      exact absurd hi (Nat.not_lt_zero i)

theorem lineOf_pos (t : Text) (offset : Nat) : 0 < t.lineOf offset := by
  rw [lineOf, lineStarts, List.countP_cons_of_pos (by simp)]
  omega

theorem lineOf_le_length (t : Text) (offset : Nat) : t.lineOf offset ≤ t.lineStarts.length :=
  List.countP_le_length

/-- the line of an offset is in the table, and starts no later than the offset -/
theorem lineStart_lineOf (t : Text) (offset : Nat) :
    t.lineStarts[t.lineOf offset - 1]? = some (t.lineStart (t.lineOf offset)) ∧
      t.lineStart (t.lineOf offset) ≤ offset := by
  have hpos := lineOf_pos t offset
  have hle := lineOf_le_length t offset
  obtain ⟨x, hx, hbound⟩ := getElem_le_of_lt_countP (lineStarts_ordered t) offset
    (t.lineOf offset - 1) (by show t.lineOf offset - 1 < t.lineOf offset; omega)
  have hmin : min (t.lineOf offset - 1) (t.lineStarts.length - 1) = t.lineOf offset - 1 := by omega
  have hstart : t.lineStart (t.lineOf offset) = x := by
    rw [lineStart, hmin, List.getD_eq_getElem?_getD, hx]
    rfl
  rw [hstart]
  exact ⟨hx, hbound⟩

/-- the characters of the line of an offset can be cut from the text -/
theorem slice?_lineOf (t : Text) (offset : Nat) :
    ∃ line, t.slice? ⟨t.lineStart (t.lineOf offset), t.lineStop (t.lineOf offset)⟩ = some line := by
  have hpos := lineOf_pos t offset
  obtain ⟨hstart, -⟩ := lineStart_lineOf t offset
  have hmem := List.mem_of_getElem? hstart
  have hbs := (isBoundary_of_mem_lineStarts hmem).1
  unfold lineStop
  split
  next next hnext =>
    -- the next line starts behind this one, so its line feed is not before the start of this one
    have hlt : t.lineStart (t.lineOf offset) < next := by
      obtain ⟨hi, hgi⟩ := List.getElem?_eq_some_iff.mp hstart
      obtain ⟨hj, hgj⟩ := List.getElem?_eq_some_iff.mp hnext
      have := List.pairwise_iff_getElem.mp (lineStarts_ordered t) _ _ hi hj (by omega)
      rw [hgi, hgj] at this
      exact this
    have hbn := (isBoundary_of_mem_lineStarts (List.mem_of_getElem? hnext)).2 (by omega)
    exact slice?_of_boundaries (Nat.le_sub_one_of_lt hlt) hbs hbn
  next => exact slice?_of_boundaries (isBoundary_le hbs) hbs (isBoundary_size t)

theorem findPosition_eq {t : Text} {offset : Nat} (h : (t.columnOf offset + 1) % positionLimit ≠ 0) :
    t.findPosition offset = .ok (t.position offset) :=
  if_neg h

end Text

end Collate
