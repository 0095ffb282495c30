import Mathlib.Data.List.Induction
import Mathlib.Data.List.TakeWhile
import Collate.Proofs.Text.Lines

/-!
# Lines at a cut

Where a text is cut in two, line, column and indentation of the offset are read off the first part.

* `Text.openLine`            the characters behind the last line feed;
* `Text.lineOf_append`       the line of a cut;
* `Text.columnOf_cut`        the column of a cut;
* `Text.lineStop_append`     the end of its line;
* `Text.indentation_cut`     its indentation, in front of a character that is no white space;
* `Text.isSingleLine_iff`    a piece stands on one line if it has no line feed.
-/

namespace Collate

namespace Text

/-! ## the line that is open -/

def openLine (t : Text) : Text :=
  (t.reverse.takeWhile (· != '\n')).reverse

theorem openLine_concat (t : Text) (c : Char) :
    openLine (t ++ [c]) = if c = '\n' then [] else openLine t ++ [c] := by
  rw [openLine, List.reverse_append, List.reverse_singleton, List.singleton_append, List.takeWhile_cons]
  by_cases hc : c = '\n'
  · simp [hc]
  · simp [hc, openLine]

theorem openLine_append {a b : Text} (h : '\n' ∉ b) : openLine (a ++ b) = openLine a ++ b := by
  induction b using List.reverseRecOn with
  | nil => rw [List.append_nil, List.append_nil]
  | append_singleton b c ih =>
    rw [List.mem_append, List.mem_singleton, not_or] at h
    rw [← List.append_assoc, openLine_concat, if_neg (Ne.symm h.2), ih h.1, List.append_assoc]

theorem openLine_append_cons {a b : Text} (h : '\n' ∉ b) : openLine (a ++ '\n' :: b) = b := by
  show openLine (a ++ ([ '\n' ] ++ b)) = b
  rw [← List.append_assoc, openLine_append h, openLine_concat, if_pos rfl, List.nil_append]

/-- a text is what stands up to its last line feed, and its open line -/
theorem exists_openLine (t : Text) : '\n' ∉ openLine t ∧ ∃ upto, t = upto ++ openLine t := by
  constructor
  · intro hmem
    have hfeed := List.mem_takeWhile_imp (List.mem_reverse.mp hmem)
    simp at hfeed
  · refine ⟨(t.reverse.dropWhile (· != '\n')).reverse, ?_⟩
    rw [openLine, ← List.reverse_append, List.takeWhile_append_dropWhile, List.reverse_reverse]

/-! ## line starts -/

theorem lineBreaks_append (offset : Nat) (a b : Text) :
    lineBreaks offset (a ++ b) = lineBreaks offset a ++ lineBreaks (offset + a.size) b := by
  induction a generalizing offset with
  | nil => rfl
  | cons c a ih =>
    rw [List.cons_append, lineBreaks, lineBreaks, ih, size_cons, Nat.add_assoc]
    split <;> rfl

theorem length_lineBreaks (offset : Nat) (t : Text) : (lineBreaks offset t).length = t.count '\n' := by
  induction t generalizing offset with
  | nil => rfl
  | cons c t ih =>
    rw [lineBreaks]
    split
    next hc => rw [List.length_cons, ih, hc, List.count_cons_self]
    next hc => rw [ih, List.count_cons_of_ne hc]

theorem lineBreaks_le {offset x : Nat} {t : Text} (h : x ∈ lineBreaks offset t) : x ≤ offset + t.size := by
  obtain ⟨front, rest, rfl, rfl⟩ := mem_lineBreaks h
  have hfeed : ('\n').utf8Size = 1 := rfl
  rw [size_append, size_cons, hfeed]
  omega

theorem lt_of_mem_lineBreaks {offset x : Nat} {t : Text} (h : x ∈ lineBreaks offset t) : offset < x :=
  (List.pairwise_cons.mp (lineBreaks_ordered t offset)).1 x h

theorem getLastD_lineBreaks (offset : Nat) (t : Text) :
    (lineBreaks offset t).getLastD offset + (openLine t).size = offset + t.size := by
  induction t using List.reverseRecOn with
  | nil => rfl
  | append_singleton t c ih =>
    have hsize : Text.size [c] = c.utf8Size := Nat.add_zero _
    rw [openLine_concat, lineBreaks_append, size_append, hsize, ← Nat.add_assoc]
    by_cases hc : c = '\n'
    · have hbreaks : lineBreaks (offset + size t) [c] = [offset + size t + c.utf8Size] := by
        simp [lineBreaks, hc]
      rw [hbreaks, List.getLastD_concat, if_pos hc]
      rfl
    · have hbreaks : lineBreaks (offset + size t) [c] = [] := by simp [lineBreaks, hc]
      rw [hbreaks, List.append_nil, if_neg hc, size_append, hsize, ← Nat.add_assoc, ih]

/-! ## line and column of a cut -/

/-- the line of an offset behind a first part, with no line start between them -/
theorem lineOf_append {a b : Text} {offset : Nat} (hle : a.size ≤ offset)
    (hb : ∀ x ∈ lineBreaks a.size b, offset < x) : lineOf (a ++ b) offset = a.count '\n' + 1 := by
  have hfront : ∀ x ∈ 0 :: lineBreaks 0 a, decide (x ≤ offset) = true := by
    intro x hx
    rw [decide_eq_true_eq]
    rcases List.mem_cons.mp hx with rfl | hx
    · exact Nat.zero_le _
    · have := lineBreaks_le hx
      omega
  have hback : ∀ x ∈ lineBreaks a.size b, ¬ decide (x ≤ offset) = true := by
    intro x hx
    rw [decide_eq_true_eq]
    exact Nat.not_le_of_lt (hb x hx)
  rw [lineOf, lineStarts, lineBreaks_append, Nat.zero_add, ← List.cons_append, List.countP_append,
    List.countP_eq_length.mpr hfront, List.countP_eq_zero.mpr hback, List.length_cons, length_lineBreaks]

theorem lineOf_cut (a b : Text) : lineOf (a ++ b) a.size = a.count '\n' + 1 :=
  lineOf_append (Nat.le_refl _) fun _ hx => lt_of_mem_lineBreaks hx

theorem lineStart_cut (a b : Text) :
    lineStart (a ++ b) (lineOf (a ++ b) a.size) + (openLine a).size = a.size := by
  have hlast := getLastD_lineBreaks 0 a
  have hindex : min (a.count '\n' + 1 - 1) ((lineStarts (a ++ b)).length - 1) = a.count '\n' := by
    rw [lineStarts, lineBreaks_append, List.length_cons, List.length_append, length_lineBreaks]
    omega
  -- the line of the cut is the last one that starts in the first part
  have hstart : (lineStarts (a ++ b))[a.count '\n']? = some ((lineBreaks 0 a).getLastD 0) := by
    rw [lineStarts, lineBreaks_append, ← List.cons_append, ← length_lineBreaks 0 a,
      List.getElem?_append_left (by simp), List.getLastD_eq_getLast?, ← List.getLast?_cons,
      List.getLast?_eq_getElem?]
    rfl
  rw [lineOf_cut, lineStart, hindex, List.getD_eq_getElem?_getD, hstart, Option.getD_some]
  omega

theorem columnOf_cut (a b : Text) : columnOf (a ++ b) a.size = (openLine a).size := by
  have hstart := lineStart_cut a b
  rw [columnOf]
  omega

/-! ## indentation -/

def blanks (t : Text) : Text :=
  t.takeWhile (fun c => c == ' ' || c == '\t')

theorem blanks_append_cons {a b : Text} {c : Char} (hc : (c == ' ' || c == '\t') = false) :
    blanks (a ++ c :: b) = blanks a := by
  induction a with
  | nil => 
    rw [List.nil_append, blanks, List.takeWhile_cons, hc]
    rfl
  | cons d a ih =>
    rw [blanks, blanks, List.cons_append, List.takeWhile_cons, List.takeWhile_cons]
    split
    · exact congrArg (d :: ·) ih
    · rfl

theorem dropReturns_append_cons {c : Char} (hc : c ≠ '\r') (a b : Text) :
    ∃ rest, dropReturns (a ++ c :: b) = a ++ c :: rest := by
  have hkept : (c :: a.reverse).dropWhile (· == '\r') = c :: a.reverse :=
    List.dropWhile_cons_of_neg (by simpa using hc)
  rw [dropReturns, List.reverse_append, List.reverse_cons, List.append_assoc, List.singleton_append,
    List.dropWhile_append, hkept]
  split
  · exact ⟨[], by simp⟩
  · exact ⟨(b.reverse.dropWhile (· == '\r')).reverse, by simp⟩

theorem lineBreaks_eq_nil {t : Text} (h : '\n' ∉ t) (offset : Nat) : lineBreaks offset t = [] := by
  rw [← List.length_eq_zero_iff, length_lineBreaks]
  exact List.count_eq_zero.mpr h

theorem lineStop_append {line rest : Text} (hline : '\n' ∉ line)
    (hrest : rest = [] ∨ ∃ behind, rest = '\n' :: behind) (front : Text) :
    lineStop (front ++ (line ++ rest)) (lineOf (front ++ (line ++ rest)) front.size) = (front ++ line).size := by
  have hnext : (lineStarts (front ++ (line ++ rest)))[front.count '\n' + 1]?
      = (lineBreaks (front ++ line).size rest).head? := by
    rw [lineStarts, lineBreaks_append, Nat.zero_add, List.getElem?_cons_succ, ← length_lineBreaks 0 front,
      List.getElem?_append_right (Nat.le_refl _), Nat.sub_self, ← List.head?_eq_getElem?, lineBreaks_append,
      lineBreaks_eq_nil hline, List.nil_append, size_append]
  rw [lineOf_cut, lineStop, hnext]
  rcases hrest with rfl | ⟨behind, rfl⟩
  · rw [List.append_nil]
    rfl
  · rfl

theorem exists_firstLine (t : Text) : ∃ line rest, t = line ++ rest ∧ '\n' ∉ line ∧
    (rest = [] ∨ ∃ behind, rest = '\n' :: behind) := by
  by_cases hfeed : '\n' ∈ t
  · obtain ⟨line, behind, rfl, hline⟩ := List.eq_append_cons_of_mem hfeed
    exact ⟨line, '\n' :: behind, rfl, hline, .inr ⟨behind, rfl⟩⟩
  · exact ⟨t, [], (List.append_nil t).symm, hfeed, .inl rfl⟩

/-- the line of a cut in front of a character reaches behind the character -/
theorem lineStop_cut {c : Char} (hc : c ≠ '\n') (a b : Text) : ∃ first rest, b = first ++ rest ∧
    lineStop (a ++ c :: b) (lineOf (a ++ c :: b) a.size) = (a ++ c :: first).size := by
  obtain ⟨first, rest, rfl, hfirst, hrest⟩ := exists_firstLine b
  have hline : '\n' ∉ c :: first := by
    rw [List.mem_cons, not_or]
    exact ⟨Ne.symm hc, hfirst⟩
  exact ⟨first, rest, rfl, lineStop_append hline hrest a⟩

/-- the indentation of a cut, in front of a character that is no white space -/
theorem indentation_cut {c : Char} (hc : c ≠ ' ' ∧ c ≠ '\t' ∧ c ≠ '\r' ∧ c ≠ '\n') (a b : Text) :
    indentation (a ++ c :: b) a.size = blanks (openLine a) := by
  obtain ⟨hblank, htab, hreturn, hfeed⟩ := hc
  obtain ⟨upto, hupto⟩ := (exists_openLine a).2
  have hstart := lineStart_cut a (c :: b)
  obtain ⟨first, rest, hb, hstop⟩ := lineStop_cut hfeed a b
  rw [indentation, sourceLine]
  generalize lineStart (a ++ c :: b) (lineOf (a ++ c :: b) a.size) = start at hstart
  generalize lineStop (a ++ c :: b) (lineOf (a ++ c :: b) a.size) = stop at hstop
  have hslice : (a ++ c :: b).slice? ⟨start, stop⟩ = some (openLine a ++ c :: first) := by
    have hsize := congrArg size hupto
    rw [size_append] at hsize
    refine slice?_eq_some.mpr ⟨upto, rest, ?_, ?_, ?_⟩
    · rw [← List.append_assoc, ← hupto, hb, List.append_assoc]
      rfl
    · show upto.size = start
      omega
    · show stop = start + _
      rw [hstop, size_append, size_append]
      omega
  obtain ⟨line, hline⟩ := dropReturns_append_cons hreturn (openLine a) first
  rw [hslice, Option.getD_some, hline]
  exact blanks_append_cons (by simp [hblank, htab])

/-! ## pieces on one line -/

/-- a piece that does not end in a line feed stands on one line if it has none -/
theorem isSingleLine_iff {c : Char} (hc : c ≠ '\n') (front piece rest : Text) :
    isSingleLine (front ++ (piece ++ [c]) ++ rest) ⟨front.size, (front ++ (piece ++ [c])).size⟩ = true ↔
      '\n' ∉ piece ++ [c] := by
  have hpos := Char.utf8Size_pos c
  have hsize : (front ++ (piece ++ [c])).size = (front ++ piece).size + c.utf8Size := by
    rw [← List.append_assoc, size_append (front ++ piece)]
    rfl
  have hfirst : lineOf (front ++ (piece ++ [c]) ++ rest) front.size = front.count '\n' + 1 := by
    rw [List.append_assoc]
    exact lineOf_cut _ _
  have hlast : lineOf (front ++ (piece ++ [c]) ++ rest) ((front ++ (piece ++ [c])).size - 1)
      = (front ++ piece).count '\n' + 1 := by
    have hsplit : front ++ (piece ++ [c]) ++ rest = (front ++ piece) ++ c :: rest := by simp
    rw [hsplit, hsize]
    refine lineOf_append (by omega) fun x hx => ?_
    rw [lineBreaks, if_neg hc] at hx
    have := lt_of_mem_lineBreaks hx
    rw [size_append] at *
    omega
  have hlt : front.size < (front ++ (piece ++ [c])).size := by
    rw [hsize, size_append]
    omega
  have hempty : Span.isEmpty ⟨front.size, (front ++ (piece ++ [c])).size⟩ = false :=
    beq_eq_false_iff_ne.mpr (Nat.ne_of_lt hlt)
  have hcount : (front ++ piece).count '\n' = front.count '\n' + piece.count '\n' := List.count_append ..
  rw [isSingleLine, firstLine, lastLine, hempty, if_neg Bool.false_ne_true, hfirst, hlast, beq_iff_eq,
    List.mem_append, List.mem_singleton, not_or, ← List.count_eq_zero, hcount]
  exact ⟨fun h => ⟨by omega, Ne.symm hc⟩, fun h => by omega⟩

end Text

end Collate
