import Mathlib.Data.List.DropRight
import Collate.Proofs.Text.Bytes
import Collate.Proofs.Text.OpenLine

/-!
# Lines and columns of all offsets

The table of line starts is a table of the line feeds among the bytes of a text.  So the line of an
offset counts the line feeds before it, the columns of a line count up from its start, and a place is
found again from its line and column.  This holds of every offset, also of one inside a character.

* `lineFeed`                   the byte that ends a line;
* `Text.lineOf_eq_count`       the line of an offset;
* `Text.lineOf_lineStart`      a line start is on its own line;
* `Text.isSingleLine_iff_bytes`  which spans stay on one line;
* `Text.HasLine`, `Text.sourceLine_of_hasLine`   the characters of a line;
* `Text.Charted`, `Text.lines_charted`   all of it together.
-/

namespace Collate

def lineFeed : UInt8 :=
  asciiByte '\n'

/-- on an earlier line, or further left on the same line -/
def Position.Before (p q : Position) : Prop :=
  p.line < q.line ∨ p.line = q.line ∧ p.column < q.column

namespace Text
variable {t : Text}

/-! ## line feeds among the bytes -/

/-- the table counts the line feeds that stand in front of an offset -/
theorem countP_lineBreaks (t : Text) (offset bound : Nat) :
    (lineBreaks offset t).countP (fun x => decide (x ≤ bound)) =
      (t.bytes.take (bound - offset)).count lineFeed := by
  induction t generalizing offset with
  | nil => rw [bytes, List.flatMap_nil, List.take_nil]; rfl
  | cons c cs ih =>
    rw [bytes_cons, List.take_append, List.count_append, String.length_utf8EncodeChar, Nat.sub_sub,
      ← ih (offset + c.utf8Size), lineBreaks]
    split
    next hc =>
      subst hc
      have hsize : ('\n').utf8Size = 1 := rfl
      have hbytes : String.utf8EncodeChar '\n' = [lineFeed] := rfl
      rw [hbytes, hsize]
      by_cases hle : offset + 1 ≤ bound
      · rw [List.countP_cons_of_pos (by simpa using hle), List.take_of_length_le (by simp; omega),
          List.count_singleton_self, Nat.add_comm]
      · have hzero : bound - offset = 0 := by omega
        rw [List.countP_cons_of_neg (by simpa using hle), hzero, List.take_zero, List.count_nil, Nat.zero_add]
    next hc =>
      have hnone : lineFeed ∉ (String.utf8EncodeChar c).take (bound - offset) := fun hmem =>
        hc ((asciiByte_mem_utf8EncodeChar (by decide)).mp (List.mem_of_mem_take hmem))
      rw [List.count_eq_zero.mpr hnone, Nat.zero_add]

/-- the line of an offset is one more than the number of line feeds before it -/
theorem lineOf_eq_count (t : Text) (offset : Nat) :
    t.lineOf offset = (t.bytes.take offset).count lineFeed + 1 := by
  rw [lineOf, lineStarts, List.countP_cons_of_pos (by simp), countP_lineBreaks, Nat.sub_zero]

theorem lineOf_le_of_le {a b : Nat} (h : a ≤ b) : t.lineOf a ≤ t.lineOf b := by
  rw [lineOf_eq_count, lineOf_eq_count]
  have hfront : t.bytes.take a <+: t.bytes.take b := List.take_prefix_take_left h
  have := hfront.sublist.count_le lineFeed
  omega

/-- an offset has no higher line than it has bytes before it, and one more -/
theorem lineOf_le (t : Text) (offset : Nat) : t.lineOf offset ≤ offset + 1 := by
  have hcount := List.count_le_length (a := lineFeed) (l := t.bytes.take offset)
  rw [List.length_take] at hcount
  rw [lineOf_eq_count]
  omega

theorem length_lineStarts (t : Text) : t.lineStarts.length = t.bytes.count lineFeed + 1 := by
  have hall : ∀ x ∈ t.lineStarts, decide (x ≤ t.size) = true := by
    intro x hx
    rw [decide_eq_true_eq]
    exact isBoundary_le (isBoundary_of_mem_lineStarts hx).1
  rw [← List.countP_eq_length.mpr hall]
  show t.lineOf t.size = _
  rw [lineOf_eq_count, List.take_of_length_le (by rw [length_bytes])]

/-- bytes between two offsets hold no line feed if the offsets are on one line -/
theorem lineOf_eq_iff {a b : Nat} (h : a ≤ b) :
    t.lineOf a = t.lineOf b ↔ lineFeed ∉ (t.bytes.take b).drop a := by
  have hsplit : t.bytes.take b = t.bytes.take a ++ (t.bytes.take b).drop a := by
    have htake : (t.bytes.take b).take a = t.bytes.take a := by
      rw [List.take_take, Nat.min_eq_left h]
    rw [← htake, List.take_append_drop]
  have hcount := congrArg (List.count lineFeed) hsplit
  rw [List.count_append] at hcount
  rw [lineOf_eq_count, lineOf_eq_count, ← List.count_eq_zero]
  omega

/-! ## starts of lines -/

/-- up to an entry of a growing list there are the entries in front of it, and itself -/
theorem countP_le_getElem {l : List Nat} (h : l.Pairwise (· < ·)) :
    ∀ i (hi : i < l.length), l.countP (fun x => decide (x ≤ l[i])) = i + 1 := by
  induction l with
  | nil =>
    intro i hi
    exact absurd hi (Nat.not_lt_zero i)
  | cons a l ih =>
    obtain ⟨ha, hl⟩ := List.pairwise_cons.mp h
    intro i hi
    cases i with
    | zero =>
      have hnone : l.countP (fun x => decide (x ≤ a)) = 0 := by
        refine List.countP_eq_zero.mpr fun x hx => ?_
        have := ha x hx
        rw [decide_eq_true_eq]
        omega
      rw [List.getElem_cons_zero, List.countP_cons_of_pos (by simp), hnone]
    | succ i =>
      have hi : i < l.length := Nat.lt_of_succ_lt_succ hi
      have hlt := ha l[i] (List.getElem_mem hi)
      rw [List.getElem_cons_succ, List.countP_cons_of_pos (by simpa using Nat.le_of_lt hlt), ih hl i hi]

theorem lineStart_eq {line : Nat} (hpos : 0 < line) (hle : line ≤ t.lineStarts.length) :
    t.lineStarts[line - 1]? = some (t.lineStart line) := by
  have hlt : line - 1 < t.lineStarts.length := by omega
  have hmin : min (line - 1) (t.lineStarts.length - 1) = line - 1 := by omega
  rw [lineStart, hmin, List.getD_eq_getElem?_getD, List.getElem?_eq_getElem hlt]
  rfl

theorem lineOf_lineStart {line : Nat} (hpos : 0 < line) (hle : line ≤ t.lineStarts.length) :
    t.lineOf (t.lineStart line) = line := by
  obtain ⟨hlt, hget⟩ := List.getElem?_eq_some_iff.mp (lineStart_eq hpos hle)
  have hcount := countP_le_getElem (lineStarts_ordered t) (line - 1) hlt
  rw [hget] at hcount
  show t.lineStarts.countP _ = line
  omega

theorem lineStart_le_size {line : Nat} (hpos : 0 < line) (hle : line ≤ t.lineStarts.length) :
    t.lineStart line ≤ t.size :=
  isBoundary_le (isBoundary_of_mem_lineStarts (List.mem_of_getElem? (lineStart_eq hpos hle))).1

/-- a line starts at the front of the text, and behind every line feed -/
theorem lineStart_lineOf_eq_self {offset : Nat} :
    t.lineStart (t.lineOf offset) = offset ↔
      offset = 0 ∨ ∃ before, offset = before + 1 ∧ t.bytes[before]? = some lineFeed := by
  obtain ⟨hstart, hle⟩ := lineStart_lineOf t offset
  constructor
  · intro heq
    rw [heq] at hstart
    rcases List.mem_cons.mp (List.mem_of_getElem? hstart) with hzero | hmem
    · exact .inl hzero
    · obtain ⟨front, rest, rfl, hoffset⟩ := mem_lineBreaks hmem
      refine .inr ⟨front.size, by omega, ?_⟩
      rw [bytes_append, ← length_bytes front, List.getElem?_append_right (Nat.le_refl _), Nat.sub_self]
      rfl
  · rintro (rfl | ⟨before, rfl, hfeed⟩)
    · omega
    · -- an earlier start would be on an earlier line
      by_contra hne
      have hline := lineOf_lineStart (lineOf_pos t (before + 1)) (lineOf_le_length t (before + 1))
      have hmono : t.lineOf (t.lineStart (t.lineOf (before + 1))) ≤ t.lineOf before :=
        lineOf_le_of_le (by omega)
      have hstep : t.lineOf (before + 1) = t.lineOf before + 1 := by
        rw [lineOf_eq_count, lineOf_eq_count, List.take_add_one, hfeed, List.count_append,
          Option.toList_some, List.count_singleton_self]
      omega

/-! ## columns and positions -/

theorem lineStart_add_columnOf (t : Text) (offset : Nat) :
    t.lineStart (t.lineOf offset) + t.columnOf offset = offset := by
  have hle := (lineStart_lineOf t offset).2
  rw [columnOf]
  omega

theorem lineOf_lt_or_columnOf_lt {a b : Nat} (h : a < b) :
    t.lineOf a < t.lineOf b ∨ t.lineOf a = t.lineOf b ∧ t.columnOf a < t.columnOf b := by
  rcases Nat.lt_or_eq_of_le (lineOf_le_of_le (t := t) (Nat.le_of_lt h)) with hlt | heq
  · exact .inl hlt
  · have ha := lineStart_add_columnOf t a
    have hb := lineStart_add_columnOf t b
    rw [heq] at ha
    exact .inr ⟨heq, by omega⟩

/-- both numbers of the place of an offset fit into 32 bits -/
def Numbered (t : Text) (offset : Nat) : Prop :=
  t.lineOf offset < positionLimit ∧ t.columnOf offset + 1 < positionLimit

theorem Numbered.findPosition {offset : Nat} (h : t.Numbered offset) :
    t.findPosition offset = .ok ⟨t.lineOf offset, t.columnOf offset + 1, some offset⟩ := by
  obtain ⟨hline, hcolumn⟩ := h
  have hmod := Nat.mod_eq_of_lt hcolumn
  rw [findPosition_eq (by omega), position, Nat.mod_eq_of_lt hline, hmod]

theorem numbered_of_lt {offset : Nat} (h : offset + 1 < positionLimit) : t.Numbered offset := by
  have hline := lineOf_le t offset
  have hcolumn := lineStart_add_columnOf t offset
  exact ⟨by omega, by omega⟩

/-- The offset is the end of a text of 4 GiB less one byte.  If all its bytes are line feeds, the last line
has too large a number, and if none is, the last column. -/
def AtLimit (t : Text) (offset : Nat) : Prop :=
  offset = t.size ∧ t.size + 1 = positionLimit ∧ ((∀ b ∈ t.bytes, b = lineFeed) ∨ lineFeed ∉ t.bytes)

/-- below 4 GiB the numbers of an offset fit, but for the end of the largest texts -/
theorem numbered_of_size_lt (hsize : t.size < positionLimit) {offset : Nat} (hle : offset ≤ t.size) :
    t.Numbered offset ∨ t.AtLimit offset := by
  by_cases hlt : offset + 1 < positionLimit
  · exact .inl (numbered_of_lt hlt)
  · obtain rfl : offset = t.size := by omega
    have hcount : t.lineOf t.size = t.bytes.count lineFeed + 1 := by
      rw [lineOf_eq_count, List.take_of_length_le (by rw [length_bytes])]
    by_cases hall : ∀ b ∈ t.bytes, b = lineFeed
    · exact .inr ⟨rfl, by omega, .inl hall⟩
    · by_cases hnone : lineFeed ∈ t.bytes
      · left
        have hfew : t.bytes.count lineFeed < t.size := by
          rw [← length_bytes]
          refine Nat.lt_of_le_of_ne List.count_le_length fun heq => hall ?_
          intro b hb
          exact (List.count_eq_length.mp heq b hb).symm
        -- the last line starts behind a line feed, so its columns stay below the size
        have hmany := List.count_pos_iff.mpr hnone
        have hstart : t.lineStart (t.lineOf t.size) ≠ 0 := by
          intro hzero
          have hline := lineOf_lineStart (lineOf_pos t t.size) (lineOf_le_length t t.size)
          rw [hzero, lineOf_eq_count, List.take_zero, List.count_nil] at hline
          omega
        have hcolumn := lineStart_add_columnOf t t.size
        exact ⟨by omega, by omega⟩
      · exact .inr ⟨rfl, by omega, .inr hnone⟩

theorem exists_before (hsize : t.size < positionLimit) {a b : Nat} (h : a < b) (hle : b ≤ t.size)
    (hb : t.Numbered b) : ∃ p q, t.findPosition a = .ok p ∧ t.findPosition b = .ok q ∧ p.Before q := by
  have ha : t.Numbered a := numbered_of_lt (by omega)
  exact ⟨_, _, ha.findPosition, hb.findPosition,
    (lineOf_lt_or_columnOf_lt h).imp_right (And.imp_right Nat.succ_lt_succ)⟩

theorem findPosition_eq_ok {offset : Nat} {p : Position} (h : t.findPosition offset = .ok p) :
    p.line = t.lineOf offset % positionLimit ∧ p.column = (t.columnOf offset + 1) % positionLimit ∧
      0 < p.column := by
  unfold Text.findPosition at h
  split at h
  next => exact nomatch h
  next hcolumn =>
    obtain rfl := Except.ok.inj h
    exact ⟨rfl, rfl, Nat.pos_of_ne_zero hcolumn⟩

/-- no two offsets share line and column, even where a line is cut to 32 bits -/
theorem eq_of_findPosition (hsize : t.size < positionLimit) {a b : Nat} (ha : a ≤ t.size) (hb : b ≤ t.size)
    {p q : Position} (hp : t.findPosition a = .ok p) (hq : t.findPosition b = .ok q)
    (hline : p.line = q.line) (hcolumn : p.column = q.column) : a = b := by
  obtain ⟨hpline, hpcolumn, -⟩ := findPosition_eq_ok hp
  obtain ⟨hqline, hqcolumn, -⟩ := findPosition_eq_ok hq
  have hacolumn := lineStart_add_columnOf t a
  have hbcolumn := lineStart_add_columnOf t b
  -- lines are numbered from one up to the limit, so that the cut keeps them apart
  have hlines : t.lineOf a = t.lineOf b := by
    have haline := lineOf_le t a
    have hbline := lineOf_le t b
    have hapos := lineOf_pos t a
    have hbpos := lineOf_pos t b
    unfold positionLimit at *
    omega
  have hcolumns : t.columnOf a = t.columnOf b := by
    unfold positionLimit at *
    omega
  rw [hlines, hcolumns] at hacolumn
  omega

/-! ## spans on one line -/

/-- a span stays on one line if no byte of it but the last one is a line feed -/
theorem isSingleLine_iff_bytes {s : Span} (h : s.start ≤ s.stop) (hstop : s.stop ≤ t.size) :
    t.isSingleLine s = true ↔ lineFeed ∉ ((t.bytes.take s.stop).drop s.start).dropLast := by
  rw [isSingleLine, beq_iff_eq, firstLine, lastLine]
  by_cases hempty : s.start = s.stop
  · have hnone : (t.bytes.take s.stop).drop s.start = [] :=
      List.drop_eq_nil_of_le (by rw [List.length_take]; omega)
    have hflag : s.isEmpty = true := beq_iff_eq.mpr hempty
    rw [if_pos hflag, hnone]
    simp
  · have hlast : ((t.bytes.take s.stop).drop s.start).dropLast = (t.bytes.take (s.stop - 1)).drop s.start := by
      rw [List.dropLast_eq_take, List.length_drop, List.length_take, length_bytes, Nat.min_eq_left hstop,
        Nat.sub_right_comm, ← List.drop_take, List.take_take, Nat.min_eq_left (Nat.sub_le _ _)]
    rw [if_neg (by simpa [Span.isEmpty] using hempty), hlast]
    exact lineOf_eq_iff (by omega)

/-! ## the characters of a line -/

/-- the line that starts at an offset, up to the next line feed or to the end of the text -/
def HasLine (t : Text) (start : Nat) (line : Text) : Prop :=
  ∃ front rest, t = front ++ (line ++ rest) ∧ front.size = start ∧ '\n' ∉ line ∧
    (rest = [] ∨ ∃ behind, rest = '\n' :: behind)

theorem exists_hasLine {line : Nat} (hpos : 0 < line) (hle : line ≤ t.lineStarts.length) :
    ∃ chars, t.HasLine (t.lineStart line) chars := by
  have hmem := List.mem_of_getElem? (lineStart_eq hpos hle)
  obtain ⟨front, tail, ht, hfront⟩ := isBoundary_iff.mp (isBoundary_of_mem_lineStarts hmem).1
  obtain ⟨chars, rest, rfl, hchars, hrest⟩ := exists_firstLine tail
  exact ⟨chars, front, rest, ht, hfront, hchars, hrest⟩

/-- the characters of a line are those from its start on, without the carriage returns in front of its end -/
theorem sourceLine_of_hasLine {line : Nat} (hpos : 0 < line) (hle : line ≤ t.lineStarts.length) {chars : Text}
    (h : t.HasLine (t.lineStart line) chars) : t.sourceLine line = chars.dropReturns := by
  obtain ⟨front, rest, ht, hfront, hchars, hrest⟩ := h
  have hline : t.lineOf front.size = line := by rw [hfront, lineOf_lineStart hpos hle]
  have hstop := lineStop_append hchars hrest front
  rw [← ht, hline] at hstop
  have hslice : t.slice? ⟨t.lineStart line, t.lineStop line⟩ = some chars := by
    refine slice?_eq_some.mpr ⟨front, rest, by rw [ht, List.append_assoc], hfront, ?_⟩
    show t.lineStop line = t.lineStart line + _
    rw [hstop, size_append, hfront]
  rw [sourceLine, hslice]
  rfl

/-- only carriage returns are dropped from the end of a line, and all of them -/
theorem exists_returns (chars : Text) : ∃ returns, chars = chars.dropReturns ++ returns ∧
    (∀ c ∈ returns, c = '\r') ∧ chars.dropReturns.getLast? ≠ some '\r' := by
  have hdrop : chars.dropReturns = chars.rdropWhile (· == '\r') := rfl
  refine ⟨chars.rtakeWhile (· == '\r'), ?_, fun c hc => ?_, fun hlast => ?_⟩
  · rw [hdrop, List.rdropWhile_append_rtakeWhile]
  · exact beq_iff_eq.mp (List.mem_rtakeWhile_imp (p := (· == '\r')) hc)
  · rw [hdrop] at hlast
    have hne : chars.rdropWhile (· == '\r') ≠ [] := fun hnil => by simp [hnil] at hlast
    have hlast' := List.rdropWhile_last_not (· == '\r') chars hne
    rw [List.getLast?_eq_some_getLast hne, Option.some.injEq] at hlast
    exact hlast' (beq_iff_eq.mpr hlast)

/-! ## indentation -/

theorem isBlank_iff {c : Char} : (c == ' ' || c == '\t') = true ↔ c = ' ' ∨ c = '\t' := by
  simp

/-- carriage returns at the end are no part of the blanks that a line begins with -/
theorem blanks_append_returns {chars returns : Text} (h : ∀ c ∈ returns, c = '\r') :
    blanks (chars ++ returns) = blanks chars := by
  cases returns with
  | nil => rw [List.append_nil]
  | cons c returns =>
    obtain rfl := h c List.mem_cons_self
    exact blanks_append_cons rfl

/-- the blanks that a line begins with are its longest beginning without other characters -/
theorem prefix_blanks {p chars : Text} (hfront : p <+: chars) (hp : ∀ c ∈ p, c = ' ' ∨ c = '\t') :
    p <+: blanks chars := by
  obtain ⟨rest, rfl⟩ := hfront
  have hall : ∀ c ∈ p, (c == ' ' || c == '\t') = true := fun c hc => isBlank_iff.mpr (hp c hc)
  rw [blanks, List.takeWhile_append_of_pos hall]
  exact List.prefix_append _ _

/-- the indentation of an offset is made of the blanks that open its line -/
theorem indentation_eq {offset : Nat} {chars : Text} (h : t.HasLine (t.lineStart (t.lineOf offset)) chars) :
    t.indentation offset = blanks chars := by
  obtain ⟨returns, hchars, hreturns, -⟩ := exists_returns chars
  rw [indentation, sourceLine_of_hasLine (lineOf_pos t offset) (lineOf_le_length t offset) h]
  show blanks chars.dropReturns = _
  rw [← blanks_append_returns hreturns, ← hchars]

/-! ## all of it -/

/-- Where the lines and offsets of a text are.  Offsets count bytes, and an offset may also lie inside a
character. -/
structure Charted (t : Text) : Prop where
  /-- the line of an offset is one plus the number of line feeds before it -/
  line : ∀ offset ≤ t.size, t.lineOf offset = 1 + (t.bytes.take offset).count lineFeed
  /-- the column leads from the start of the line to the offset, over no line feed -/
  column : ∀ offset ≤ t.size, t.lineStart (t.lineOf offset) ≤ offset ∧
    t.lineStart (t.lineOf offset) + t.columnOf offset = offset ∧
    lineFeed ∉ (t.bytes.take offset).drop (t.lineStart (t.lineOf offset))
  /-- the place of an offset is its line and its column, counted from one; both fit into 32 bits, but for the
  end of the largest texts -/
  place : ∀ offset ≤ t.size,
    t.findPosition offset = .ok ⟨t.lineOf offset, t.columnOf offset + 1, some offset⟩ ∨ t.AtLimit offset
  /-- places grow with the offset -/
  place_grows : ∀ a b, a < b → b ≤ t.size →
    (∃ p q, t.findPosition a = .ok p ∧ t.findPosition b = .ok q ∧ p.Before q) ∨ t.AtLimit b
  /-- line and column determine the offset -/
  place_unique : ∀ a ≤ t.size, ∀ b ≤ t.size, ∀ p q, t.findPosition a = .ok p → t.findPosition b = .ok q →
    p.line = q.line → p.column = q.column → a = b
  /-- every line starts on itself -/
  start_line : ∀ line, 1 ≤ line → line ≤ t.bytes.count lineFeed + 1 →
    t.lineStart line ≤ t.size ∧ t.lineOf (t.lineStart line) = line
  /-- the starts of lines are the front of the text and the offsets behind its line feeds -/
  line_start : ∀ offset ≤ t.size, t.lineStart (t.lineOf offset) = offset ↔
    offset = 0 ∨ ∃ before, offset = before + 1 ∧ t.bytes[before]? = some lineFeed
  /-- a span stays on one line if no byte of it but the last one is a line feed -/
  single_line : ∀ s : Span, s.start ≤ s.stop → s.stop ≤ t.size →
    (t.isSingleLine s = true ↔ lineFeed ∉ ((t.bytes.take s.stop).drop s.start).dropLast)
  /-- the characters of a line reach from its start to the next line feed or to the end of the text, without
  the carriage returns there -/
  source_line : ∀ line, 1 ≤ line → line ≤ t.bytes.count lineFeed + 1 → ∃ chars returns,
    t.HasLine (t.lineStart line) chars ∧ t.findLine line = .ok (t.sourceLine line) ∧
      chars = t.sourceLine line ++ returns ∧ (∀ c ∈ returns, c = '\r') ∧
      (t.sourceLine line).getLast? ≠ some '\r'
  /-- the indentation of an offset is the longest beginning of its line that is blanks and tabs -/
  indented : ∀ offset ≤ t.size, ∃ chars, t.HasLine (t.lineStart (t.lineOf offset)) chars ∧
    t.indentation offset <+: chars ∧ (∀ c ∈ t.indentation offset, c = ' ' ∨ c = '\t') ∧
      ∀ p, p <+: chars → (∀ c ∈ p, c = ' ' ∨ c = '\t') → p <+: t.indentation offset

/-- **The lines and columns of a text are where its line feeds put them.** -/
theorem lines_charted (t : Text) (hsize : t.size < positionLimit) : t.Charted := by
  have hlines {line : Nat} (hle : line ≤ t.bytes.count lineFeed + 1) : line ≤ t.lineStarts.length := by
    rw [length_lineStarts]
    exact hle
  constructor
  case line => exact fun offset _ => by rw [lineOf_eq_count, Nat.add_comm]
  case column =>
    intro offset _
    have hle := (lineStart_lineOf t offset).2
    have hself := lineOf_lineStart (lineOf_pos t offset) (lineOf_le_length t offset)
    exact ⟨hle, lineStart_add_columnOf t offset, (lineOf_eq_iff hle).mp hself⟩
  case place => exact fun offset hle => (numbered_of_size_lt hsize hle).imp_left Numbered.findPosition
  case place_grows =>
    exact fun a b hab hle => (numbered_of_size_lt hsize hle).imp_left (exists_before hsize hab hle)
  case place_unique =>
    exact fun a ha b hb p q hp hq hline hcolumn => eq_of_findPosition hsize ha hb hp hq hline hcolumn
  case start_line =>
    exact fun line hpos hle => ⟨lineStart_le_size hpos (hlines hle), lineOf_lineStart hpos (hlines hle)⟩
  case line_start => exact fun offset _ => lineStart_lineOf_eq_self
  case single_line => exact fun s h hstop => isSingleLine_iff_bytes h hstop
  case source_line =>
    intro line hpos hle
    obtain ⟨chars, hchars⟩ := exists_hasLine hpos (hlines hle)
    have hsource := sourceLine_of_hasLine hpos (hlines hle) hchars
    obtain ⟨returns, heq, hreturns, hlast⟩ := exists_returns chars
    rw [← hsource] at heq hlast
    exact ⟨chars, returns, hchars, if_neg (Nat.ne_of_gt hpos), heq, hreturns, hlast⟩
  case indented =>
    intro offset _
    obtain ⟨chars, hchars⟩ := exists_hasLine (lineOf_pos t offset) (lineOf_le_length t offset)
    refine ⟨chars, hchars, ?_⟩
    rw [indentation_eq hchars]
    refine ⟨List.takeWhile_prefix _, fun c hc => ?_, fun p hfront hp => prefix_blanks hfront hp⟩
    have hblank := List.mem_takeWhile_imp (p := fun c => c == ' ' || c == '\t') hc
    exact isBlank_iff.mp hblank

/-- an offset inside a character, a span that ends behind a line feed, and a carriage return in front of one -/
theorem lines_charted_tab : Text.size "é\r\n\tb".toList < positionLimit ∧
    Text.Charted "é\r\n\tb".toList ∧
    Text.findPosition "é\r\n\tb".toList 1 = .ok ⟨1, 2, some 1⟩ ∧
    Text.isSingleLine "é\r\n\tb".toList ⟨0, 4⟩ = true ∧
    ∃ chars returns, Text.HasLine "é\r\n\tb".toList 0 chars ∧ chars = ['é'] ++ returns ∧
      ∀ c ∈ returns, c = '\r' := by
  have hcharted := lines_charted "é\r\n\tb".toList (by decide)
  obtain ⟨chars, returns, hline, -, heq, hreturns, -⟩ := hcharted.source_line 1 (by decide) (by decide +kernel)
  refine ⟨by decide, hcharted, ?_, ?_, chars, returns, hline, heq, hreturns⟩
  · rcases hcharted.place 1 (by decide) with hplace | ⟨hend, -⟩
    · exact hplace
    · exact absurd hend (by decide)
  · exact (hcharted.single_line ⟨0, 4⟩ (by decide) (by decide)).mpr (by decide +kernel)

/-! ## the limit -/

theorem size_replicate {c : Char} (h : c.utf8Size = 1) (n : Nat) : Text.size (List.replicate n c) = n := by
  induction n with
  | zero => rfl
  | succ n ih => rw [List.replicate_succ, size_cons, ih, h, Nat.add_comm]

theorem columnOf_firstLine {a b : Text} (h : '\n' ∉ a) : columnOf (a ++ b) a.size = a.size := by
  rw [columnOf_cut]
  exact congrArg size (openLine_append (a := []) h)

theorem findPosition_atLimit {a b : Text} (h : '\n' ∉ a) (hsize : a.size + 1 = positionLimit) :
    findPosition (a ++ b) a.size = .error (.column a.size) := by
  rw [findPosition, columnOf_firstLine h, hsize]
  exact if_pos rfl

theorem findPosition_lineFeeds (n : Nat) :
    findPosition (List.replicate n '\n') n = .ok ⟨(n + 1) % positionLimit, 1, some n⟩ := by
  have hsize : Text.size (List.replicate n '\n') = n := size_replicate rfl n
  have hopen : openLine (List.replicate n '\n') = [] := by
    cases n with
    | zero => rfl
    | succ n => rw [List.replicate_succ', openLine_concat, if_pos rfl]
  have hline := lineOf_cut (List.replicate n '\n') []
  have hcolumn := columnOf_cut (List.replicate n '\n') []
  rw [List.append_nil, hsize] at hline hcolumn
  rw [hopen] at hcolumn
  rw [findPosition, position, hline, hcolumn, List.count_replicate_self]
  rfl

/-- 4 GiB less one byte of line feeds end on a line numbered zero, and as many blanks have no column there -/
theorem places_not_growing :
    Text.size (List.replicate 4294967295 '\n') = 4294967295 ∧
    Text.findPosition (List.replicate 4294967295 '\n') 0 = .ok ⟨1, 1, some 0⟩ ∧
    Text.findPosition (List.replicate 4294967295 '\n') 4294967295 = .ok ⟨0, 1, some 4294967295⟩ ∧
    ¬ Position.Before ⟨1, 1, some 0⟩ ⟨0, 1, some 4294967295⟩ ∧
    Text.size (List.replicate 4294967295 ' ') = 4294967295 ∧
    Text.findPosition (List.replicate 4294967295 ' ') 4294967295 = .error (.column 4294967295) := by
  have hfirst : Text.Numbered (List.replicate 4294967295 '\n') 0 := numbered_of_lt (by decide)
  have hblanks : Text.size (List.replicate 4294967295 ' ') = 4294967295 := size_replicate rfl _
  refine ⟨size_replicate rfl _, ?_, findPosition_lineFeeds _, by unfold Position.Before; decide, hblanks, ?_⟩
  · rw [hfirst.findPosition, lineOf_eq_count, List.take_zero, columnOf, Nat.zero_sub]
    rfl
  · have hnone : '\n' ∉ List.replicate 4294967295 ' ' := fun h => by
      have := List.eq_of_mem_replicate h
      exact absurd this (by decide)
    have hfault := findPosition_atLimit (b := []) hnone (by rw [hblanks]; rfl)
    rwa [List.append_nil, hblanks] at hfault

end Text

end Collate
