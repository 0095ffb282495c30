import Collate.Text.Basic

/-!
# Cutting text

Offsets count bytes, and `Text.drop?`, `Text.take?` and `Text.slice?` answer only when an offset
falls between two characters.  Here they are tied to concatenation:

* `Text.drop?_eq_some`     the rest of a text behind `n` bytes;
* `Text.isBoundary_iff`    an offset is a boundary when it is the size of a first part;
* `Text.slice?_eq_some`    a piece under a span, with what stands before and behind it;
* `Text.slice?_of_boundaries`  between two boundaries there is always a piece;
* `Text.exists_cut`        a text cut at the ends of a piece;
* `Text.slice?_inside`     a piece inside another one;
* `Text.charAt?`           the character that begins at an offset.
-/

namespace Collate

namespace Text

theorem size_pos_of_ne_nil {t : Text} (h : t ≠ []) : 0 < t.size := by
  cases t with
  | nil => exact absurd rfl h
  | cons c cs =>
    have := Char.utf8Size_pos c
    rw [size_cons]
    omega

theorem size_eq_zero {t : Text} (h : t.size = 0) : t = [] := by
  cases t with
  | nil => rfl
  | cons c cs =>
    have := size_pos_of_ne_nil (List.cons_ne_nil c cs)
    omega

/-! ## the rest behind some bytes -/

theorem drop?_zero (t : Text) : drop? 0 t = some t := by
  cases t <;> rfl

theorem drop?_append (front rest : Text) : drop? front.size (front ++ rest) = some rest := by
  induction front with
  | nil => exact drop?_zero rest
  | cons c cs ih =>
    have hc := Char.utf8Size_pos c
    rw [size_cons, List.cons_append]
    obtain ⟨n, hn⟩ : ∃ n, c.utf8Size + size cs = n + 1 := ⟨c.utf8Size + size cs - 1, by omega⟩
    rw [hn, drop?, if_pos (by omega)]
    have e : n + 1 - c.utf8Size = size cs := by omega
    rw [e]
    exact ih

/-- what is left behind `n` bytes follows a first part of `n` bytes -/
theorem drop?_eq_some {n : Nat} {t rest : Text} :
    drop? n t = some rest ↔ ∃ front, t = front ++ rest ∧ front.size = n := by
  constructor
  · intro h
    induction t generalizing n with
    | nil =>
      cases n with
      | zero =>
        rw [drop?_zero, Option.some.injEq] at h
        exact ⟨[], h, rfl⟩
      | succ n => exact absurd h (by simp [drop?])
    | cons c cs ih =>
      cases n with
      | zero =>
        rw [drop?_zero, Option.some.injEq] at h
        exact ⟨[], h, rfl⟩
      | succ n =>
        rw [drop?] at h
        split at h
        next hc =>
          obtain ⟨front, rfl, hsize⟩ := ih h
          refine ⟨c :: front, rfl, ?_⟩
          rw [size_cons]
          omega
        next => exact absurd h (by simp)
  · rintro ⟨front, rfl, rfl⟩
    exact drop?_append front rest

/-! ## the first bytes -/

theorem take?_zero (t : Text) : take? 0 t = some [] := by
  cases t <;> rfl

theorem take?_append (front rest : Text) : take? front.size (front ++ rest) = some front := by
  induction front with
  | nil => exact take?_zero rest
  | cons c cs ih =>
    have hc := Char.utf8Size_pos c
    rw [size_cons, List.cons_append]
    obtain ⟨n, hn⟩ : ∃ n, c.utf8Size + size cs = n + 1 := ⟨c.utf8Size + size cs - 1, by omega⟩
    rw [hn, take?, if_pos (by omega)]
    have e : n + 1 - c.utf8Size = size cs := by omega
    rw [e, ih]
    rfl

theorem take?_eq_some {n : Nat} {t front : Text} :
    take? n t = some front ↔ ∃ rest, t = front ++ rest ∧ front.size = n := by
  constructor
  · intro h
    induction t generalizing n front with
    | nil =>
      cases n with
      | zero =>
        rw [take?_zero, Option.some.injEq] at h
        exact ⟨[], by rw [← h]; rfl, by rw [← h]; rfl⟩
      | succ n => exact absurd h (by simp [take?])
    | cons c cs ih =>
      cases n with
      | zero =>
        rw [take?_zero, Option.some.injEq] at h
        exact ⟨c :: cs, by rw [← h]; rfl, by rw [← h]; rfl⟩
      | succ n =>
        rw [take?] at h
        split at h
        next hc =>
          obtain ⟨first, hfirst, rfl⟩ := Option.map_eq_some_iff.mp h
          obtain ⟨rest, rfl, hsize⟩ := ih hfirst
          refine ⟨rest, rfl, ?_⟩
          rw [size_cons]
          omega
        next => exact absurd h (by simp)
  · rintro ⟨rest, rfl, rfl⟩
    exact take?_append front rest

/-! ## boundaries and pieces -/

theorem isBoundary_iff {t : Text} {offset : Nat} :
    t.isBoundary offset = true ↔ ∃ front rest, t = front ++ rest ∧ front.size = offset := by
  rw [isBoundary, Option.isSome_iff_exists]
  constructor
  · rintro ⟨rest, h⟩
    obtain ⟨front, ht, hsize⟩ := drop?_eq_some.mp h
    exact ⟨front, rest, ht, hsize⟩
  · rintro ⟨front, rest, ht, hsize⟩
    exact ⟨rest, drop?_eq_some.mpr ⟨front, ht, hsize⟩⟩

theorem isBoundary_zero (t : Text) : t.isBoundary 0 = true :=
  isBoundary_iff.mpr ⟨[], t, rfl, rfl⟩

theorem isBoundary_size (t : Text) : t.isBoundary t.size = true :=
  isBoundary_iff.mpr ⟨t, [], (List.append_nil t).symm, rfl⟩

theorem isBoundary_le {t : Text} {offset : Nat} (h : t.isBoundary offset = true) :
    offset ≤ t.size := by
  obtain ⟨front, rest, rfl, rfl⟩ := isBoundary_iff.mp h
  rw [size_append]
  omega

theorem slice?_eq_some {t piece : Text} {s : Span} :
    t.slice? s = some piece ↔
      ∃ front rest, t = front ++ piece ++ rest ∧ front.size = s.start ∧
        s.stop = s.start + piece.size := by
  constructor
  · intro h
    rw [slice?] at h
    split at h
    next hle =>
      obtain ⟨tail, htail, hpiece⟩ := Option.bind_eq_some_iff.mp h
      obtain ⟨front, rfl, hfront⟩ := drop?_eq_some.mp htail
      obtain ⟨rest, rfl, hsize⟩ := take?_eq_some.mp hpiece
      exact ⟨front, rest, by simp, hfront, by omega⟩
    next => exact absurd h (by simp)
  · rintro ⟨front, rest, rfl, hfront, hstop⟩
    rw [slice?, if_pos (by omega), Option.bind_eq_some_iff]
    refine ⟨piece ++ rest, drop?_eq_some.mpr ⟨front, by simp, hfront⟩, ?_⟩
    exact take?_eq_some.mpr ⟨rest, rfl, by omega⟩

/-- between two parts of one text, the longer first part begins with the shorter one -/
theorem exists_between {a b c d : Text} (h : a ++ b = c ++ d) (hle : a.size ≤ c.size) :
    ∃ m, c = a ++ m ∧ b = m ++ d := by
  rcases List.append_eq_append_iff.mp h with ⟨m, hc, hb⟩ | ⟨m, ha, hd⟩
  · exact ⟨m, hc, hb⟩
  · have hm : m = [] := by
      apply size_eq_zero
      rw [ha, size_append] at hle
      omega
    subst hm
    exact ⟨[], by simpa using ha.symm, by simpa using hd.symm⟩

theorem append_inj_of_size {a b c d : Text} (h : a ++ b = c ++ d) (hsize : a.size = c.size) :
    a = c ∧ b = d := by
  obtain ⟨m, rfl, rfl⟩ := exists_between h (Nat.le_of_eq hsize)
  rw [size_append] at hsize
  obtain rfl : m = [] := size_eq_zero (by omega)
  exact ⟨(List.append_nil a).symm, rfl⟩

theorem slice?_of_boundaries {t : Text} {s : Span} (hle : s.start ≤ s.stop)
    (hstart : t.isBoundary s.start = true) (hstop : t.isBoundary s.stop = true) :
    ∃ piece, t.slice? s = some piece := by
  obtain ⟨front, tail, ht, hfront⟩ := isBoundary_iff.mp hstart
  obtain ⟨upto, rest, ht', hupto⟩ := isBoundary_iff.mp hstop
  obtain ⟨piece, rfl, rfl⟩ := exists_between (ht.symm.trans ht') (by omega)
  rw [size_append] at hupto
  exact ⟨piece, slice?_eq_some.mpr ⟨front, rest, by rw [ht]; simp, hfront, by omega⟩⟩

theorem isBoundary_of_slice? {t piece : Text} {s : Span} (h : t.slice? s = some piece) :
    t.isBoundary s.start = true ∧ t.isBoundary s.stop = true := by
  obtain ⟨front, rest, rfl, hfront, hstop⟩ := slice?_eq_some.mp h
  refine ⟨isBoundary_iff.mpr ⟨front, piece ++ rest, by simp, hfront⟩,
    isBoundary_iff.mpr ⟨front ++ piece, rest, rfl, ?_⟩⟩
  rw [size_append]
  omega

theorem stop_of_slice? {t piece : Text} {s : Span} (h : t.slice? s = some piece) :
    s.stop = s.start + piece.size := by
  obtain ⟨_, _, -, -, hstop⟩ := slice?_eq_some.mp h
  exact hstop

theorem exists_cut {t piece : Text} {s : Span} (h : t.slice? s = some piece) :
    ∃ front rest, t = front ++ piece ++ rest ∧ s = ⟨front.size, (front ++ piece).size⟩ := by
  obtain ⟨front, rest, ht, hstart, hstop⟩ := slice?_eq_some.mp h
  refine ⟨front, rest, ht, ?_⟩
  rw [size_append, hstart, ← hstop]

theorem head?_of_slice? {t a b : Text} {s s' : Span} (ha : t.slice? s = some a) (hb : t.slice? s' = some b)
    (hstart : s.start = s'.start) (hane : a ≠ []) (hbne : b ≠ []) : a.head? = b.head? := by
  obtain ⟨front, rest, ht, hfront, -⟩ := slice?_eq_some.mp ha
  obtain ⟨front', rest', ht', hfront', -⟩ := slice?_eq_some.mp hb
  have hcut : front ++ (a ++ rest) = front' ++ (b ++ rest') := by
    rw [← List.append_assoc, ← List.append_assoc, ← ht, ← ht']
  have hhead := congrArg List.head? (append_inj_of_size hcut (by omega)).2
  simp only [List.head?_append, List.head?_eq_some_head hane, List.head?_eq_some_head hbne, Option.some_or] at hhead ⊢
  exact hhead

theorem getLast?_of_slice? {t a b : Text} {s s' : Span} (ha : t.slice? s = some a)
    (hb : t.slice? s' = some b) (hstop : s.stop = s'.stop) (hane : a ≠ []) (hbne : b ≠ []) :
    a.getLast? = b.getLast? := by
  obtain ⟨front, rest, ht, rfl⟩ := exists_cut ha
  obtain ⟨front', rest', ht', rfl⟩ := exists_cut hb
  have hlast := congrArg List.getLast? (append_inj_of_size (ht.symm.trans ht') hstop).1
  simp only [List.getLast?_append, List.getLast?_eq_some_getLast hane, List.getLast?_eq_some_getLast hbne,
    Option.some_or] at hlast ⊢
  exact hlast

/-- the text from the start of a piece on is the piece and what stands behind it -/
theorem drop?_of_slice? {t piece rest : Text} {s : Span} (h : t.slice? s = some piece)
    (hrest : t.drop? s.stop = some rest) : t.drop? s.start = some (piece ++ rest) := by
  obtain ⟨front, behind, rfl, hfront, hstop⟩ := slice?_eq_some.mp h
  have hsize : (front ++ piece).size = s.stop := by rw [size_append, hfront, hstop]
  rw [← hsize, drop?_append, Option.some.injEq] at hrest
  rw [← hfront, List.append_assoc, drop?_append, hrest]

theorem slice?_inside {t piece inner : Text} {outer span : Span} (houter : t.slice? outer = some piece)
    (hinner : t.slice? span = some inner) (hstart : outer.start ≤ span.start)
    (hstop : span.stop ≤ outer.stop) : ∃ before behind, piece = before ++ (inner ++ behind) ∧
      outer.start + before.size = span.start ∧ span.stop + behind.size = outer.stop := by
  obtain ⟨front, rest, ht, hfront, hsize⟩ := slice?_eq_some.mp houter
  obtain ⟨front', rest', ht', hfront', hsize'⟩ := slice?_eq_some.mp hinner
  rw [ht, List.append_assoc, List.append_assoc] at ht'
  obtain ⟨before, hbefore, htail⟩ := exists_between ht' (by omega)
  rw [hbefore, size_append] at hfront'
  -- what is left of the outer piece begins with the inner one
  rw [← List.append_assoc before inner rest'] at htail
  obtain ⟨behind, hbehind, -⟩ := exists_between htail.symm (by rw [size_append]; omega)
  rw [hbehind, size_append, size_append] at hsize
  exact ⟨before, behind, by rw [hbehind, List.append_assoc], by omega, by omega⟩

/-! ## single characters -/

def charAt? (t : Text) (offset : Nat) : Option Char :=
  (t.drop? offset).bind List.head?

theorem charAt?_eq_some {t : Text} {offset : Nat} {c : Char} :
    t.charAt? offset = some c ↔ ∃ front rest, t = front ++ c :: rest ∧ front.size = offset := by
  rw [charAt?, Option.bind_eq_some_iff]
  constructor
  · rintro ⟨tail, htail, hc⟩
    obtain ⟨front, rfl, hfront⟩ := drop?_eq_some.mp htail
    obtain ⟨rest, rfl⟩ := List.head?_eq_some_iff.mp hc
    exact ⟨front, rest, rfl, hfront⟩
  · rintro ⟨front, rest, rfl, hfront⟩
    exact ⟨c :: rest, drop?_eq_some.mpr ⟨front, rfl, hfront⟩, rfl⟩

end Text

end Collate
