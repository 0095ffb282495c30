import Mathlib.Data.List.TakeWhile
import Collate.Json.Reader

/-!
# Reading what is rendered

The compact text of a value can be read, and the value that is read has the same fields, put in the
order of their names.

* `Json.Reads`            a reader finds a value in a text, whatever closes it;
* `Json.readNumber_digits`, `readString_escape`   numbers and texts;
* `Json.readList_commaSeparated`  what stands between the marks of a list or an object;
* `Json.Fits`             a value with small numbers and little nesting;
* `Json.arranged`         a value with its fields in order;
* `Json.read_render`      the whole text of a value that fits.
-/

namespace Collate

namespace Json

/-! ## numbers -/

/-- nothing here continues a number -/
def Closed (rest : List Char) : Prop :=
  isReal rest = false ∧ ∀ c ∈ rest.head?, c.isDigit = false

theorem closed_nil : Closed [] :=
  ⟨rfl, fun _ h => nomatch h⟩

theorem closed_cons {c : Char} {rest : List Char} (hreal : isReal [c] = false)
    (hdigit : c.isDigit = false) : Closed (c :: rest) :=
  ⟨hreal, fun _ h => Option.some.inj h ▸ hdigit⟩

theorem accumulate_concat {limit held : Nat} {c : Char} {digits : List Char} : ∀ {value : Nat},
    accumulate limit value digits = (held, []) → held * 10 + digitValue c ≤ limit →
      accumulate limit value (digits ++ [c]) = (held * 10 + digitValue c, []) := by
  induction digits with
  | nil =>
    intro value h hle
    obtain ⟨rfl, -⟩ := Prod.mk.inj h
    rw [List.nil_append, accumulate, if_neg (by omega), accumulate]
  | cons d digits ih =>
    intro value h hle
    rw [accumulate] at h
    split at h
    next => exact nomatch (Prod.mk.inj h).2
    next hd =>
      rw [List.cons_append, accumulate, if_neg hd]
      exact ih h hle

theorem digitValue_digitChar {n : Nat} (h : n < 10) : digitValue n.digitChar = n := by
  rw [digitValue, Nat.toNat_digitChar_of_lt_ten h]
  exact Nat.add_sub_cancel_left 48 n

theorem accumulate_digits {limit : Nat} (n : Nat) (h : n ≤ limit) :
    accumulate limit 0 (Nat.toDigits 10 n) = (n, []) := by
  induction n using Nat.strong_induction_on with
  | h n ih =>
    rcases Nat.lt_or_ge n 10 with hlt | hge
    · rw [Nat.toDigits_of_lt_base hlt, accumulate, digitValue_digitChar hlt, if_neg (by omega),
        accumulate, Nat.zero_mul, Nat.zero_add]
    · have hn : n / 10 * 10 + digitValue (n % 10).digitChar = n := by
        rw [digitValue_digitChar (Nat.mod_lt n (by decide)), Nat.mul_comm]
        exact Nat.div_add_mod n 10
      rw [Nat.toDigits_of_base_le (by decide) hge,
        accumulate_concat (ih (n / 10) (by omega) (by omega)) (by omega), hn]

theorem head?_digits {n : Nat} (hn : n ≠ 0) : (Nat.toDigits 10 n).head? ≠ some '0' := by
  induction n using Nat.strong_induction_on with
  | h n ih =>
    rcases Nat.lt_or_ge n 10 with hlt | hge
    · rw [Nat.toDigits_of_lt_base hlt]
      intro h
      have hvalue := digitValue_digitChar hlt
      rw [Option.some.inj h] at hvalue
      exact hn hvalue.symm
    · rw [Nat.toDigits_of_base_le (by decide) hge, List.head?_append]
      intro h
      refine ih (n / 10) (by omega) (by omega) ?_
      rwa [Option.or_of_isSome (List.isSome_head?.mpr Nat.toDigits_ne_nil)] at h

theorem isDigit_digits (n : Nat) : ∀ c ∈ Nat.toDigits 10 n, c.isDigit = true :=
  fun _ h => Nat.isDigit_of_mem_toDigits (by decide) (by decide) h

theorem takeWhile_closed {rest : List Char} (h : Closed rest) : rest.takeWhile Char.isDigit = [] := by
  cases rest with
  | nil => rfl
  | cons c rest => rw [List.takeWhile_cons, h.2 c rfl]; rfl

theorem dropWhile_closed {rest : List Char} (h : Closed rest) :
    rest.dropWhile Char.isDigit = rest := by
  cases rest with
  | nil => rfl
  | cons c rest => rw [List.dropWhile_cons, h.2 c rfl]; rfl

theorem readNumber_digits {n : Nat} (hn : n ≤ largestWord) {rest : List Char} (hrest : Closed rest) :
    readNumber (Nat.toDigits 10 n ++ rest) = some (.integer n, rest) := by
  have hdigits := isDigit_digits n
  have hmagnitude : readMagnitude false (Nat.toDigits 10 n ++ rest) = some (.integer n, rest) := by
    have hzero : ¬ ((Nat.toDigits 10 n).isEmpty ∨
        ((Nat.toDigits 10 n).head? = some '0' ∧ 1 < (Nat.toDigits 10 n).length)) := by
      rintro (hempty | ⟨hhead, hlong⟩)
      · exact Nat.toDigits_ne_nil (List.isEmpty_iff.mp hempty)
      · rcases Nat.eq_zero_or_pos n with rfl | hpos
        · exact absurd hlong (by decide)
        · exact head?_digits (Nat.ne_of_gt hpos) hhead
    rw [readMagnitude, List.takeWhile_append_of_pos hdigits, takeWhile_closed hrest, List.append_nil,
      List.dropWhile_append_of_pos hdigits, dropWhile_closed hrest]
    dsimp only
    rw [if_neg hzero, accumulate_digits n hn, hrest.1]
    rfl
  rw [readNumber.eq_def]
  split
  next after hfront =>
    obtain ⟨c, cs, hcs⟩ := List.exists_cons_of_ne_nil (Nat.toDigits_ne_nil (n := n) (b := 10))
    rw [hcs] at hfront
    have hc := hdigits c (hcs ▸ List.mem_cons_self)
    rw [(List.cons.inj hfront).1] at hc
    exact absurd hc (by decide)
  next => exact hmagnitude

/-! ## texts -/

theorem hexUnit?_digits : ∀ n : Fin 32,
    hexUnit? '0' '0' (hexDigit (n / 16)) (hexDigit n) = some n.val := by
  decide

/-- a character is escaped by another one, by its number, or not at all -/
theorem escapeChar_cases (c : Char) :
    (∃ mark, mark ≠ 'u' ∧ simpleEscape? mark = some c ∧ escapeChar c = ['\\', mark]) ∨
    (c.toNat < 0x20 ∧
      escapeChar c = ['\\', 'u', '0', '0', hexDigit (c.toNat / 16), hexDigit c.toNat]) ∨
    (c ≠ '"' ∧ c ≠ '\\' ∧ ¬ c.toNat < 0x20 ∧ escapeChar c = [c]) := by
  unfold escapeChar
  split
  next h => exact .inl ⟨'"', by decide, by subst h; rfl, rfl⟩
  next hquote =>
    split
    next h => exact .inl ⟨'\\', by decide, by subst h; rfl, rfl⟩
    next hbackslash =>
      iterate 5
        split
        next h => exact .inl ⟨_, by decide, by subst h; rfl, rfl⟩
      split
      next h => exact .inr (.inl ⟨h, rfl⟩)
      next h => exact .inr (.inr ⟨hquote, hbackslash, h, rfl⟩)

theorem readString_escapeChar (c : Char) (rest : List Char) :
    readString (escapeChar c ++ rest)
      = (readString rest).map (fun read => (c :: read.1, read.2)) := by
  have hread (found : Option (List Char × List Char)) :
      (found >>= fun read => pure (c :: read.1, read.2))
        = found.map (fun read => (c :: read.1, read.2)) := by
    cases found <;> rfl
  rcases escapeChar_cases c with ⟨mark, hmark, hc, heq⟩ | ⟨hc, heq⟩ | ⟨hquote, hbackslash, hc, heq⟩
  · rw [heq, List.cons_append, List.cons_append, List.nil_append, readString, hc]
    · exact hread _
    · intro _ _ _ _ _ hu
      exact absurd hu hmark
  · have hhigh : isHighHalf c.toNat = false := by
      rw [isHighHalf, decide_eq_false (by omega), Bool.false_and]
    have hlow : isLowHalf c.toNat = false := by
      rw [isLowHalf, decide_eq_false (by omega), Bool.false_and]
    have hunit : hexUnit? '0' '0' (hexDigit (c.toNat / 16)) (hexDigit c.toNat) = some c.toNat :=
      hexUnit?_digits ⟨c.toNat, hc⟩
    rw [heq]
    simp only [List.cons_append, List.nil_append]
    rw [readString, hunit]
    dsimp only [bind, Option.bind]
    rw [hhigh, hlow, Char.ofNat_toNat]
    exact hread _
  · rw [heq, List.cons_append, List.nil_append, readString, if_neg (not_or.mpr ⟨hbackslash, hc⟩)]
    · exact hread _
    · exact hquote
    · intro _ _ _ _ _ h
      exact absurd h hbackslash
    · intro _ _ h
      exact absurd h hbackslash

theorem readString_escape (cs rest : List Char) :
    readString (cs.flatMap escapeChar ++ '"' :: rest) = some (cs, rest) := by
  induction cs with
  | nil => rfl
  | cons c cs ih =>
    rw [List.flatMap_cons, List.append_assoc, readString_escapeChar, ih]
    rfl

/-! ## values, one behind the other -/

/-- a reader finds a value in a text, whatever closes it; the text does not begin with white space
and closes nothing -/
structure Reads {α : Type} (item : List Char → Option (α × List Char)) (text : String) (a : α) :
    Prop where
  front : ∃ c cs, text.toList = c :: cs ∧ c ∉ [' ', '\n', '\t', '\r', ']', '\x7d']
  read_eq : ∀ rest, Closed rest → item (text.toList ++ rest) = some (a, rest)

theorem skipSpace_cons {c : Char} (h : c ∉ [' ', '\n', '\t', '\r']) (cs : List Char) :
    skipSpace (c :: cs) = c :: cs := by
  refine List.dropWhile_cons_of_neg ?_
  simp only [List.mem_cons, List.not_mem_nil, or_false, not_or] at h
  simp [h]

theorem toList_commaSeparated (first second : String) (texts : List String) :
    (commaSeparated (first :: second :: texts)).toList
      = first.toList ++ ',' :: (commaSeparated (second :: texts)).toList := by
  rw [commaSeparated, String.toList_append, String.toList_append, List.append_assoc]
  · rfl
  · exact List.cons_ne_nil second texts

section
variable {α β : Type} {item : List Char → Option (α × List Char)} {closing : Char} {a : α}
  {cs rest : List Char}

theorem skipSpace_closing (hclosing : closing = ']' ∨ closing = '\x7d') (rest : List Char) :
    skipSpace (closing :: rest) = closing :: rest := by
  rcases hclosing with rfl | rfl
  all_goals exact skipSpace_cons (by decide) rest

theorem readItems_last (hclosing : closing = ']' ∨ closing = '\x7d') (fuel : Nat)
    (h : item (skipSpace cs) = some (a, closing :: rest)) :
    readItems item closing (fuel + 1) cs = some ([a], rest) := by
  rw [readItems, h]
  dsimp only [bind, Option.bind]
  rw [skipSpace_closing hclosing]
  exact if_pos rfl

theorem readItems_next (hclosing : closing = ']' ∨ closing = '\x7d') (fuel : Nat)
    (h : item (skipSpace cs) = some (a, ',' :: rest)) :
    readItems item closing (fuel + 1) cs
      = (readItems item closing fuel rest).map (fun read => (a :: read.1, read.2)) := by
  have hcomma : ',' ≠ closing := by
    rintro rfl
    revert hclosing
    decide
  rw [readItems, h]
  dsimp only [bind, Option.bind]
  rw [skipSpace_cons (by decide)]
  dsimp only
  rw [if_neg hcomma, if_pos rfl]
  cases readItems item closing fuel rest <;> rfl

namespace Reads

theorem skipSpace_eq {text : String} (h : Reads item text a) (rest : List Char) :
    skipSpace (text.toList ++ rest) = text.toList ++ rest := by
  obtain ⟨c, cs, htext, hc⟩ := h.front
  refine htext ▸ skipSpace_cons (fun h => hc ?_) _
  exact List.mem_append_left [']', '\x7d'] h

variable {text : β → String} {value : β → α}

theorem items (hclosing : closing = ']' ∨ closing = '\x7d') (rest : List Char) (xs : List β) :
    ∀ (fuel : Nat), xs ≠ [] → xs.length ≤ fuel → (∀ x ∈ xs, Reads item (text x) (value x)) →
      readItems item closing fuel ((commaSeparated (xs.map text)).toList ++ closing :: rest)
        = some (xs.map value, rest) := by
  have hclosed : Closed (closing :: rest) := by
    rcases hclosing with rfl | rfl
    all_goals exact closed_cons rfl rfl
  induction xs with
  | nil => exact fun _ hne => absurd rfl hne
  | cons x xs ih =>
    rintro (_ | fuel) - hfuel hreads
    · exact absurd hfuel (by simp)
    obtain ⟨hx, hxs⟩ := List.forall_mem_cons.mp hreads
    cases xs with
    | nil =>
      show readItems item closing (fuel + 1) ((text x).toList ++ closing :: rest) = _
      refine readItems_last hclosing fuel ?_
      rw [hx.skipSpace_eq, hx.read_eq _ hclosed]
    | cons y xs =>
      have htail := ih fuel (List.cons_ne_nil _ _) (Nat.le_of_succ_le_succ hfuel) hxs
      have hfirst : item (skipSpace ((commaSeparated ((x :: y :: xs).map text)).toList ++ closing :: rest))
          = some (value x, ',' :: ((commaSeparated ((y :: xs).map text)).toList ++ closing :: rest)) := by
        rw [List.map_cons, List.map_cons, toList_commaSeparated, List.append_assoc, hx.skipSpace_eq]
        exact hx.read_eq (',' :: _) (closed_cons rfl rfl)
      rw [readItems_next hclosing fuel hfirst, htail]
      rfl

theorem length_le (xs : List β) (h : ∀ x ∈ xs, Reads item (text x) (value x)) :
    xs.length ≤ (commaSeparated (xs.map text)).toList.length := by
  induction xs with
  | nil => exact Nat.zero_le _
  | cons x xs ih =>
    obtain ⟨hx, hxs⟩ := List.forall_mem_cons.mp h
    obtain ⟨c, cs, htext, -⟩ := hx.front
    cases xs with
    | nil =>
      show 1 ≤ (text x).toList.length
      rw [htext, List.length_cons]
      omega
    | cons y xs =>
      have htail := ih hxs
      rw [List.map_cons, List.map_cons, toList_commaSeparated, List.length_append, htext]
      simp only [List.length_cons, List.map_cons] at htail ⊢
      omega

theorem front_list (x : β) (xs : List β) (h : ∀ y ∈ x :: xs, Reads item (text y) (value y)) :
    ∃ c cs, (commaSeparated ((x :: xs).map text)).toList = c :: cs ∧
      c ∉ [' ', '\n', '\t', '\r', ']', '\x7d'] := by
  obtain ⟨c, cs, htext, hc⟩ := (h x List.mem_cons_self).front
  cases xs with
  | nil => exact ⟨c, cs, htext, hc⟩
  | cons y ys =>
    refine ⟨c, cs ++ ',' :: (commaSeparated ((y :: ys).map text)).toList, ?_, hc⟩
    rw [List.map_cons, List.map_cons, toList_commaSeparated, htext]
    rfl

/-- a list or object of what can be read one by one, behind its opening mark -/
theorem list (hclosing : closing = ']' ∨ closing = '\x7d') (rest : List Char) (xs : List β)
    (h : ∀ x ∈ xs, Reads item (text x) (value x)) :
    readList item closing ((commaSeparated (xs.map text)).toList ++ closing :: rest)
      = some (xs.map value, rest) := by
  cases hxs : xs with
  | nil =>
    show readList item closing (closing :: rest) = _
    rw [readList, skipSpace_closing hclosing]
    exact if_pos rfl
  | cons x xs' =>
    rw [hxs] at h
    have hitems := items hclosing rest (x :: xs')
      ((commaSeparated ((x :: xs').map text)).toList ++ closing :: rest).length
      (List.cons_ne_nil x xs')
      (by rw [List.length_append]; exact Nat.le_add_right_of_le (length_le _ h)) h
    obtain ⟨c, cs, hfront, hc⟩ := front_list x xs' h
    have hne : c ≠ closing := by
      rintro rfl
      rcases hclosing with rfl | rfl
      all_goals exact hc (by decide)
    rw [hfront, List.cons_append] at hitems ⊢
    rw [readList, skipSpace_cons (fun hmem => hc (List.mem_append_left [']', '\x7d'] hmem))]
    dsimp only
    rw [if_neg hne]
    exact hitems

end Reads

end

/-! ## values -/

/-- No number of the value has a sign, a fraction or more than 64 bits, and no more than so many lists
and objects are inside each other. -/
def Fits : Nat → Json → Prop
  | _, number (.integer value) => 0 ≤ value ∧ value ≤ largestWord
  | _, number (.real ..) => False
  | 0, arr _ | 0, obj _ => False
  | depth + 1, arr items => ∀ item ∈ items, item.Fits depth
  | depth + 1, obj fields => ∀ field ∈ fields, field.2.Fits depth
  | _, null | _, bool _ | _, str _ => True

mutual

/-- the value with the fields of every object in the order in which they are held -/
def arranged : Json → Json
  | arr items => arr (arrangedItems items)
  | obj fields => ofFields (arrangedFields fields)
  | value => value

/-- the items of a list, each with its fields in order -/
def arrangedItems : List Json → List Json
  | [] => []
  | item :: items => item.arranged :: arrangedItems items

/-- the fields of an object, the value of each with its fields in order -/
def arrangedFields : List (String × Json) → List (String × Json)
  | [] => []
  | (name, value) :: fields => (name, value.arranged) :: arrangedFields fields

end

theorem arrangedItems_eq (items : List Json) : arrangedItems items = items.map arranged := by
  induction items with
  | nil => rfl
  | cons item items ih => rw [arrangedItems, ih, List.map_cons]

theorem arrangedFields_eq (fields : List (String × Json)) :
    arrangedFields fields = fields.map (fun field => (field.1, field.2.arranged)) := by
  induction fields with
  | nil => rfl
  | cons field fields ih => rw [arrangedFields, ih, List.map_cons]

theorem renderItems_eq (items : List Json) : renderItems items = items.map render := by
  induction items with
  | nil => rfl
  | cons item items ih => rw [renderItems, ih, List.map_cons]

theorem renderFields_eq (fields : List (String × Json)) :
    renderFields fields = fields.map (fun field => escape field.1 ++ ":" ++ field.2.render) := by
  induction fields with
  | nil => rfl
  | cons field fields ih => rw [renderFields, ih, List.map_cons]

theorem toList_escape (s : String) :
    (escape s).toList = '"' :: (s.toList.flatMap escapeChar ++ ['"']) := by
  simp [escape]

theorem readValue_digits (depth : Nat) {c : Char} (hc : c.isDigit = true) (cs : List Char) :
    readValue depth (c :: cs) = (readNumber (c :: cs)).map (fun read => (.number read.1, read.2)) := by
  rw [readValue.eq_def]
  split
  all_goals first
    | rfl
    | next h =>
      rw [(List.cons.inj h).1] at hc
      exact absurd hc (by decide)

theorem reads_number (depth : Nat) {n : Nat} (hn : n ≤ largestWord) :
    Reads (readValue depth) (ofNat n).render (ofNat n) := by
  have hdigits : (ofNat n).render.toList = Nat.toDigits 10 n := Nat.toList_repr
  obtain ⟨c, cs, hcs⟩ := List.exists_cons_of_ne_nil (Nat.toDigits_ne_nil (n := n) (b := 10))
  have hc := isDigit_digits n c (hcs ▸ List.mem_cons_self)
  have hnone : ∀ d ∈ [' ', '\n', '\t', '\r', ']', '\x7d'], d.isDigit = false := by simp
  refine ⟨⟨c, cs, hdigits.trans hcs, fun hmem => ?_⟩, fun rest hrest => ?_⟩
  · rw [hnone c hmem] at hc
    exact nomatch hc
  · have hread := readNumber_digits hn hrest
    rw [hdigits, hcs, List.cons_append] at *
    rw [readValue_digits depth hc, hread]
    rfl

theorem readValue_quote (depth : Nat) (cs : List Char) : readValue depth ('"' :: cs)
    = (readString cs).map (fun read => (.str (String.ofList read.1), read.2)) := by
  cases depth <;> rfl

theorem reads_str (depth : Nat) (s : String) : Reads (readValue depth) (str s).render (str s) := by
  refine ⟨⟨'"', _, toList_escape s, by decide⟩, fun rest _ => ?_⟩
  show readValue depth ((escape s).toList ++ rest) = _
  rw [toList_escape, List.cons_append, List.append_assoc, readValue_quote]
  show (readString (s.toList.flatMap escapeChar ++ '"' :: rest)).map _ = _
  rw [readString_escape, Option.map_some, String.ofList_toList]

theorem reads_field {depth : Nat} {value held : Json} (name : String)
    (h : Reads (readValue depth) value.render held) :
    Reads (readField (readValue depth)) (escape name ++ ":" ++ value.render) (name, held) := by
  have htext : (escape name ++ ":" ++ value.render).toList
      = '"' :: (name.toList.flatMap escapeChar ++ '"' :: ':' :: value.render.toList) := by
    simp [toList_escape]
  refine ⟨⟨'"', _, htext, by decide⟩, fun rest hrest => ?_⟩
  rw [htext, List.cons_append, List.append_assoc]
  show readField _ ('"' :: (name.toList.flatMap escapeChar ++ '"' :: ':' :: (value.render.toList ++ rest))) = _
  rw [readField, readString_escape]
  dsimp only [bind, Option.bind]
  rw [skipSpace_cons (by decide)]
  simp only [h.skipSpace_eq, h.read_eq rest hrest, String.ofList_toList]
  rfl

theorem reads_leaf (depth : Nat) {value : Json} (hfits : value.Fits 0) :
    Reads (readValue depth) value.render value.arranged := by
  cases value with
  | null => exact ⟨⟨_, _, rfl, by decide⟩, fun rest _ => by cases depth <;> rfl⟩
  | bool value =>
    cases value with
    | true => exact ⟨⟨_, _, rfl, by decide⟩, fun rest _ => by cases depth <;> rfl⟩
    | false => exact ⟨⟨_, _, rfl, by decide⟩, fun rest _ => by cases depth <;> rfl⟩
  | number value =>
    cases value with
    | integer value =>
      obtain ⟨n, rfl⟩ := Int.eq_ofNat_of_zero_le hfits.1
      exact reads_number depth (Int.ofNat_le.mp hfits.2)
    | real negative magnitude => exact hfits.elim
  | str s => exact reads_str depth s
  | arr items => exact hfits.elim
  | obj fields => exact hfits.elim

theorem reads_render (depth : Nat) : ∀ value : Json, value.Fits depth →
    Reads (readValue depth) value.render value.arranged := by
  induction depth with
  | zero => exact fun _ => reads_leaf 0
  | succ depth ih =>
    intro value hfits
    cases value with
    | arr items =>
      have hitems : ∀ item ∈ items, Reads (readValue depth) item.render item.arranged :=
        fun item hitem => ih item (hfits item hitem)
      have htext : (render (arr items)).toList
          = '[' :: ((commaSeparated (items.map render)).toList ++ [']']) := by
        simp [render, renderItems_eq]
      refine ⟨⟨'[', _, htext, by decide⟩, fun rest _ => ?_⟩
      rw [htext, List.cons_append, List.append_assoc]
      show (readList (readValue depth) ']' ((commaSeparated (items.map render)).toList ++ ']' :: rest)).map _ = _
      rw [Reads.list (.inl rfl) rest items hitems, arranged, arrangedItems_eq]
      rfl
    | obj fields =>
      have hfields : ∀ field ∈ fields, Reads (readField (readValue depth))
          (escape field.1 ++ ":" ++ field.2.render) (field.1, field.2.arranged) :=
        fun field hfield => reads_field field.1 (ih field.2 (hfits field hfield))
      have htext : (render (obj fields)).toList
          = '{' :: ((commaSeparated (fields.map (fun field => escape field.1 ++ ":" ++ field.2.render))).toList
            ++ ['}']) := by
        simp [render, renderFields_eq]
      refine ⟨⟨'{', _, htext, by decide⟩, fun rest _ => ?_⟩
      rw [htext, List.cons_append, List.append_assoc]
      show (readList (readField (readValue depth)) '}' ((commaSeparated
        (fields.map (fun field => escape field.1 ++ ":" ++ field.2.render))).toList ++ '}' :: rest)).map _ = _
      rw [Reads.list (.inr rfl) rest fields hfields, arranged, arrangedFields_eq]
      rfl
    | null => exact reads_leaf _ hfits
    | bool value => exact reads_leaf _ hfits
    | number value => cases value <;> exact reads_leaf _ hfits
    | str s => exact reads_leaf _ hfits

/-- **What is rendered can be read**, also with white space behind it: the value that is read has the
same fields, in order. -/
theorem read_render {value : Json} (h : value.Fits depthLimit) (blanks : List Char)
    (hblanks : ∀ c ∈ blanks, c ∈ [' ', '\n', '\t', '\r']) :
    read (value.render.toList ++ blanks) = some value.arranged := by
  have hreads := reads_render depthLimit value h
  have hquiet : ∀ c ∈ [' ', '\n', '\t', '\r'], isReal [c] = false ∧ c.isDigit = false := by simp [isReal]
  have hclosed : Closed blanks := by
    cases blanks with
    | nil => exact closed_nil
    | cons c blanks =>
      obtain ⟨hreal, hdigit⟩ := hquiet c (hblanks c List.mem_cons_self)
      exact closed_cons hreal hdigit
  have hskip : skipSpace blanks = [] := by
    refine List.dropWhile_eq_nil_iff.mpr fun c hc => ?_
    have hmem := hblanks c hc
    simp only [List.mem_cons, List.not_mem_nil, or_false] at hmem
    simpa [or_assoc] using hmem
  rw [read, hreads.skipSpace_eq, hreads.read_eq blanks hclosed]
  dsimp only
  rw [hskip]
  rfl

/-! ## fields -/

theorem lookup_field (name : String) (value : Json) (fields : List (String × Json)) (other : String) :
    ((name, value) :: fields).lookup other
      = if other = name then some value else fields.lookup other := by
  rw [List.lookup_cons]
  by_cases h : other = name
  · rw [if_pos h, beq_iff_eq.mpr h]
  · rw [if_neg h, beq_eq_false_iff_ne.mpr h]

theorem lookup_insertField (name : String) (value : Json) (other : String)
    (fields : List (String × Json)) :
    (insertField name value fields).lookup other
      = if other = name then some value else fields.lookup other := by
  induction fields with
  | nil => exact lookup_field name value [] other
  | cons field fields ih =>
    obtain ⟨held, old⟩ := field
    rw [insertField]
    split
    next => exact lookup_field name value _ other
    next =>
      split
      next hname =>
        subst hname
        rw [lookup_field, lookup_field]
        split <;> rfl
      next hname =>
        rw [lookup_field, lookup_field, ih]
        by_cases hheld : other = held
        · rw [if_pos hheld, if_pos hheld, if_neg (fun h => hname (h.symm.trans hheld))]
        · rw [if_neg hheld, if_neg hheld]

theorem field?_ofFields (fields : List (String × Json)) (name : String) :
    (ofFields fields).field? name = fields.reverse.lookup name := by
  show (fields.foldl _ []).lookup name = _
  rw [← List.foldr_reverse]
  induction fields.reverse with
  | nil => rfl
  | cons field fields ih => rw [List.foldr_cons, lookup_insertField, ih, lookup_field]

end Json

end Collate
