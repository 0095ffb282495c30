import Mathlib.Data.List.Find
import Collate.Proofs.Token.Pieces

/-!
# How far ahead a token is read

Which token stands at the front of a text depends on its own characters and on at most two behind
them.  White space, comments and backslashes all look alike from the token before them.

* `isLoud`               a character that a token before it can tell from white space;
* `Text.outlook`         the loud characters ahead, up to a number of them;
* `Piece.Heads`          a piece is read at the front of its characters and some text behind them;
* `Piece.Heads.local`    the text behind a piece may be changed as long as its outlook stays;
* `Piece.readAll_stands`, `Piece.readAll_of_stands`   reading all pieces is reading each of them in front
  of the ones behind it.
-/

namespace Collate

/-- the character is none of those that stand between tokens -/
def isLoud (c : Char) : Bool :=
  !(c == ' ' || c == '\t' || c == '\r' || c == '\n' || c == '\\' || c == '#')

/-! ## outlooks -/

namespace Text
variable {a b : Text} {n : Nat}

/-- the first characters of a text, up to one that is not loud -/
def outlook (n : Nat) (t : Text) : Text :=
  (t.takeWhile isLoud).take n

/-- the text is empty or begins with a character that is not loud -/
def Quiet (t : Text) : Prop :=
  ∀ c ∈ t.head?, isLoud c = false

/-- texts of one outlook both begin quietly, or with the same character -/
theorem outlook_cases (h : outlook (n + 1) a = outlook (n + 1) b) :
    (a.Quiet ∧ b.Quiet) ∨ ∃ c a' b', a = c :: a' ∧ b = c :: b' ∧ outlook n a' = outlook n b' := by
  have hquiet {t : Text} (ht : outlook (n + 1) t = []) : t.Quiet := by
    cases t with
    | nil => exact fun c hc => nomatch hc
    | cons c t =>
      intro d hd
      obtain rfl : c = d := Option.some.inj hd
      cases hloud : isLoud c with
      | false => rfl
      | true => exact absurd ht (by simp [outlook, hloud])
  cases a with
  | nil => exact .inl ⟨hquiet rfl, hquiet h.symm⟩
  | cons c a =>
    cases hloud : isLoud c with
    | false =>
      have ha : outlook (n + 1) (c :: a) = [] := by simp [outlook, hloud]
      exact .inl ⟨hquiet ha, hquiet (h.symm.trans ha)⟩
    | true =>
      have ha : outlook (n + 1) (c :: a) = c :: outlook n a := by simp [outlook, hloud]
      rw [ha] at h
      cases b with
      | nil => exact nomatch h
      | cons d b =>
        cases hloud' : isLoud d with
        | false =>
          have hb : outlook (n + 1) (d :: b) = [] := by simp [outlook, hloud']
          exact nomatch h.trans hb
        | true =>
          have hb : outlook (n + 1) (d :: b) = d :: outlook n b := by simp [outlook, hloud']
          obtain ⟨rfl, htail⟩ := List.cons.inj (h.trans hb)
          exact .inr ⟨c, a, b, rfl, rfl, htail⟩

theorem outlook_cons_loud {c : Char} (hc : isLoud c = true) (t : Text) :
    outlook (n + 1) (c :: t) = c :: outlook n t := by
  simp [outlook, hc]

theorem outlook_append (x : Text) (h : outlook n a = outlook n b) :
    outlook n (x ++ a) = outlook n (x ++ b) := by
  induction x generalizing n with
  | nil => exact h
  | cons c x ih =>
    cases n with
    | zero => simp [outlook]
    | succ n =>
      have htail : outlook n a = outlook n b := by
        have := congrArg (List.take n) h
        simpa [outlook, List.take_take] using this
      cases hc : isLoud c with
      | false => simp [outlook, hc]
      | true =>
        rw [List.cons_append, List.cons_append, outlook_cons_loud hc, outlook_cons_loud hc, ih htail]

theorem outlook_of_take (h : a.take n = b.take n) : outlook n a = outlook n b := by
  rw [outlook, outlook, List.take_takeWhile, List.take_takeWhile, h]

theorem any_head?_eq {p : Char → Bool} (hp : ∀ c, p c = true → isLoud c = true)
    (h : outlook (n + 1) a = outlook (n + 1) b) : a.head?.any p = b.head?.any p := by
  have hquiet {t : Text} (ht : t.Quiet) : t.head?.any p = false := by
    cases t with
    | nil => rfl
    | cons c t =>
      cases hc : p c with
      | false => exact hc
      | true => exact nomatch (hp c hc).symm.trans (ht c rfl)
  rcases outlook_cases h with ⟨ha, hb⟩ | ⟨c, a', b', rfl, rfl, -⟩
  · rw [hquiet ha, hquiet hb]
  · rfl

theorem head?_eq_iff {d : Char} (hd : isLoud d = true) (h : outlook (n + 1) a = outlook (n + 1) b) :
    a.head? = some d ↔ b.head? = some d := by
  rcases outlook_cases h with ⟨ha, hb⟩ | ⟨c, a', b', rfl, rfl, -⟩
  · constructor
    · exact fun hhead => nomatch hd.symm.trans (ha d hhead)
    · exact fun hhead => nomatch hd.symm.trans (hb d hhead)
  · rfl

/-- The first characters that pass a test, if the test stops among the common ones or right behind
them. -/
theorem takeWhile_local {p : Char → Bool} (hp : ∀ c, p c = true → isLoud c = true)
    (h : outlook (n + 1) a = outlook (n + 1) b) (x : Text)
    (hlen : ((x ++ a).takeWhile p).length ≤ x.length) :
    (x ++ b).takeWhile p = (x ++ a).takeWhile p := by
  induction x with
  | nil =>
    have ha : a.takeWhile p = [] := List.length_eq_zero_iff.mp (Nat.le_zero.mp hlen)
    have hhead {t : Text} : t.takeWhile p = [] ↔ t.head?.any p = false := by
      cases t <;> simp [List.takeWhile_cons]
    have hb := hhead.mpr ((any_head?_eq hp h).symm.trans (hhead.mp ha))
    rw [List.nil_append, List.nil_append, ha, hb]
  | cons c x ih =>
    rw [List.cons_append, List.cons_append, List.takeWhile_cons, List.takeWhile_cons]
    split
    next hc =>
      rw [List.cons_append, List.takeWhile_cons, if_pos hc, List.length_cons, List.length_cons] at hlen
      rw [ih (by omega)]
    next => rfl

end Text

/-! ## names and numbers -/

theorem eq_of_not_loud {c : Char} (h : isLoud c = false) :
    c = ' ' ∨ c = '\t' ∨ c = '\r' ∨ c = '\n' ∨ c = '\\' ∨ c = '#' := by
  simp only [isLoud, Bool.not_eq_eq_eq_not, Bool.not_false, Bool.or_eq_true, beq_iff_eq, or_assoc] at h
  exact h

theorem isNameChar_loud (c : Char) (h : isNameChar c = true) : isLoud c = true := by
  cases hloud : isLoud c with
  | true => rfl
  | false =>
    rcases eq_of_not_loud hloud with rfl | rfl | rfl | rfl | rfl | rfl <;> exact absurd h (by decide)

theorem isNumberChar_loud (c : Char) (h : isNumberChar c = true) : isLoud c = true := by
  cases hloud : isLoud c with
  | true => rfl
  | false =>
    rcases eq_of_not_loud hloud with rfl | rfl | rfl | rfl | rfl | rfl <;> exact absurd h (by decide)

theorem isDigit_loud (c : Char) (h : c.isDigit = true) : isLoud c = true :=
  isNumberChar_loud c (by simp [isNumberChar, h])

theorem eq_loud {d : Char} (hd : isLoud d = true) (c : Char) (h : (c == d) = true) :
    isLoud c = true := by
  rw [eq_of_beq h]
  exact hd

namespace Lexeme
open Text
variable {a b : Text}

theorem mark_cons (c : Char) (t : Text) :
    mark (c :: t) = if c = '?' then ['?'] else if c = '!' then ['!'] else [] := by
  unfold mark
  split <;> simp_all

theorem mark_of_quiet (h : a.Quiet) : mark a = [] := by
  unfold mark
  split
  · exact nomatch h '?' rfl
  · exact nomatch h '!' rfl
  · rfl

theorem mark_eq {n : Nat} (h : outlook (n + 1) a = outlook (n + 1) b) : mark a = mark b := by
  rcases outlook_cases h with ⟨ha, hb⟩ | ⟨c, a', b', rfl, rfl, -⟩
  · rw [mark_of_quiet ha, mark_of_quiet hb]
  · rw [mark_cons, mark_cons]

theorem nameMark_eq (h : outlook 2 a = outlook 2 b) : nameMark a = nameMark b := by
  have hmark := mark_eq h
  rcases outlook_cases h with ⟨ha, hb⟩ | ⟨c, a', b', rfl, rfl, htail⟩
  · rw [nameMark, nameMark, mark_of_quiet ha, mark_of_quiet hb, ite_self, ite_self]
  · have heq : a'.head? = some '=' ↔ b'.head? = some '=' := head?_eq_iff (by decide) htail
    rw [nameMark, nameMark, List.drop_succ_cons, List.drop_succ_cons, List.drop_zero, List.drop_zero,
      hmark]
    simp only [heq]

/-- the name at the front of a text, with the mark that belongs to it -/
def wordName (cs : Text) : Text :=
  cs.takeWhile isNameChar ++ nameMark (cs.drop (cs.takeWhile isNameChar).length)

def OpensLabel (t : Text) : Prop :=
  t.head? = some ':' ∧ t.tail.head? ≠ some ':'

instance (t : Text) : Decidable (OpensLabel t) :=
  inferInstanceAs (Decidable (_ ∧ _))

theorem ofWord_eq (cs : Text) :
    ofWord cs = if OpensLabel (cs.drop (wordName cs).length)
      then ⟨.label (wordName cs), wordName cs ++ [':']⟩ else ⟨.ofName (wordName cs), wordName cs⟩ := by
  unfold ofWord wordName
  dsimp only
  generalize cs.takeWhile isNameChar ++ nameMark (cs.drop (cs.takeWhile isNameChar).length) = name
  split
  next rest hrest =>
    rw [hrest]
    by_cases hcolon : rest.head? = some ':'
    · rw [if_pos hcolon, if_neg (fun h => h.2 hcolon)]
    · rw [if_neg hcolon, if_pos ⟨rfl, hcolon⟩]
  next hnone =>
    rw [if_neg]
    rintro ⟨hhead, -⟩
    obtain ⟨rest, hrest⟩ := List.head?_eq_some_iff.mp hhead
    exact hnone rest hrest

theorem wordName_local (h : outlook 2 a = outlook 2 b) {x : Text}
    (hlen : (wordName (x ++ a)).length ≤ x.length) : wordName (x ++ b) = wordName (x ++ a) := by
  have hstem : ((x ++ a).takeWhile isNameChar).length ≤ x.length := by
    rw [wordName, List.length_append] at hlen
    omega
  have hsame := takeWhile_local isNameChar_loud h x hstem
  rw [wordName, wordName, hsame, List.drop_append_of_le_length hstem, List.drop_append_of_le_length hstem,
    nameMark_eq (outlook_append _ h)]

theorem opensLabel_iff (h : outlook 2 a = outlook 2 b) : OpensLabel a ↔ OpensLabel b := by
  rcases outlook_cases h with ⟨ha, hb⟩ | ⟨c, a', b', rfl, rfl, htail⟩
  · constructor
    · exact fun hopens => nomatch ha ':' hopens.1
    · exact fun hopens => nomatch hb ':' hopens.1
  · have heq : a'.head? = some ':' ↔ b'.head? = some ':' := head?_eq_iff (by decide) htail
    simp only [OpensLabel, List.head?_cons, List.tail_cons, ne_eq, heq]

theorem ofWord_local (h : outlook 2 a = outlook 2 b) {x : Text} (hx : (ofWord (x ++ a)).text = x) :
    ofWord (x ++ b) = ofWord (x ++ a) := by
  have hlen : (wordName (x ++ a)).length ≤ x.length := by
    rw [ofWord_eq] at hx
    split at hx
    · have := congrArg List.length hx
      rw [List.length_append] at this
      omega
    · exact Nat.le_of_eq (congrArg List.length hx)
  have hopens := opensLabel_iff (outlook_append (x.drop (wordName (x ++ a)).length) h)
  rw [ofWord_eq, ofWord_eq, wordName_local h hlen, List.drop_append_of_le_length hlen,
    List.drop_append_of_le_length hlen]
  simp only [hopens]

def OpensFraction (t : Text) : Prop :=
  t.head? = some '.' ∧ t.tail.head?.any Char.isDigit = true

instance (t : Text) : Decidable (OpensFraction t) :=
  inferInstanceAs (Decidable (_ ∧ _))

theorem ofNumber_eq (cs : Text) :
    ofNumber cs =
      let whole := cs.takeWhile isNumberChar
      let rest := cs.drop whole.length
      if OpensFraction rest then
        ⟨.number (whole ++ '.' :: rest.tail.takeWhile isNumberChar),
          whole ++ '.' :: rest.tail.takeWhile isNumberChar⟩
      else
        ⟨.number whole, whole⟩ := by
  unfold ofNumber
  dsimp only
  split
  next rest hrest =>
    rw [hrest]
    by_cases hdigit : rest.head?.any Char.isDigit = true
    · rw [if_pos hdigit, if_pos ⟨rfl, hdigit⟩]
      rfl
    · rw [if_neg hdigit, if_neg (fun h => hdigit h.2)]
  next hnone =>
    rw [if_neg]
    rintro ⟨hhead, -⟩
    obtain ⟨rest, hrest⟩ := List.head?_eq_some_iff.mp hhead
    exact hnone rest hrest

theorem opensFraction_iff (h : outlook 2 a = outlook 2 b) : OpensFraction a ↔ OpensFraction b := by
  rcases outlook_cases h with ⟨ha, hb⟩ | ⟨c, a', b', rfl, rfl, htail⟩
  · constructor
    · exact fun hopens => nomatch ha '.' hopens.1
    · exact fun hopens => nomatch hb '.' hopens.1
  · have heq := any_head?_eq isDigit_loud htail
    simp only [OpensFraction, List.head?_cons, List.tail_cons, heq]

theorem ofNumber_local (h : outlook 2 a = outlook 2 b) {x : Text}
    (hx : (ofNumber (x ++ a)).text = x) : ofNumber (x ++ b) = ofNumber (x ++ a) := by
  have hlen : ((x ++ a).takeWhile isNumberChar).length ≤ x.length := by
    rw [ofNumber_eq] at hx
    dsimp only at hx
    split at hx
    · have := congrArg List.length hx
      rw [List.length_append] at this
      omega
    · exact Nat.le_of_eq (congrArg List.length hx)
  have hsame := takeWhile_local isNumberChar_loud h x hlen
  rw [ofNumber_eq] at hx
  rw [ofNumber_eq, ofNumber_eq, hsame]
  dsimp only at hx ⊢
  generalize (x ++ a).takeWhile isNumberChar = whole at *
  rw [List.drop_append_of_le_length hlen] at hx ⊢
  rw [List.drop_append_of_le_length hlen]
  have hopens := opensFraction_iff (outlook_append (x.drop whole.length) h)
  by_cases hpoint : OpensFraction (x.drop whole.length ++ a)
  · rw [if_pos (hopens.mp hpoint), if_pos hpoint]
    rw [if_pos hpoint] at hx
    -- the point is one of the common characters, and so are the digits behind it
    have hlength := congrArg List.length hx
    rw [List.length_append, List.length_cons] at hlength
    cases hdrop : x.drop whole.length with
    | nil =>
      have := List.drop_eq_nil_iff.mp hdrop
      omega
    | cons c fraction =>
      have hfraction : whole.length + (fraction.length + 1) = x.length := by
        have := congrArg List.length hdrop
        rw [List.length_drop, List.length_cons] at this
        omega
      rw [hdrop] at hlength
      rw [List.cons_append, List.cons_append, List.tail_cons, List.tail_cons,
        takeWhile_local isNumberChar_loud h fraction (by
          rw [List.cons_append, List.tail_cons] at hlength
          omega)]
  · rw [if_neg hpoint, if_neg (fun hb => hpoint (hopens.mpr hb))]

theorem ofVariable_local (h : outlook 2 a = outlook 2 b) {x : Text} {l : Lexeme}
    (hl : ofVariable (x ++ a) = .ok l) (hx : l.text = x) : ofVariable (x ++ b) = .ok l := by
  unfold ofVariable at hl ⊢
  dsimp only at hl ⊢
  split at hl
  next => exact nomatch hl
  next hstem =>
    obtain rfl := Except.ok.inj hl
    dsimp only at hx
    have hlength := congrArg List.length hx
    rw [List.length_append] at hlength
    have hsigns := takeWhile_local (p := (· == '@')) (eq_loud (by decide)) h x (by omega)
    rw [hsigns]
    generalize (x ++ a).takeWhile (· == '@') = signs at *
    have hle : signs.length ≤ x.length := by omega
    rw [List.drop_append_of_le_length hle] at hstem hlength ⊢
    have hname := takeWhile_local isNameChar_loud h (x.drop signs.length) (by
      rw [List.length_drop]
      omega)
    rw [List.drop_append_of_le_length hle, hname, if_neg hstem]

/-! ## quoted text and symbols -/

/-- what stands behind the closing quote does not matter -/
theorem quotedContent_local {quote : Char} (b : Text) (rest : Text) :
    ∀ (state : QuoteState) (content : Text), quotedContent quote state rest = .ok content →
      quotedContent quote state (content ++ quote :: b) = .ok content := by
  induction rest with
  | nil =>
    intro state content h
    cases state <;> exact nomatch h
  | cons c cs ih =>
    -- every branch but the closing quote keeps `c` and scans on in some state
    have keep : ∀ (state : QuoteState) (content : Text),
        (quotedContent quote state cs).map (c :: ·) = .ok content →
          ∃ inner, content = c :: inner ∧ inner ++ [quote] <+: cs ∧
            (quotedContent quote state (inner ++ quote :: b)).map (c :: ·) = .ok content := by
      intro state content h
      cases hq : quotedContent quote state cs with
      | error cause =>
        rw [hq] at h
        exact nomatch h
      | ok inner =>
        rw [hq] at h
        obtain rfl := Except.ok.inj h
        refine ⟨inner, rfl, quotedContent_isPrefix quote cs state inner hq, ?_⟩
        rw [ih state inner hq]
        rfl
    intro state content h
    cases state with
    | escaped =>
      obtain ⟨inner, rfl, -, hkeep⟩ := keep _ _ h
      exact hkeep
    | interpolated depth =>
      rw [quotedContent] at h
      split at h
      next hc =>
        obtain ⟨inner, rfl, -, hkeep⟩ := keep _ _ h
        rw [List.cons_append, quotedContent, if_pos hc]
        exact hkeep
      next hc =>
        split at h
        next hc' =>
          split at h
          next hdepth =>
            obtain ⟨inner, rfl, -, hkeep⟩ := keep _ _ h
            rw [List.cons_append, quotedContent, if_neg hc, if_pos hc', if_pos hdepth]
            exact hkeep
          next hdepth =>
            obtain ⟨inner, rfl, -, hkeep⟩ := keep _ _ h
            rw [List.cons_append, quotedContent, if_neg hc, if_pos hc', if_neg hdepth]
            exact hkeep
        next hc' =>
          obtain ⟨inner, rfl, -, hkeep⟩ := keep _ _ h
          rw [List.cons_append, quotedContent, if_neg hc, if_neg hc']
          exact hkeep
    | plain =>
      rw [quotedContent] at h
      split at h
      next hc =>
        obtain ⟨inner, rfl, -, hkeep⟩ := keep _ _ h
        rw [List.cons_append, quotedContent, if_pos hc]
        exact hkeep
      next hc =>
        split at h
        next hquote =>
          obtain rfl := Except.ok.inj h
          rw [List.nil_append, quotedContent, if_neg (by rw [← hquote]; exact hc), if_pos rfl]
        next hquote =>
          -- the brace that may follow is the first character of the content or its quote
          have hhead {inner : Text} (hpre : inner ++ [quote] <+: cs) :
              (inner ++ quote :: b).head? = cs.head? := by
            obtain ⟨after, rfl⟩ := hpre
            cases inner <;> rfl
          split at h
          next hopen =>
            obtain ⟨inner, rfl, hpre, hkeep⟩ := keep _ _ h
            rw [List.cons_append, quotedContent, if_neg hc, if_neg hquote, hhead hpre, if_pos hopen]
            exact hkeep
          next hopen =>
            obtain ⟨inner, rfl, hpre, hkeep⟩ := keep _ _ h
            rw [List.cons_append, quotedContent, if_neg hc, if_neg hquote, hhead hpre, if_neg hopen]
            exact hkeep

theorem quoted_local {quote : Char} {x a content written : Text} (b : Text)
    (h : quoted quote (x ++ a) = .ok (content, written)) (hx : written = quote :: x) :
    quoted quote (x ++ b) = .ok (content, written) := by
  obtain ⟨hwritten, -⟩ := quoted_spec h
  obtain rfl : x = content ++ [quote] := (List.cons.inj (hx.symm.trans hwritten)).2
  unfold quoted at h ⊢
  cases hq : quotedContent quote .plain (content ++ [quote] ++ a) with
  | error cause =>
    rw [hq] at h
    exact nomatch h
  | ok inner =>
    rw [hq] at h
    obtain ⟨rfl, rfl⟩ := Prod.mk.inj (Except.ok.inj h)
    rw [List.append_assoc, List.singleton_append, quotedContent_local b _ _ _ hq]
    rfl

theorem ofQuoted_local {quote : Char} {x a : Text} {l : Lexeme} (b : Text)
    (h : ofQuoted quote (x ++ a) = .ok l) (hx : l.text = quote :: x) :
    ofQuoted quote (x ++ b) = .ok l := by
  unfold ofQuoted at h ⊢
  split at h
  next content written hq =>
    obtain rfl := Except.ok.inj h
    rw [quoted_local b hq hx]
  next => exact nomatch h

def symbolWord (cs : Text) : Text :=
  cs.takeWhile isNameChar ++ mark (cs.drop (cs.takeWhile isNameChar).length)

theorem symbolWord_local (h : outlook 2 a = outlook 2 b) {x : Text}
    (hlen : (symbolWord (x ++ a)).length ≤ x.length) : symbolWord (x ++ b) = symbolWord (x ++ a) := by
  have hstem : ((x ++ a).takeWhile isNameChar).length ≤ x.length := by
    rw [symbolWord, List.length_append] at hlen
    omega
  have hsame := takeWhile_local isNameChar_loud h x hstem
  rw [symbolWord, symbolWord, hsame, List.drop_append_of_le_length hstem,
    List.drop_append_of_le_length hstem, mark_eq (outlook_append _ h)]

theorem ofColon_text_ne {rest : Text} {l : Lexeme} (h : ofColon rest = .ok l) : l.text ≠ [':'] := by
  unfold ofColon at h
  split at h
  next => cases h
  next c after =>
    split at h
    next =>
      obtain rfl := Except.ok.inj h
      simp
    next =>
      split at h
      next =>
        split at h
        next content written hq =>
          obtain rfl := Except.ok.inj h
          simp [(quoted_spec hq).1]
        next => cases h
      next =>
        split at h
        next hname =>
          obtain rfl := Except.ok.inj h
          have hstem := cons_takeWhile_ne_nil after (Bool.and_eq_true_iff.mp hname).1
          exact fun htext => hstem (List.append_eq_nil_iff.mp (List.cons.inj htext).2).1
        next => cases h

theorem ofColon_local (h : outlook 2 a = outlook 2 b) {x : Text} {l : Lexeme}
    (hl : ofColon (x ++ a) = .ok l) (hx : l.text = ':' :: x) : ofColon (x ++ b) = .ok l := by
  have hne : x ≠ [] := by
    rintro rfl
    exact ofColon_text_ne hl hx
  obtain ⟨c, x, rfl⟩ := List.exists_cons_of_ne_nil hne
  rw [List.cons_append, ofColon] at hl ⊢
  split at hl
  next hc =>
    rw [if_pos hc]
    exact hl
  next hc =>
    split at hl
    next hquote =>
      split at hl
      next content written hq =>
        obtain rfl := Except.ok.inj hl
        rw [if_neg hc, if_pos hquote, quoted_local b hq (List.cons.inj hx).2]
      next => cases hl
    next hquote =>
      split at hl
      next hname =>
        obtain rfl := Except.ok.inj hl
        rw [if_neg hc, if_neg hquote, if_pos hname]
        have hlen : (symbolWord (c :: x ++ a)).length ≤ (c :: x).length :=
          Nat.le_of_eq (congrArg List.length (List.cons.inj hx).2)
        show Except.ok (⟨.symbol (symbolWord (c :: x ++ b)), ':' :: symbolWord (c :: x ++ b)⟩ : Lexeme) = _
        rw [symbolWord_local h hlen]
        rfl
      next => cases hl

/-! ## operators, and the choice between all of them -/

theorem operatorSpellings_short {spelling : Text} (hmem : spelling ∈ operatorSpellings) :
    spelling.length ≤ 3 ∧ ∀ c ∈ spelling, isLoud c = true := by
  have hall : ∀ spelling ∈ operatorSpellings, spelling.length ≤ 3 ∧ spelling.all isLoud = true := by
    decide
  obtain ⟨hlen, hloud⟩ := hall spelling hmem
  exact ⟨hlen, List.all_eq_true.mp hloud⟩

/-- whether a spelling fits depends on the loud characters ahead -/
theorem isPrefixOf_outlook {spelling : Text} (hloud : ∀ c ∈ spelling, isLoud c = true) {n : Nat}
    (hlen : spelling.length ≤ n) (t : Text) :
    spelling.isPrefixOf t = spelling.isPrefixOf (outlook n t) := by
  induction spelling generalizing n t with
  | nil => rfl
  | cons c spelling ih =>
    obtain ⟨n, rfl⟩ : ∃ k, n = k + 1 := ⟨n - 1, by rw [List.length_cons] at hlen; omega⟩
    cases t with
    | nil => rfl
    | cons d t =>
      by_cases hcd : c = d
      · subst hcd
        rw [outlook_cons_loud (hloud c List.mem_cons_self), List.isPrefixOf_cons_cons_self,
          List.isPrefixOf_cons_cons_self]
        exact ih (fun e he => hloud e (List.mem_cons_of_mem _ he)) (Nat.le_of_succ_le_succ hlen) t
      · cases hd : isLoud d with
        | true =>
          rw [outlook_cons_loud hd]
          rw [List.isPrefixOf, List.isPrefixOf, beq_false_of_ne hcd, Bool.false_and, Bool.false_and]
        | false =>
          rw [List.isPrefixOf, beq_false_of_ne hcd, Bool.false_and]
          simp [outlook, hd]

theorem ofOperator_local (h : outlook 2 a = outlook 2 b) {c : Char} {x : Text} {l : Lexeme}
    (hl : ofOperator c (x ++ a) = .ok l) (hx : x ≠ []) : ofOperator c (x ++ b) = .ok l := by
  have hlook : outlook 3 (x ++ a) = outlook 3 (x ++ b) := by
    obtain ⟨d, x, rfl⟩ := List.exists_cons_of_ne_nil hx
    have htail := outlook_append x h
    cases hd : isLoud d with
    | true =>
      rw [List.cons_append, List.cons_append, outlook_cons_loud hd, outlook_cons_loud hd, htail]
    | false => simp [outlook, hd]
  have hfind : operatorSpellings.find? (fun spelling => spelling.isPrefixOf (x ++ b))
      = operatorSpellings.find? (fun spelling => spelling.isPrefixOf (x ++ a)) := by
    refine List.find?_congr fun spelling hmem => ?_
    obtain ⟨hlen, hloud⟩ := operatorSpellings_short hmem
    rw [isPrefixOf_outlook hloud hlen (x ++ a), isPrefixOf_outlook hloud hlen (x ++ b), hlook]
  unfold ofOperator at hl ⊢
  rw [hfind]
  exact hl

theorem read_loud {c : Char} {rest : Text} {l : Lexeme} (h : read c rest = .ok l) : isLoud c = true := by
  cases hloud : isLoud c with
  | true => rfl
  | false =>
    have hfirst : read c rest = ofOperator c (c :: rest) := by
      rcases eq_of_not_loud hloud with rfl | rfl | rfl | rfl | rfl | rfl <;> rfl
    rw [hfirst, ofOperator] at h
    split at h
    next spelling hfind =>
      have hmem := List.mem_of_find?_eq_some hfind
      obtain ⟨d, tail, rfl⟩ := List.exists_cons_of_ne_nil (operatorSpellings_ne_nil spelling hmem)
      have hfits := List.find?_some hfind
      have hpre := List.isPrefixOf_iff_prefix.mp hfits
      have hd := (operatorSpellings_short hmem).2 d List.mem_cons_self
      rw [(List.cons_prefix_cons.mp hpre).1] at hd
      exact nomatch hd.symm.trans hloud
    next => exact nomatch h

/-- a token is read again in front of another text of the same outlook -/
theorem read_local (h : outlook 2 a = outlook 2 b) {c : Char} {x : Text} {l : Lexeme}
    (hl : read c (x ++ a) = .ok l) (hx : l.text = c :: x) : read c (x ++ b) = .ok l := by
  unfold read at hl ⊢
  rw [← List.cons_append] at hl ⊢
  split at hl
  next hc =>
    obtain rfl := Except.ok.inj hl
    rw [if_pos hc, ofNumber_local h hx]
  next hc =>
    rw [if_neg hc]
    split at hl
    next hc =>
      obtain rfl := Except.ok.inj hl
      rw [if_pos hc, ofWord_local h hx]
    next hc =>
      rw [if_neg hc]
      split at hl
      next hc =>
        rw [if_pos hc]
        exact ofVariable_local h hl hx
      next hc =>
        rw [if_neg hc]
        split at hl
        next hc =>
          rw [if_pos hc]
          exact ofQuoted_local b hl hx
        next hc =>
          rw [if_neg hc]
          split at hl
          next hc =>
            rw [if_pos hc]
            subst hc
            exact ofColon_local h hl hx
          next hc =>
            rw [if_neg hc]
            split at hl
            next => exact nomatch hl
            next hc =>
              rw [if_neg hc]
              exact ofOperator_local h hl (List.cons_ne_nil _ _)

/-! ## labels -/

/-- behind the colon of a label only another colon matters -/
theorem wordName_colon {name : Text} (h : wordName (name ++ ':' :: a) = name) :
    wordName (name ++ ':' :: b) = name := by
  have hlook : outlook 1 (':' :: a) = outlook 1 (':' :: b) := by
    rw [outlook_cons_loud (by decide), outlook_cons_loud (by decide)]
    rfl
  have hstem : ((name ++ ':' :: a).takeWhile isNameChar).length ≤ name.length := by
    have := congrArg List.length h
    rw [wordName, List.length_append] at this
    omega
  have hmark (x : Text) : nameMark (x ++ ':' :: b) = nameMark (x ++ ':' :: a) := by
    cases x with
    | nil => simp [nameMark, mark_cons]
    | cons c x => cases x <;> simp [nameMark, mark_cons]
  rw [wordName, List.drop_append_of_le_length hstem] at h
  rw [wordName, takeWhile_local isNameChar_loud hlook name hstem, List.drop_append_of_le_length hstem,
    hmark]
  exact h

theorem ofName_ne_label (name held : Text) : Token.Kind.ofName name ≠ .label held := by
  unfold Token.Kind.ofName
  split
  · exact Token.Kind.noConfusion
  · split <;> exact Token.Kind.noConfusion

theorem ofSpelling_ne_label (spelling name : Text) : Token.Kind.ofSpelling spelling ≠ .label name := by
  unfold Token.Kind.ofSpelling
  split
  any_goals exact Token.Kind.noConfusion
  split
  · exact Token.Kind.noConfusion
  · split <;> exact Token.Kind.noConfusion

theorem read_eq_label {c : Char} {rest name text : Text} (h : read c rest = .ok ⟨.label name, text⟩) :
    c.isDigit = false ∧ isNameChar c = true ∧ wordName (c :: rest) = name ∧ text = name ++ [':'] := by
  unfold read at h
  split at h
  next hc =>
    have hkind := congrArg Lexeme.kind (Except.ok.inj h)
    rw [ofNumber_eq] at hkind
    dsimp only at hkind
    split at hkind <;> cases hkind
  next hdigit =>
    split at h
    next hname =>
      have hword := Except.ok.inj h
      rw [ofWord_eq] at hword
      split at hword
      · injection hword with hkind htext
        injection hkind with hname'
        exact ⟨by simpa using hdigit, hname, hname', by rw [← htext, hname']⟩
      · exact absurd (congrArg Lexeme.kind hword) (ofName_ne_label _ _)
    next =>
      split at h
      next =>
        unfold ofVariable at h
        dsimp only at h
        split at h
        · cases h
        · cases h
      next =>
        split at h
        next =>
          unfold ofQuoted at h
          split at h
          · cases h
          · cases h
        next =>
          split at h
          next =>
            unfold ofColon at h
            split at h
            · cases h
            · split at h
              · cases h
              · split at h
                · split at h
                  · cases h
                  · cases h
                · split at h
                  · cases h
                  · cases h
          next =>
            split at h
            next => cases h
            next =>
              unfold ofOperator at h
              split at h
              · exact absurd (congrArg Lexeme.kind (Except.ok.inj h)) (ofSpelling_ne_label _ _)
              · cases h

/-- a label is read again in front of any text that does not begin with a colon -/
theorem read_label_local {c : Char} {x name text : Text} (h : read c (x ++ a) = .ok ⟨.label name, text⟩)
    (hx : text = c :: x) (hcolon : b.head? ≠ some ':') : read c (x ++ b) = .ok ⟨.label name, text⟩ := by
  obtain ⟨hdigit, hname, hword, htext⟩ := read_eq_label h
  have hcs (t : Text) : c :: (x ++ t) = name ++ ':' :: t := by
    rw [← List.cons_append, ← hx, htext, List.append_assoc]
    rfl
  rw [hcs] at hword
  rw [read, hdigit, if_neg (by simp), if_pos hname, hcs, ofWord_eq, wordName_colon hword, List.drop_left,
    if_pos ⟨rfl, hcolon⟩, htext]

end Lexeme

/-! ## pieces -/

namespace Piece
open Text
variable {piece : Piece} {pieces : List Piece} {a b : Text}

/-- the piece is read at the front of its characters and the text behind them -/
def Heads (piece : Piece) (behind : Text) : Prop :=
  ∃ c x, piece.text = c :: x ∧ read c (x ++ behind) = .ok piece

/-- what is read at the front of a text is read there -/
theorem heads_of_read {c : Char} {rest : Text} (h : read c rest = .ok piece) :
    ∃ behind, c :: rest = piece.text ++ behind ∧ piece.Heads behind := by
  obtain ⟨behind, hb, hne, -⟩ := read_proper h
  obtain ⟨d, x, hx⟩ := List.exists_cons_of_ne_nil hne
  rw [hx, List.cons_append] at hb
  obtain ⟨rfl, rfl⟩ := List.cons.inj hb
  exact ⟨behind, by rw [hx]; rfl, c, x, hx, h⟩

theorem read_eq_token {c : Char} {rest text : Text} {kind : Token.Kind} :
    read c rest = .ok ⟨.token kind, text⟩ ↔ Lexeme.read c rest = .ok ⟨kind, text⟩ := by
  constructor
  · intro h
    unfold read at h
    split at h
    · exact nomatch h
    · split at h
      · exact nomatch h
      · split at h
        · exact nomatch h
        · split at h
          · exact nomatch h
          · cases hl : Lexeme.read c rest with
            | error cause =>
              rw [hl] at h
              exact nomatch h
            | ok l =>
              rw [hl] at h
              injection h with h
              injection h with hsort htext
              injection hsort with hkind
              rw [← hkind, ← htext]
  · intro h
    have hloud := Lexeme.read_loud h
    have hother (d : Char) (hd : isLoud d = false) : c ≠ d := by
      rintro rfl
      exact nomatch hloud.symm.trans hd
    have hblank : ¬(c = ' ' ∨ c = '\t' ∨ c = '\r') := by
      rintro (hc | hc | hc) <;> exact hother _ (by decide) hc
    rw [read, if_neg hblank, if_neg (hother _ (by decide)),
      if_neg (fun hjoin => hother _ (by decide) hjoin.1), if_neg (hother _ (by decide)), h]
    rfl

theorem Heads.proper (h : piece.Heads a) : piece.Proper a := by
  obtain ⟨c, x, hx, hread⟩ := h
  obtain ⟨behind, hb, -, hproper⟩ := read_proper hread
  rw [hx, List.cons_append] at hb
  rw [List.append_cancel_left (List.cons.inj hb).2]
  exact hproper

theorem heads_comment {body : Text} (hbody : '\n' ∉ body) (hline : a = [] ∨ a.head? = some '\n') :
    Heads ⟨.comment, '#' :: body⟩ a := by
  have htake : (body ++ a).takeWhile (· != '\n') = body := by
    rw [List.takeWhile_append_of_pos (by
      intro c hc
      exact bne_iff_ne.mpr (fun h => hbody (h ▸ hc)))]
    rcases hline with rfl | hhead
    · exact List.append_nil body
    · obtain ⟨rest, rfl⟩ := List.head?_eq_some_iff.mp hhead
      simp
  refine ⟨'#', body, rfl, ?_⟩
  show Except.ok (⟨.comment, '#' :: (body ++ a).takeWhile (· != '\n')⟩ : Piece) = _
  rw [htake]

/-- A piece is read again in front of another text of the same outlook.  A comment also needs the end
of its line. -/
theorem Heads.local (h : piece.Heads a) (hlook : outlook 2 a = outlook 2 b)
    (hline : piece.sort = .comment → b.head? = a.head?) : piece.Heads b := by
  have hproper := h.proper
  obtain ⟨sort, text⟩ := piece
  cases sort with
  | blank => rcases hproper with rfl | rfl | rfl | rfl <;> exact ⟨_, _, rfl, rfl⟩
  | lineFeed =>
    obtain rfl : text = ['\n'] := hproper
    exact ⟨_, _, rfl, rfl⟩
  | comment =>
    obtain ⟨⟨body, rfl, hbody⟩, hend⟩ := hproper
    refine heads_comment hbody ?_
    rw [← List.head?_eq_none_iff] at hend ⊢
    rw [hline rfl]
    exact hend
  | token kind =>
    obtain ⟨c, x, hx, hread⟩ := h
    exact ⟨c, x, hx, read_eq_token.mpr (Lexeme.read_local hlook (read_eq_token.mp hread) hx)⟩

/-- a label is read again in front of any text that does not begin with a colon -/
theorem Heads.label_local {name text : Text} (h : Heads ⟨.token (.label name), text⟩ a)
    (hcolon : b.head? ≠ some ':') : Heads ⟨.token (.label name), text⟩ b := by
  obtain ⟨c, x, hx, hread⟩ := h
  exact ⟨c, x, hx, read_eq_token.mpr (Lexeme.read_label_local (read_eq_token.mp hread) hx hcolon)⟩

/-! ## all pieces -/

/-- every piece is read in front of the pieces behind it -/
def Stands : List Piece → Prop
  | [] => True
  | piece :: pieces => piece.Heads (concat pieces) ∧ Stands pieces

theorem stands_append_right {front : List Piece} (h : Stands (front ++ pieces)) : Stands pieces := by
  induction front with
  | nil => exact h
  | cons piece front ih => exact ih h.2

/-- the pieces that are read make up the text and are read one by one -/
theorem readAll_stands (offset : Nat) (t : Text) (pieces : List Piece)
    (h : readAll offset t = .ok pieces) : concat pieces = t ∧ Stands pieces := by
  refine ⟨(readAll_cut offset t pieces h).1, ?_⟩
  fun_induction readAll offset t generalizing pieces with
  | case1 offset =>
    obtain rfl := Except.ok.inj h
    exact trivial
  | case2 offset c rest cause distance hr => cases h
  | case3 offset c rest piece hr ih =>
    cases ht : readAll (offset + piece.text.size) (rest.drop (piece.text.length - 1)) with
    | error e =>
      rw [ht] at h
      cases h
    | ok tail =>
      rw [ht] at h
      obtain rfl := Except.ok.inj h
      obtain ⟨behind, hb, c', x, hx, hread⟩ := heads_of_read hr
      have hcat := (readAll_cut _ _ tail ht).1
      rw [hx, List.cons_append] at hb
      obtain ⟨rfl, rfl⟩ := List.cons.inj hb
      rw [hx, List.length_cons, Nat.add_sub_cancel, List.drop_left] at hcat
      exact ⟨⟨c, x, hx, by rw [hcat]; exact hread⟩, ih tail ht⟩

/-- pieces that are read one by one are the pieces of the text they make up -/
theorem readAll_of_stands (offset : Nat) (h : Stands pieces) :
    readAll offset (concat pieces) = .ok pieces := by
  induction pieces generalizing offset with
  | nil => rw [concat_nil, readAll]
  | cons piece pieces ih =>
    obtain ⟨c, x, hx, hread⟩ := h.1
    rw [concat_cons, hx, List.cons_append, readAll, hread]
    dsimp only
    rw [hx, List.length_cons, Nat.add_sub_cancel, List.drop_left, ih _ h.2]
    rfl

end Piece

end Collate
