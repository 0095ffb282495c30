import Collate.Token.Lexeme

/-!
# Spellings

What a token is decides how it is written, up to the choice of quotes.  The token that
`Lexeme.read` finds at the front of a text is not empty, is made of the first characters of the
text, and is a spelling of its kind.

* `Token.Kind.Spelled`   a text is a spelling of a kind;
* `Lexeme.Fronts`        a token stands at the front of a text;
* `Lexeme.read_fronts`   `Lexeme.read` gives such a token.
-/

namespace Collate

def isQuote (c : Char) : Bool :=
  c == '"' || c == '\''

def Token.Kind.Spelled : Token.Kind → Text → Prop
  | .ident name, text => text = name
  | .const name, text => text = name
  | .ivar name, text => text = name
  | .number digits, text => text = digits
  | .op spelling, text => text = spelling
  | .opAssign spelling, text => text = spelling
  | .keyword word, text => text = word.text
  | .label name, text => text = name ++ [':'] ∧ name ≠ []
  | .symbol name, text =>
    text = ':' :: name ∨ ∃ quote, isQuote quote = true ∧ text = ':' :: quote :: (name ++ [quote])
  | .str content, text => ∃ quote, isQuote quote = true ∧ text = quote :: (content ++ [quote])
  | .leftParen, text => text = ['(']
  | .rightParen, text => text = [')']
  | .leftBracket, text => text = ['[']
  | .rightBracket, text => text = [']']
  | .leftBrace, text => text = ['{']
  | .rightBrace, text => text = ['}']
  | .comma, text => text = [',']
  | .semicolon, text => text = [';']
  | .dot, text => text = ['.']
  | .safeDot, text => text = ['&', '.']
  | .scope, text => text = [':', ':']
  | .pipe, text => text = ['|']
  | .star, text => text = ['*']
  | .doubleStar, text => text = ['*', '*']
  | .ampersand, text => text = ['&']
  | .assign, text => text = ['=']
  | .arrow, text => text = ['=', '>']
  | .eof, text => text = []

namespace Token.Kind

theorem ofSpelling_spelled (spelling : Text) : (ofSpelling spelling).Spelled spelling := by
  unfold ofSpelling
  split
  any_goals rfl
  split
  · rfl
  · split <;> rfl

theorem ofSpelling_ne_eof (spelling : Text) : ofSpelling spelling ≠ .eof := by
  unfold ofSpelling
  split
  any_goals exact Token.Kind.noConfusion
  split
  · exact Token.Kind.noConfusion
  · split <;> exact Token.Kind.noConfusion

theorem text_of_ofText? {name : Text} {word : Keyword} (h : Keyword.ofText? name = some word) :
    word.text = name := by
  have := List.find?_some h
  exact eq_of_beq this

theorem ofName_spelled (name : Text) : (ofName name).Spelled name := by
  unfold ofName
  split
  · rfl
  · split
    next word hword => exact (text_of_ofText? hword).symm
    next => rfl

theorem ofName_ne_eof (name : Text) : ofName name ≠ .eof := by
  unfold ofName
  split
  · exact Token.Kind.noConfusion
  · split <;> exact Token.Kind.noConfusion

end Token.Kind

namespace Lexeme

/-- the token is written with the first characters of a text, at least one, and as its kind is
written -/
structure Fronts (l : Lexeme) (cs : Text) : Prop where
  text_prefix : l.text <+: cs
  text_ne_nil : l.text ≠ []
  spelled : l.kind.Spelled l.text
  kind_ne_eof : l.kind ≠ .eof

/-! ## names and numbers -/

theorem append_isPrefix {a b cs : Text} (ha : a <+: cs) (hb : b <+: cs.drop a.length) :
    a ++ b <+: cs := by
  obtain ⟨rest, rfl⟩ := ha
  rw [List.drop_left] at hb
  exact (List.prefix_append_right_inj a).mpr hb

theorem mark_isPrefix (rest : Text) : mark rest <+: rest := by
  unfold mark
  split
  · exact ⟨_, rfl⟩
  · exact ⟨_, rfl⟩
  · exact List.nil_prefix

theorem nameMark_isPrefix (rest : Text) : nameMark rest <+: rest := by
  unfold nameMark
  split
  · exact List.nil_prefix
  · exact mark_isPrefix rest

theorem cons_takeWhile_ne_nil {p : Char → Bool} {c : Char} (rest : Text) (hc : p c = true) :
    (c :: rest).takeWhile p ≠ [] := by
  rw [List.takeWhile_cons, if_pos hc]
  exact List.cons_ne_nil _ _

theorem ofWord_fronts (c : Char) (rest : Text) (hc : isNameChar c = true) :
    (ofWord (c :: rest)).Fronts (c :: rest) := by
  have hstem := cons_takeWhile_ne_nil rest hc
  unfold ofWord
  dsimp only
  generalize hs : (c :: rest).takeWhile isNameChar = stem at hstem
  generalize hm : nameMark ((c :: rest).drop stem.length) = tail
  have hpre : stem ++ tail <+: c :: rest := by
    apply append_isPrefix
    · rw [← hs]
      exact List.takeWhile_prefix _
    · rw [← hm]
      exact nameMark_isPrefix _
  have hne : stem ++ tail ≠ [] := List.append_ne_nil_of_left_ne_nil hstem tail
  have plain : Fronts ⟨.ofName (stem ++ tail), stem ++ tail⟩ (c :: rest) :=
    ⟨hpre, hne, Token.Kind.ofName_spelled _, Token.Kind.ofName_ne_eof _⟩
  split
  next after hafter =>
    split
    · exact plain
    · refine ⟨?_, ?_, ⟨rfl, hne⟩, Token.Kind.noConfusion⟩
      · apply append_isPrefix hpre
        rw [hafter]
        exact ⟨after, rfl⟩
      · exact List.append_ne_nil_of_left_ne_nil hne _
  next => exact plain

theorem ofNumber_fronts (c : Char) (rest : Text) (hc : c.isDigit = true) :
    (ofNumber (c :: rest)).Fronts (c :: rest) := by
  have hnum : isNumberChar c = true := by simp [isNumberChar, hc]
  have hwhole := cons_takeWhile_ne_nil rest hnum
  unfold ofNumber
  dsimp only
  generalize hs : (c :: rest).takeWhile isNumberChar = whole at hwhole
  have hpre : whole <+: c :: rest := by
    rw [← hs]
    exact List.takeWhile_prefix _
  have plain : Fronts ⟨.number whole, whole⟩ (c :: rest) :=
    ⟨hpre, hwhole, rfl, Token.Kind.noConfusion⟩
  split
  next after hafter =>
    split
    · refine ⟨?_, List.append_ne_nil_of_left_ne_nil hwhole _, rfl, Token.Kind.noConfusion⟩
      apply append_isPrefix hpre
      rw [hafter]
      exact List.prefix_cons_inj '.' |>.mpr (List.takeWhile_prefix _)
    · exact plain
  next => exact plain

theorem ofVariable_fronts {cs : Text} {l : Lexeme} (h : ofVariable cs = .ok l) : l.Fronts cs := by
  unfold ofVariable at h
  dsimp only at h
  split at h
  next => exact absurd h (by simp)
  next hstem =>
    injection h with h
    subst h
    have hne : (List.takeWhile isNameChar (cs.drop (cs.takeWhile (· == '@')).length)) ≠ [] := by
      simpa using hstem
    refine ⟨?_, List.append_ne_nil_of_right_ne_nil _ hne, rfl, Token.Kind.noConfusion⟩
    exact append_isPrefix (List.takeWhile_prefix _) (List.takeWhile_prefix _)

/-! ## quoted text and symbols -/

/-- the content of a quoted text and the quote behind it stand at the front of what is scanned -/
theorem quotedContent_isPrefix (quote : Char) (rest : Text) :
    ∀ (state : QuoteState) (content : Text), quotedContent quote state rest = .ok content →
      content ++ [quote] <+: rest := by
  induction rest with
  | nil =>
    intro state content h
    cases state <;> exact absurd h (by simp [quotedContent])
  | cons c cs ih =>
    -- every branch but the closing quote keeps `c` and scans on in some state
    have keep : ∀ (state : QuoteState) (content : Text),
        (quotedContent quote state cs).map (c :: ·) = .ok content →
          content ++ [quote] <+: c :: cs := by
      intro state content h
      cases hq : quotedContent quote state cs with
      | error cause => rw [hq] at h; exact absurd h (by simp [Except.map])
      | ok inner =>
        rw [hq] at h
        injection h with h
        subst h
        rw [List.cons_append]
        exact (List.prefix_cons_inj c).mpr (ih state inner hq)
    intro state content h
    cases state with
    | escaped => exact keep _ _ h
    | interpolated depth =>
      rw [quotedContent] at h
      split at h
      · exact keep _ _ h
      · split at h
        · split at h <;> exact keep _ _ h
        · exact keep _ _ h
    | plain =>
      rw [quotedContent] at h
      split at h
      · exact keep _ _ h
      · split at h
        next hquote =>
          injection h with h
          subst h
          subst hquote
          exact ⟨cs, rfl⟩
        next => split at h <;> exact keep _ _ h

theorem quoted_spec {quote : Char} {rest content written : Text}
    (h : quoted quote rest = .ok (content, written)) :
    written = quote :: (content ++ [quote]) ∧ written <+: quote :: rest := by
  unfold quoted at h
  cases hq : quotedContent quote .plain rest with
  | error cause => rw [hq] at h; exact absurd h (by simp [Except.map])
  | ok inner =>
    rw [hq] at h
    injection h with h
    obtain ⟨rfl, rfl⟩ := Prod.mk.inj h
    refine ⟨rfl, ?_⟩
    exact (List.prefix_cons_inj quote).mpr (quotedContent_isPrefix quote rest _ _ hq)

theorem ofQuoted_fronts {quote : Char} {rest : Text} {l : Lexeme} (hquote : isQuote quote = true)
    (h : ofQuoted quote rest = .ok l) : l.Fronts (quote :: rest) := by
  unfold ofQuoted at h
  split at h
  next content written hq =>
    injection h with h
    subst h
    obtain ⟨hw, hpre⟩ := quoted_spec hq
    exact ⟨hpre, by rw [hw]; exact List.cons_ne_nil _ _, ⟨quote, hquote, hw⟩,
      Token.Kind.noConfusion⟩
  next => exact absurd h (by simp)

theorem ofColon_fronts {rest : Text} {l : Lexeme} (h : ofColon rest = .ok l) :
    l.Fronts (':' :: rest) := by
  unfold ofColon at h
  split at h
  next => exact absurd h (by simp)
  next c after =>
    split at h
    next hc =>
      injection h with h
      subst h
      subst hc
      exact ⟨⟨after, rfl⟩, List.cons_ne_nil _ _, rfl, Token.Kind.noConfusion⟩
    next =>
      split at h
      next hc =>
        split at h
        next content written hq =>
          injection h with h
          subst h
          obtain ⟨hw, hpre⟩ := quoted_spec hq
          have hquote : isQuote c = true := by rcases hc with rfl | rfl <;> rfl
          refine ⟨(List.prefix_cons_inj ':').mpr hpre, List.cons_ne_nil _ _, ?_,
            Token.Kind.noConfusion⟩
          exact Or.inr ⟨c, hquote, by rw [hw]⟩
        next => exact absurd h (by simp)
      next =>
        split at h
        next =>
          injection h with h
          subst h
          refine ⟨(List.prefix_cons_inj ':').mpr ?_, List.cons_ne_nil _ _, Or.inl rfl,
            Token.Kind.noConfusion⟩
          exact append_isPrefix (List.takeWhile_prefix _) (mark_isPrefix _)
        next => exact absurd h (by simp)

/-! ## operators, and the choice between all of them -/

theorem operatorSpellings_ne_nil : ∀ spelling ∈ operatorSpellings, spelling ≠ [] := by
  decide

theorem ofOperator_fronts {c : Char} {cs : Text} {l : Lexeme} (h : ofOperator c cs = .ok l) :
    l.Fronts cs := by
  unfold ofOperator at h
  split at h
  next spelling hfind =>
    injection h with h
    subst h
    have hpre := List.find?_some hfind
    exact ⟨List.isPrefixOf_iff_prefix.mp hpre,
      operatorSpellings_ne_nil _ (List.mem_of_find?_eq_some hfind),
      Token.Kind.ofSpelling_spelled _, Token.Kind.ofSpelling_ne_eof _⟩
  next => exact absurd h (by simp)

theorem read_fronts {c : Char} {rest : Text} {l : Lexeme} (h : read c rest = .ok l) :
    l.Fronts (c :: rest) := by
  unfold read at h
  split at h
  next hc =>
    injection h with h
    subst h
    exact ofNumber_fronts c rest hc
  next =>
    split at h
    next hc =>
      injection h with h
      subst h
      exact ofWord_fronts c rest hc
    next =>
      split at h
      next => exact ofVariable_fronts h
      next =>
        split at h
        next hc => exact ofQuoted_fronts (by rcases hc with rfl | rfl <;> rfl) h
        next =>
          split at h
          next hc =>
            subst hc
            exact ofColon_fronts h
          next =>
            split at h
            · exact absurd h (by simp)
            · exact ofOperator_fronts h

end Lexeme

end Collate
