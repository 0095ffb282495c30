import Mathlib.Data.List.TakeWhile
import Collate.Proofs.Token.Comments
import Collate.Proofs.Token.Local

/-!
# The ends of a token

A token begins and ends with loud characters, whatever stands between them.

* `Text.Sharp`          a text with such ends;
* `Lexeme.read_sharp`   every token that is read has them;
* `Text.tokens_sharp`   so do the tokens of a text;
* `Text.ident_loud`     names are loud throughout.
-/

namespace Collate

/-- the text begins and ends with characters that are none of those between tokens -/
structure Text.Sharp (t : Text) : Prop where
  first : ∃ c rest, t = c :: rest ∧ isLoud c = true
  last : ∃ rest c, t = rest ++ [c] ∧ isLoud c = true

namespace Lexeme
open Text

theorem sharp_of_loud {t : Text} (hne : t ≠ []) (h : ∀ c ∈ t, isLoud c = true) : t.Sharp := by
  constructor
  · obtain ⟨c, rest, rfl⟩ := List.exists_cons_of_ne_nil hne
    exact ⟨c, rest, rfl, h c List.mem_cons_self⟩
  · refine ⟨t.dropLast, t.getLast hne, (List.dropLast_concat_getLast hne).symm, ?_⟩
    exact h _ (List.getLast_mem hne)

theorem loud_single {c : Char} (hc : isLoud c = true) : ∀ d ∈ [c], isLoud d = true :=
  List.forall_mem_singleton.mpr hc

theorem mark_loud (rest : Text) : ∀ c ∈ mark rest, isLoud c = true := by
  unfold mark
  split
  · exact loud_single (by decide)
  · exact loud_single (by decide)
  · simp

theorem nameMark_loud (rest : Text) : ∀ c ∈ nameMark rest, isLoud c = true := by
  unfold nameMark
  split
  · simp
  · exact mark_loud rest

theorem append_loud {a b : Text} (ha : ∀ c ∈ a, isLoud c = true) (hb : ∀ c ∈ b, isLoud c = true) :
    ∀ c ∈ a ++ b, isLoud c = true :=
  List.forall_mem_append.mpr ⟨ha, hb⟩

theorem takeWhile_loud {p : Char → Bool} (hp : ∀ c, p c = true → isLoud c = true) (t : Text) :
    ∀ c ∈ t.takeWhile p, isLoud c = true :=
  fun c hc => hp c (List.mem_takeWhile_imp hc)

theorem ofWord_loud (cs : Text) : ∀ c ∈ (ofWord cs).text, isLoud c = true := by
  have hname : ∀ c ∈ wordName cs, isLoud c = true :=
    append_loud (takeWhile_loud isNameChar_loud cs) (nameMark_loud _)
  rw [ofWord_eq]
  split
  · exact append_loud hname (loud_single (by decide))
  · exact hname

theorem ofNumber_loud (cs : Text) : ∀ c ∈ (ofNumber cs).text, isLoud c = true := by
  have hwhole := takeWhile_loud isNumberChar_loud cs
  unfold ofNumber
  dsimp only
  split
  next rest _ =>
    split
    · refine append_loud hwhole (List.forall_mem_cons.mpr ⟨by decide, ?_⟩)
      exact takeWhile_loud isNumberChar_loud rest
    · exact hwhole
  next => exact hwhole

theorem ofVariable_loud {cs : Text} {l : Lexeme} (h : ofVariable cs = .ok l) :
    ∀ c ∈ l.text, isLoud c = true := by
  unfold ofVariable at h
  dsimp only at h
  split at h
  next => cases h
  next =>
    obtain rfl := Except.ok.inj h
    exact append_loud (takeWhile_loud (eq_loud (by decide)) cs) (takeWhile_loud isNameChar_loud _)

theorem isQuote_loud {quote : Char} (h : isQuote quote = true) : isLoud quote = true := by
  rw [isQuote, Bool.or_eq_true, beq_iff_eq, beq_iff_eq] at h
  rcases h with rfl | rfl <;> decide

theorem quoted_sharp {quote : Char} (hquote : isQuote quote = true) (content : Text) :
    Sharp (quote :: (content ++ [quote])) :=
  ⟨⟨quote, _, rfl, isQuote_loud hquote⟩, ⟨quote :: content, quote, rfl, isQuote_loud hquote⟩⟩

theorem Sharp.colon {t : Text} (h : t.Sharp) : Sharp (':' :: t) := by
  obtain ⟨rest, c, rfl, hc⟩ := h.last
  exact ⟨⟨':', _, rfl, by decide⟩, ⟨':' :: rest, c, rfl, hc⟩⟩

theorem ofColon_sharp {rest : Text} {l : Lexeme} (h : ofColon rest = .ok l) : l.text.Sharp := by
  unfold ofColon at h
  split at h
  next => cases h
  next c after =>
    split at h
    next =>
      obtain rfl := Except.ok.inj h
      exact sharp_of_loud (List.cons_ne_nil _ _) (List.forall_mem_cons.mpr ⟨by decide, loud_single (by decide)⟩)
    next =>
      split at h
      next hc =>
        split at h
        next content written hq =>
          obtain rfl := Except.ok.inj h
          rw [(quoted_spec hq).1]
          exact Sharp.colon (quoted_sharp (by rcases hc with rfl | rfl <;> rfl) content)
        next => cases h
      next =>
        split at h
        next =>
          obtain rfl := Except.ok.inj h
          refine sharp_of_loud (List.cons_ne_nil _ _) (List.forall_mem_cons.mpr ⟨by decide, ?_⟩)
          exact append_loud (takeWhile_loud isNameChar_loud _) (mark_loud _)
        next => cases h

theorem read_sharp {c : Char} {rest : Text} {l : Lexeme} (h : read c rest = .ok l) : l.text.Sharp := by
  have hne := (read_fronts h).text_ne_nil
  unfold read at h
  split at h
  next =>
    obtain rfl := Except.ok.inj h
    exact sharp_of_loud hne (ofNumber_loud _)
  next =>
    split at h
    next =>
      obtain rfl := Except.ok.inj h
      exact sharp_of_loud hne (ofWord_loud _)
    next =>
      split at h
      next => exact sharp_of_loud hne (ofVariable_loud h)
      next =>
        split at h
        next hc =>
          unfold ofQuoted at h
          split at h
          next content written hq =>
            obtain rfl := Except.ok.inj h
            rw [(quoted_spec hq).1]
            exact quoted_sharp (by rcases hc with rfl | rfl <;> rfl) content
          next => cases h
        next =>
          split at h
          next => exact ofColon_sharp h
          next =>
            split at h
            next => cases h
            next =>
              unfold ofOperator at h
              split at h
              next spelling hfind =>
                obtain rfl := Except.ok.inj h
                have hmem := List.mem_of_find?_eq_some hfind
                exact sharp_of_loud hne (operatorSpellings_short hmem).2
              next => cases h

theorem ofColon_ne_ident {rest name : Text} {l : Lexeme} (h : ofColon rest = .ok l) :
    l.kind ≠ .ident name := by
  unfold ofColon at h
  split at h
  next => cases h
  next =>
    split at h
    next =>
      rw [← Except.ok.inj h]
      exact Token.Kind.noConfusion
    next =>
      split at h
      next =>
        split at h
        next =>
          rw [← Except.ok.inj h]
          exact Token.Kind.noConfusion
        next => cases h
      next =>
        split at h
        next =>
          rw [← Except.ok.inj h]
          exact Token.Kind.noConfusion
        next => cases h

/-- the name of a variable or method is loud: what is not is quoted, and quoted texts are no such
names -/
theorem read_ident_loud {c : Char} {rest name : Text} {l : Lexeme} (h : read c rest = .ok l)
    (hkind : l.kind = .ident name) : ∀ d ∈ name, isLoud d = true := by
  have hspelled := (read_fronts h).spelled
  rw [hkind] at hspelled
  rw [← show l.text = name from hspelled]
  unfold read at h
  split at h
  next =>
    rw [← Except.ok.inj h]
    exact ofNumber_loud _
  next =>
    split at h
    next =>
      rw [← Except.ok.inj h]
      exact ofWord_loud _
    next =>
      split at h
      next => exact ofVariable_loud h
      next =>
        split at h
        next =>
          unfold ofQuoted at h
          split at h
          next =>
            rw [← Except.ok.inj h] at hkind
            exact nomatch hkind
          next => exact nomatch h
        next =>
          split at h
          next => exact absurd hkind (ofColon_ne_ident h)
          next =>
            split at h
            next => exact nomatch h
            next =>
              unfold ofOperator at h
              split at h
              next spelling hfind =>
                rw [← Except.ok.inj h]
                exact (operatorSpellings_short (List.mem_of_find?_eq_some hfind)).2
              next => exact nomatch h

end Lexeme

/-! ## the tokens of a text -/

theorem Text.exists_read {t : Text} {token : Token} (h : token ∈ t.tokens) :
    ∃ c rest, Lexeme.read c rest = .ok ⟨token.kind, token.text⟩ := by
  unfold tokens TokenStream.read at h
  cases hread : Piece.readAll 0 t with
  | error e =>
    rw [hread] at h
    cases h
  | ok pieces =>
    rw [hread] at h
    have hstands := (Piece.readAll_stands 0 t pieces hread).2
    have hplaced := TokenStream.mem_placed_of_token h
    obtain ⟨before, behind, hpieces, -⟩ := Piece.exists_of_mem_placed hplaced
    rw [hpieces] at hstands
    obtain ⟨c, x, -, hpiece⟩ := (Piece.stands_append_right hstands).1
    exact ⟨c, _, Piece.read_eq_token.mp hpiece⟩

theorem Text.tokens_sharp {t : Text} {token : Token} (h : token ∈ t.tokens) : token.text.Sharp := by
  obtain ⟨c, rest, hread⟩ := exists_read h
  exact Lexeme.read_sharp hread

theorem Text.ident_loud {t : Text} {token : Token} {name : Text} (h : token ∈ t.tokens)
    (hkind : token.kind = .ident name) : ∀ c ∈ name, isLoud c = true := by
  obtain ⟨c, rest, hread⟩ := exists_read h
  exact Lexeme.read_ident_loud hread hkind

end Collate
