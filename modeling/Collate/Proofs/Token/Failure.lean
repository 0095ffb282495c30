import Collate.Proofs.Text.Slice
import Collate.Proofs.Token.Pieces

/-!
# Texts without tokens

Where a text cannot be cut into pieces, the error names a place between two of its characters.  The
cutting goes on as long as there are characters, and every piece takes one of them at least.

* `quotedContent_error`  a quoted text fails because the text ends too early;
* `Lexeme.read_error`    how far behind its front a text is refused;
* `Piece.readAll_error`  where the cutting of a text fails.
-/

namespace Collate

/-- the error is no lack of steps and stands between two characters, or at one end, of the text -/
def ReadCause.StandsIn (cause : ReadCause) (distance : Nat) (t : Text) : Prop :=
  cause ≠ .outOfSteps ∧ t.isBoundary distance = true

theorem ReadCause.standsIn_front {cause : ReadCause} (h : cause ≠ .outOfSteps) (t : Text) :
    cause.StandsIn 0 t :=
  ⟨h, Text.isBoundary_zero t⟩

/-- a quoted text fails where the text ends, and for no other cause -/
theorem quotedContent_error (quote : Char) (rest : Text) :
    ∀ (state : QuoteState) (cause : ReadCause), quotedContent quote state rest = .error cause →
      cause = .unterminatedString ∨ cause = .unterminatedInterpolation := by
  induction rest with
  | nil =>
    intro state cause h
    cases state with
    | plain => exact .inl (Except.error.inj h).symm
    | escaped => exact .inl (Except.error.inj h).symm
    | interpolated depth => exact .inr (Except.error.inj h).symm
  | cons c cs ih =>
    -- every branch but the closing quote scans on in some state
    have keep : ∀ (state : QuoteState) (cause : ReadCause),
        (quotedContent quote state cs).map (c :: ·) = .error cause →
          cause = .unterminatedString ∨ cause = .unterminatedInterpolation := by
      intro state cause h
      cases hq : quotedContent quote state cs with
      | error held =>
        rw [hq] at h
        obtain rfl : held = cause := Except.error.inj h
        exact ih state held hq
      | ok content =>
        rw [hq] at h
        cases h
    intro state cause h
    cases state with
    | escaped => exact keep _ _ h
    | interpolated depth =>
      rw [quotedContent] at h
      split at h
      · exact keep _ _ h
      · split at h
        · split at h <;> exact keep _ _ h
        · exact keep _ _ h
    | plain =>
      rw [quotedContent] at h
      split at h
      · exact keep _ _ h
      · split at h
        · cases h
        · split at h <;> exact keep _ _ h

namespace Lexeme

theorem quoted_error {quote : Char} {rest : Text} {cause : ReadCause}
    (h : quoted quote rest = .error cause) : cause ≠ .outOfSteps := by
  unfold quoted at h
  cases hq : quotedContent quote .plain rest with
  | error held =>
    rw [hq] at h
    obtain rfl : held = cause := Except.error.inj h
    rcases quotedContent_error quote rest .plain held hq with rfl | rfl <;> simp
  | ok content =>
    rw [hq] at h
    cases h

theorem ofColon_error {rest : Text} {cause : ReadCause} {distance : Nat}
    (h : ofColon rest = .error (cause, distance)) : cause.StandsIn distance (':' :: rest) := by
  unfold ofColon at h
  split at h
  next =>
    obtain ⟨rfl, rfl⟩ := Prod.mk.inj (Except.error.inj h)
    exact ReadCause.standsIn_front (by simp) _
  next c after =>
    split at h
    next => cases h
    next =>
      split at h
      next =>
        split at h
        next => cases h
        next held hq =>
          obtain ⟨rfl, rfl⟩ := Prod.mk.inj (Except.error.inj h)
          -- the quote stands behind the colon
          exact ⟨quoted_error hq, Text.isBoundary_iff.mpr ⟨[':'], c :: after, rfl, rfl⟩⟩
      next =>
        split at h
        next => cases h
        next =>
          obtain ⟨rfl, rfl⟩ := Prod.mk.inj (Except.error.inj h)
          exact ReadCause.standsIn_front (by simp) _

/-- a text that begins with no token is refused at its front, or right behind it -/
theorem read_error {c : Char} {rest : Text} {cause : ReadCause} {distance : Nat}
    (h : read c rest = .error (cause, distance)) : cause.StandsIn distance (c :: rest) := by
  unfold read at h
  split at h
  next => cases h
  next =>
    split at h
    next => cases h
    next =>
      split at h
      next =>
        unfold ofVariable at h
        dsimp only at h
        split at h
        next =>
          obtain ⟨rfl, rfl⟩ := Prod.mk.inj (Except.error.inj h)
          exact ReadCause.standsIn_front (by simp) _
        next => cases h
      next =>
        split at h
        next =>
          unfold ofQuoted at h
          split at h
          next => cases h
          next held hq =>
            obtain ⟨rfl, rfl⟩ := Prod.mk.inj (Except.error.inj h)
            exact ReadCause.standsIn_front (quoted_error hq) _
        next =>
          split at h
          next hc =>
            subst hc
            exact ofColon_error h
          next =>
            split at h
            next =>
              obtain ⟨rfl, rfl⟩ := Prod.mk.inj (Except.error.inj h)
              exact ReadCause.standsIn_front (by simp) _
            next =>
              unfold ofOperator at h
              split at h
              next => cases h
              next =>
                obtain ⟨rfl, rfl⟩ := Prod.mk.inj (Except.error.inj h)
                exact ReadCause.standsIn_front (by simp) _

end Lexeme

namespace Piece

theorem read_error {c : Char} {rest : Text} {cause : ReadCause} {distance : Nat}
    (h : read c rest = .error (cause, distance)) : cause.StandsIn distance (c :: rest) := by
  unfold read at h
  split at h
  next => cases h
  next =>
    split at h
    next => cases h
    next =>
      split at h
      next => cases h
      next =>
        split at h
        next => cases h
        next =>
          cases hl : Lexeme.read c rest with
          | ok l =>
            rw [hl] at h
            cases h
          | error e =>
            rw [hl] at h
            obtain rfl : e = (cause, distance) := Except.error.inj h
            exact Lexeme.read_error hl

/-- the cutting fails between two characters of the text that is left -/
theorem readAll_error (offset : Nat) (t : Text) (e : ReadError) (h : readAll offset t = .error e) :
    ∃ distance, e.offset = offset + distance ∧ e.cause.StandsIn distance t := by
  fun_induction readAll offset t generalizing e with
  | case1 offset => cases h
  | case2 offset c rest cause distance hr =>
    obtain rfl : (⟨cause, offset + distance⟩ : ReadError) = e := Except.error.inj h
    exact ⟨distance, rfl, read_error hr⟩
  | case3 offset c rest piece hr ih =>
    cases ht : readAll (offset + piece.text.size) (rest.drop (piece.text.length - 1)) with
    | ok tail =>
      rw [ht] at h
      cases h
    | error held =>
      rw [ht] at h
      obtain rfl : held = e := Except.error.inj h
      obtain ⟨distance, hoffset, hcause, hbehind⟩ := ih held ht
      obtain ⟨behind, hb, hne, -⟩ := read_proper hr
      rw [drop_front hb hne] at hbehind
      obtain ⟨front, rest', rfl, rfl⟩ := Text.isBoundary_iff.mp hbehind
      refine ⟨piece.text.size + front.size, by rw [hoffset, Nat.add_assoc], hcause, ?_⟩
      exact Text.isBoundary_iff.mpr ⟨piece.text ++ front, rest', by rw [hb, List.append_assoc],
        Text.size_append _ _⟩

end Piece

/-- a text is refused between two of its characters, or at one of its ends -/
theorem TokenStream.read_error {t : Text} {e : ReadError} (h : TokenStream.read t = .error e) :
    e.cause.StandsIn e.offset t := by
  unfold TokenStream.read at h
  cases hpieces : Piece.readAll 0 t with
  | ok pieces =>
    rw [hpieces] at h
    cases h
  | error held =>
    rw [hpieces] at h
    obtain rfl : held = e := Except.error.inj h
    obtain ⟨distance, hoffset, hstands⟩ := Piece.readAll_error 0 t held hpieces
    rw [hoffset, Nat.zero_add]
    exact hstands

end Collate
