import Collate.Proofs.Token.Local
import Collate.Proofs.Text.Positions

/-!
# Texts of any length

Two families of texts that grow as long as wanted: blanks in front of a text, and copies of a statement.
They reach the limits of numbers that are kept in 32 bits.

* `TokenStream.read_blanks`    the tokens of a text move behind the blanks;
* `Text.copies`                so many statements `1;`;
* `TokenStream.read_copies`    their tokens.
-/

namespace Collate

/-! ## blanks in front of a text -/

theorem Piece.readAll_blanks (n : Nat) (t : Text) : ∀ offset, readAll offset (List.replicate n ' ' ++ t)
    = (readAll (offset + n) t).map (List.replicate n ⟨.blank, [' ']⟩ ++ ·) := by
  induction n with
  | zero =>
    intro offset
    show readAll offset t = (readAll offset t).map id
    cases readAll offset t <;> rfl
  | succ n ih =>
    intro offset
    have hread : read ' ' (List.replicate n ' ' ++ t) = .ok ⟨.blank, [' ']⟩ := rfl
    have hsize : Text.size [' '] = 1 := rfl
    rw [List.replicate_succ, List.cons_append, readAll, hread]
    dsimp only
    rw [hsize, List.length_singleton, Nat.sub_self, List.drop_zero, ih, Nat.add_assoc, Nat.add_comm 1 n]
    cases readAll (offset + (n + 1)) t <;> rfl

theorem TokenStream.place_blanks (n : Nat) (newline : Bool) (pieces : List Piece) : ∀ offset,
    place offset true newline (List.replicate n ⟨.blank, [' ']⟩ ++ pieces)
      = place (offset + n) true newline pieces := by
  induction n with
  | zero => exact fun offset => rfl
  | succ n ih =>
    intro offset
    have hsize : Text.size [' '] = 1 := rfl
    rw [List.replicate_succ, List.cons_append, place]
    dsimp only
    rw [hsize, ih, Nat.add_assoc, Nat.add_comm 1 n]

theorem TokenStream.read_blanks (n : Nat) (t : Text) :
    read (List.replicate n ' ' ++ t) = (Piece.readAll n t).map (place n true true) := by
  rw [read, Piece.readAll_blanks, Nat.zero_add]
  cases Piece.readAll n t with
  | error e => rfl
  | ok pieces =>
    show Except.ok (place 0 true true (List.replicate n ⟨.blank, [' ']⟩ ++ pieces)) = _
    rw [place_blanks, Nat.zero_add]
    rfl

/-! ## copies of a statement -/

def Text.copies : Nat → Text
  | 0 => []
  | n + 1 => '1' :: ';' :: copies n

def Piece.copies : Nat → List Piece
  | 0 => []
  | n + 1 => ⟨.token (.number ['1']), ['1']⟩ :: ⟨.token .semicolon, [';']⟩ :: copies n

theorem Piece.concat_copies (n : Nat) : concat (copies n) = Text.copies n := by
  induction n with
  | zero => rfl
  | succ n ih =>
    rw [copies, concat_cons, concat_cons, ih]
    rfl

theorem Piece.stands_copies (n : Nat) : Stands (copies n) := by
  induction n with
  | zero => trivial
  | succ n ih => exact ⟨⟨'1', [], rfl, rfl⟩, ⟨';', [], rfl, rfl⟩, ih⟩

inductive Token.Copies : Nat → List Token → Prop
  | nil : Copies 0 []
  | cons {n : Nat} {number semicolon : Token} {rest : List Token} (hnumber : number.kind = .number ['1'])
      (hsemicolon : semicolon.kind = .semicolon) (h : Copies n rest) :
      Copies (n + 1) (number :: semicolon :: rest)

theorem Token.Copies.le_length {n : Nat} {tokens : List Token} (h : Copies n tokens) : n ≤ tokens.length := by
  induction h with
  | nil => exact Nat.le_refl _
  | cons _ _ _ ih =>
    rw [List.length_cons, List.length_cons]
    omega

theorem TokenStream.copies_place (n : Nat) : ∀ offset space newline,
    Token.Copies n (place offset space newline (Piece.copies n)).tokens := by
  induction n with
  | zero => exact fun _ _ _ => .nil
  | succ n ih => exact fun offset space newline => .cons rfl rfl (ih _ _ _)

theorem TokenStream.read_copies (n : Nat) :
    ∃ stream, read (Text.copies n) = .ok stream ∧ Token.Copies n stream.tokens := by
  refine ⟨place 0 true true (Piece.copies n), ?_, copies_place n 0 true true⟩
  rw [read, ← Piece.concat_copies, Piece.readAll_of_stands 0 (Piece.stands_copies n)]
  rfl

end Collate
