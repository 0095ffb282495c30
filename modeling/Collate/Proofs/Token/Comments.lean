import Collate.Proofs.Text.Span
import Collate.Proofs.Token.Lossless

/-!
# Comments between tokens

A comment lies between two tokens and runs to the end of its line, so no token begins or ends
inside it, and two neighbours on one line have none between them.

* `Text.tokens`, `Text.comments`     the tokens and comments of a text;
* `Text.Clear`                       an offset that is inside no comment;
* `Text.Clear.precedes_or_inside`    what lies between clear offsets holds a comment whole or not
                                     at all;
* `Text.tokens_quiet`                no comment stands between neighbours on one line.
-/

namespace Collate

namespace Text

/-- the tokens of a text, if it has any -/
def tokens (t : Text) : List Token :=
  match TokenStream.read t with
  | .ok stream => stream.tokens
  | .error _ => []

/-- the comments of a text; a text that has no tokens has none -/
def comments (t : Text) : List Span :=
  match TokenStream.read t with
  | .ok stream => stream.comments
  | .error _ => []

theorem tokens_of_read {t : Text} {stream : TokenStream} (h : TokenStream.read t = .ok stream) :
    t.tokens = stream.tokens := by
  rw [tokens, h]

theorem comments_of_read {t : Text} {stream : TokenStream} (h : TokenStream.read t = .ok stream) :
    t.comments = stream.comments := by
  rw [comments, h]

def Clear (t : Text) (offset : Nat) : Prop :=
  ∀ comment ∈ t.comments, offset ≤ comment.start ∨ comment.stop ≤ offset

theorem Clear.precedes_or_inside {t : Text} {span comment : Span} (hstart : t.Clear span.start)
    (hstop : t.Clear span.stop) (hcomment : comment ∈ t.comments) :
    comment.Precedes span ∨ span.Precedes comment ∨
      (span.start ≤ comment.start ∧ comment.stop ≤ span.stop) := by
  rcases hstart comment hcomment with h₁ | h₁
  · rcases hstop comment hcomment with h₂ | h₂
    · exact .inr (.inl h₂)
    · exact .inr (.inr ⟨h₁, h₂⟩)
  · exact .inl h₁

theorem comments_slice {t : Text} {comment : Span} (h : comment ∈ t.comments) :
    ∃ body, t.slice? comment = some ('#' :: body) := by
  unfold comments at h
  split at h
  next stream hstream =>
    obtain ⟨pieces, rfl, hcut, rfl⟩ := TokenStream.exists_pieces_of_read hstream
    obtain ⟨body, hslice, -⟩ := TokenStream.place_comments_extent hcut true true comment h
    exact ⟨body, hslice⟩
  next => exact nomatch h

theorem comments_nonempty {t : Text} {comment : Span} (h : comment ∈ t.comments) :
    comment.start < comment.stop := by
  obtain ⟨body, hslice⟩ := comments_slice h
  obtain ⟨front, rest, -, -, hstop⟩ := slice?_eq_some.mp hslice
  have hpos := size_pos_of_ne_nil (List.cons_ne_nil '#' body)
  omega

end Text

namespace TokenStream
variable {pieces : List Piece}

theorem place_head (hcut : Piece.Cut pieces) (space newline : Bool) :
    ∀ token ∈ (place 0 space newline pieces).tokens, token.text.head? ≠ some '\n' := by
  intro token htoken
  obtain ⟨before, behind, hp, -, -⟩ := Piece.exists_of_mem_placed (mem_placed_of_token htoken)
  exact (Piece.proper_of_mem _ _ hcut hp).2.2.2

theorem place_charAt_start (hcut : Piece.Cut pieces) (space newline : Bool) {token : Token}
    (htoken : token ∈ (place 0 space newline pieces).tokens) :
    (Piece.concat pieces).charAt? token.span.start ≠ some '\n' := by
  intro hchar
  obtain ⟨hslice, -⟩ := place_spelled hcut space newline token (List.mem_append_left _ htoken)
  obtain ⟨front, rest, ht, hfront, hstop⟩ := Text.slice?_eq_some.mp hslice
  obtain ⟨hne, -⟩ := place_tokens_nonempty hcut space newline token htoken
  obtain ⟨front', rest', ht', hfront'⟩ := Text.charAt?_eq_some.mp hchar
  rw [ht, List.append_assoc] at ht'
  obtain ⟨m, hm, htail⟩ := Text.exists_between ht' (by omega)
  -- both parts in front have the same size, so the line feed is the first character of the token
  have hnil : m = [] := by
    apply Text.size_eq_zero
    rw [hm, Text.size_append] at hfront'
    omega
  rw [hnil, List.nil_append] at htail
  cases htext : token.text with
  | nil =>
    rw [htext, Text.size_nil] at hstop
    omega
  | cons c cs =>
    rw [htext, List.cons_append] at htail
    refine place_head hcut space newline token htoken ?_
    rw [htext, (List.cons.inj htail).1]
    rfl

/-- A comment between two neighbours ends in front of a line feed, which then is between them too.
The line feed is not joined to the next line, as all in front of it is comment. -/
theorem place_quiet (hcut : Piece.Cut pieces) (space newline : Bool) (front : List Token)
    (a b : Token) (rest : List Token)
    (h : (place 0 space newline pieces).tokens = front ++ a :: b :: rest)
    (hline : b.newlineBefore = false) :
    ∀ comment ∈ (place 0 space newline pieces).comments,
      comment.stop ≤ a.span.start ∨ b.span.start ≤ comment.start := by
  intro comment hcomment
  have ha : a ∈ (place 0 space newline pieces).tokens := by simp [h]
  have hb : b ∈ (place 0 space newline pieces).tokens := by simp [h]
  obtain ⟨hne, -⟩ := place_tokens_nonempty hcut space newline b hb
  rcases place_disjoint 0 space newline a (List.mem_append_left _ ha) comment hcomment with h₁ | h₁
  · rcases place_disjoint 0 space newline b (List.mem_append_left _ hb) comment hcomment with h₂ | h₂
    · exact .inr (by omega)
    · obtain ⟨hslice, -⟩ := place_spelled hcut space newline b (List.mem_append_left _ hb)
      have hsize := Text.isBoundary_le (Text.isBoundary_of_slice? hslice).2
      obtain ⟨body, hbody, -, hend⟩ := place_comments_extent hcut space newline comment hcomment
      obtain ⟨_, _, -, -, hstop⟩ := Text.slice?_eq_some.mp hbody
      have hpos := Text.size_pos_of_ne_nil (List.cons_ne_nil '#' body)
      have hchar := hend.resolve_left (by omega)
      have hlt : comment.stop < b.span.start := by
        refine Nat.lt_of_le_of_ne h₂ ?_
        intro heq
        rw [heq] at hchar
        exact place_charAt_start hcut space newline hb hchar
      have hall : (place 0 space newline pieces).all
          = front ++ a :: b :: (rest ++ [(place 0 space newline pieces).eof]) := by
        rw [all, h]
        simp
      have hflag := (place_newlineBefore hcut space newline front a b _ hall).mpr
        ⟨comment.stop, by omega, hlt, hchar, fun hjoined => hjoined.2.2 comment hcomment (by omega)⟩
      exact absurd (hline.symm.trans hflag) Bool.false_ne_true
  · exact .inl h₁

end TokenStream

theorem Text.tokens_quiet {t : Text} {front rest : List Token} {a b : Token}
    (h : t.tokens = front ++ a :: b :: rest) (hline : b.newlineBefore = false) :
    ∀ comment ∈ t.comments, comment.stop ≤ a.span.start ∨ b.span.start ≤ comment.start := by
  cases hread : TokenStream.read t with
  | error e =>
    rw [tokens, hread] at h
    exact absurd h (by simp)
  | ok stream =>
    rw [tokens_of_read hread] at h
    rw [comments_of_read hread]
    obtain ⟨pieces, rfl, hcut, rfl⟩ := TokenStream.exists_pieces_of_read hread
    exact TokenStream.place_quiet hcut true true front a b rest h hline

end Collate
