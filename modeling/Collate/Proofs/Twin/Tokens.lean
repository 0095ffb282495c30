import Collate.Proofs.Document.Placed
import Collate.Proofs.Token.Local
import Collate.Proofs.Twin.Statement

/-!
# The tokens of a text without a value

When the value of a label is taken out of a text, together with the white space in front of it, all
other tokens are read as before: in front of the label nothing changes within two characters of a
token, and behind it the pieces are the same.

* `TokenStream.place_append_token`   the tokens in front of a token, the token, and those behind it;
* `Piece.stands_replace`             pieces behind a piece of two characters may be replaced;
* `TokenStream.read_without`         the tokens of the text without the value are beside the old ones;
* `Tree.read_beside`                 then its tree has the outline of the old one without the value.
-/

namespace Collate

theorem Token.Like.refl (a : Token) : a.Like a :=
  ⟨rfl, rfl, rfl, rfl⟩

/-! ## taking a stream apart -/

namespace TokenStream
variable {offset : Nat} {space newline : Bool}

/-- The tokens in front of a token, that token, and those behind it.  The mark of the end of the
pieces in front knows the offset and the flags. -/
theorem place_append_token (offset : Nat) (space newline : Bool) (before : List Piece)
    (kind : Token.Kind) (text : Text) (behind : List Piece) :
    (place offset space newline (before ++ ⟨.token kind, text⟩ :: behind)).tokens
        = (place offset space newline before).tokens ++
          ⟨kind, text, ⟨offset + (Piece.concat before).size, offset + (Piece.concat before).size + text.size⟩,
            (place offset space newline before).eof.spaceBefore,
            (place offset space newline before).eof.newlineBefore⟩ ::
          (place (offset + (Piece.concat before).size + text.size) false false behind).tokens ∧
      (place offset space newline (before ++ ⟨.token kind, text⟩ :: behind)).eof
        = (place (offset + (Piece.concat before).size + text.size) false false behind).eof := by
  induction before generalizing offset space newline with
  | nil => exact ⟨rfl, rfl⟩
  | cons piece before ih =>
    obtain ⟨sort, held⟩ := piece
    rw [Piece.concat_cons, Text.size_append, ← Nat.add_assoc]
    cases sort with
    | blank => exact ih _ _ _
    | lineFeed => exact ih _ _ _
    | comment => exact ih _ _ _
    | token held => exact ⟨congrArg (_ :: ·) (ih _ _ _).1, (ih _ _ _).2⟩

/-- a token of a stream is one of the pieces, with the tokens in front of it in front of it -/
theorem place_split {pieces : List Piece} {front : List Token} {token : Token} {rest : List Token}
    (h : (place offset space newline pieces).tokens = front ++ token :: rest) :
    ∃ before behind, pieces = before ++ ⟨.token token.kind, token.text⟩ :: behind ∧
      (place offset space newline before).tokens = front := by
  induction pieces generalizing offset space newline front with
  | nil => exact absurd h (by simp [place])
  | cons piece pieces ih =>
    obtain ⟨sort, text⟩ := piece
    cases sort with
    | blank =>
      obtain ⟨before, behind, rfl, hfront⟩ := ih h
      exact ⟨⟨.blank, text⟩ :: before, behind, rfl, hfront⟩
    | lineFeed =>
      obtain ⟨before, behind, rfl, hfront⟩ := ih h
      exact ⟨⟨.lineFeed, text⟩ :: before, behind, rfl, hfront⟩
    | comment =>
      obtain ⟨before, behind, rfl, hfront⟩ := ih h
      exact ⟨⟨.comment, text⟩ :: before, behind, rfl, hfront⟩
    | token kind =>
      cases front with
      | nil =>
        obtain ⟨rfl, -⟩ := List.cons.inj h
        exact ⟨[], pieces, rfl, rfl⟩
      | cons first front =>
        obtain ⟨rfl, htail⟩ := List.cons.inj h
        obtain ⟨before, behind, rfl, hfront⟩ := ih htail
        exact ⟨⟨.token kind, text⟩ :: before, behind, rfl, congrArg (_ :: ·) hfront⟩

/-- A token is one of the pieces.  With other pieces behind it the tokens up to it are the same. -/
theorem place_split_token {pieces : List Piece} {front : List Token} {token : Token} {rest : List Token}
    (h : (place offset space newline pieces).tokens = front ++ token :: rest) :
    ∃ before behind, pieces = before ++ ⟨.token token.kind, token.text⟩ :: behind ∧
      (place offset space newline before).tokens = front ∧
      token.span = ⟨offset + (Piece.concat before).size,
        offset + (Piece.concat before).size + token.text.size⟩ ∧
      rest = (place token.span.stop false false behind).tokens ∧
      (place offset space newline pieces).eof = (place token.span.stop false false behind).eof ∧
      ∀ other, (place offset space newline (before ++ ⟨.token token.kind, token.text⟩ :: other)).tokens
          = front ++ token :: (place token.span.stop false false other).tokens ∧
        (place offset space newline (before ++ ⟨.token token.kind, token.text⟩ :: other)).eof
          = (place token.span.stop false false other).eof := by
  obtain ⟨before, behind, rfl, rfl⟩ := place_split h
  have hplace := place_append_token offset space newline before token.kind token.text
  obtain ⟨htokens, heof⟩ := hplace behind
  obtain ⟨htoken, hrest⟩ := List.cons.inj (List.append_cancel_left (htokens.symm.trans h))
  have hspan := congrArg Token.span htoken
  dsimp only at hspan
  have hstop := congrArg Span.stop hspan
  dsimp only at hstop
  rw [hstop] at hrest heof
  refine ⟨before, behind, rfl, rfl, hspan.symm, hrest.symm, heof, fun other => ?_⟩
  have hother := hplace other
  rw [htoken, hstop] at hother
  exact hother

theorem place_beside {omitted : Nat → Bool} {eof : Token} (offset offset' : Nat) (space newline : Bool)
    (pieces : List Piece)
    (hkept : ∀ token ∈ (place offset space newline pieces).tokens, omitted token.span.start = false) :
    TokensBeside omitted eof (place offset space newline pieces).tokens
        (place offset' space newline pieces).tokens ∧
      (place offset space newline pieces).eof.Like (place offset' space newline pieces).eof := by
  induction pieces generalizing offset offset' space newline with
  | nil => exact ⟨.nil, ⟨rfl, rfl, rfl, rfl⟩⟩
  | cons piece pieces ih =>
    obtain ⟨sort, text⟩ := piece
    cases sort with
    | blank => exact ih _ _ _ _ hkept
    | lineFeed => exact ih _ _ _ _ hkept
    | comment => exact ih _ _ _ _ hkept
    | token kind =>
      obtain ⟨htokens, heof⟩ := ih (offset + text.size) (offset' + text.size) false false
        (fun token hmem => hkept token (List.mem_cons_of_mem _ hmem))
      exact ⟨.cons ⟨rfl, rfl, rfl, rfl⟩ (hkept _ List.mem_cons_self) htokens, heof⟩

end TokenStream

theorem TokensBeside.append {omitted : Nat → Bool} {eof : Token} {as bs front : List Token}
    (hkept : ∀ token ∈ front, omitted token.span.start = false) (h : TokensBeside omitted eof as bs) :
    TokensBeside omitted eof (front ++ as) (front ++ bs) := by
  induction front with
  | nil => exact h
  | cons token front ih =>
    exact .cons (.refl token) (hkept token List.mem_cons_self)
      (ih (fun token hmem => hkept token (List.mem_cons_of_mem _ hmem)))

/-! ## replacing pieces -/

namespace Piece

/-- Behind a piece of two characters or more other pieces may stand.  The pieces in front of it do not
see as far as them. -/
theorem stands_replace {before behind behind' : List Piece} {piece : Piece}
    (h : Stands (before ++ piece :: behind)) (hlen : 2 ≤ piece.text.length)
    (hpiece : piece.Heads (concat behind')) (hbehind : Stands behind') :
    Stands (before ++ piece :: behind') := by
  induction before with
  | nil => exact ⟨hpiece, hbehind⟩
  | cons first before ih =>
    have hcat (pieces : List Piece) : concat (before ++ piece :: pieces)
        = (concat before ++ piece.text) ++ concat pieces := by
      rw [concat_append, concat_cons, List.append_assoc]
    have htwo : 2 ≤ (concat before ++ piece.text).length := by
      rw [List.length_append]
      omega
    generalize concat before ++ piece.text = shared at hcat htwo
    have htake (n : Nat) (hn : n ≤ 2) : (concat (before ++ piece :: behind)).take n
        = (concat (before ++ piece :: behind')).take n := by
      rw [hcat, hcat, List.take_append_of_le_length (by omega), List.take_append_of_le_length (by omega)]
    refine ⟨h.1.local (Text.outlook_of_take (htake 2 (Nat.le_refl _))) (fun _ => ?_), ih h.2⟩
    have hhead := congrArg List.head? (htake 1 (by omega))
    rw [List.head?_take, List.head?_take, if_neg (by simp), if_neg (by simp)] at hhead
    exact hhead.symm

end Piece

theorem Parse.endsLabel_head? {kind : Token.Kind} {text : Text} (h : endsLabel kind = true)
    (hspelled : kind.Spelled text) : text.head? ≠ some ':' := by
  cases kind with
  | keyword word =>
    obtain rfl : text = word.text := hspelled
    cases word <;> decide
  | comma => rw [show text = _ from hspelled]; decide
  | semicolon => rw [show text = _ from hspelled]; decide
  | rightParen => rw [show text = _ from hspelled]; decide
  | rightBrace => rw [show text = _ from hspelled]; decide
  | rightBracket => rw [show text = _ from hspelled]; decide
  | pipe => rw [show text = _ from hspelled]; decide
  | eof => rw [show text = _ from hspelled]; decide
  | _ => exact nomatch h

/-- pieces whose first token ends a label or stands on a new line do not begin with a colon -/
theorem Piece.concat_head? {pieces : List Piece} {offset : Nat} (h : Stands pieces)
    (hnext : (((TokenStream.place offset false false pieces).tokens.headD
        (TokenStream.place offset false false pieces).eof).newlineBefore ||
      Parse.endsLabel ((TokenStream.place offset false false pieces).tokens.headD
        (TokenStream.place offset false false pieces).eof).kind) = true) :
    (concat pieces).head? ≠ some ':' := by
  cases pieces with
  | nil => simp [concat_nil]
  | cons piece pieces =>
    have hproper := h.1.proper
    have hhead : (concat (piece :: pieces)).head? = piece.text.head? := by
      obtain ⟨c, x, hx, -⟩ := h.1
      rw [concat_cons, hx]
      rfl
    rw [hhead]
    obtain ⟨sort, text⟩ := piece
    cases sort with
    | blank => rcases hproper with rfl | rfl | rfl | rfl <;> decide
    | lineFeed =>
      obtain rfl : text = ['\n'] := hproper
      decide
    | comment =>
      obtain ⟨⟨body, rfl, -⟩, -⟩ := hproper
      simp
    | token kind => exact Parse.endsLabel_head? hnext hproper.1

/-! ## without the value -/

/-- A label and the name behind it in a text.  If a token that ends a label stands behind the name, the
text without the name is read again, and its tokens are the old ones without that name. -/
theorem TokenStream.read_without {t : Text} {stream : TokenStream} (hread : read t = .ok stream)
    {front rest : List Token} {label value : Token} {name : Text}
    (htokens : stream.tokens = front ++ label :: value :: rest) (hlabel : label.kind = .label name)
    (hvalue : value.kind = .ident name) (hline : value.newlineBefore = false) :
    ∃ head gap tail, t = head ++ (name ++ [':'] ++ gap ++ name) ++ tail ∧
      head.size = label.span.start ∧ (head ++ (name ++ [':'] ++ gap ++ name)).size = value.span.stop ∧
      (((rest.headD stream.eof).newlineBefore || Parse.endsLabel (rest.headD stream.eof).kind) = true →
        ∃ stream', read (head ++ (name ++ [':']) ++ tail) = .ok stream' ∧
          Cursor.Beside (· == label.span.start) ⟨stream.tokens, stream.eof, []⟩
            ⟨stream'.tokens, stream'.eof, []⟩) := by
  cases hpieces : Piece.readAll 0 t with
  | error e =>
    rw [read, hpieces] at hread
    cases hread
  | ok pieces =>
    obtain ⟨hfit, hordered⟩ := t.tokens_fit
    rw [Text.tokens_of_read hread, htokens] at hfit hordered
    have heof := (place_eof 0 true true pieces).1
    rw [read, hpieces] at hread
    obtain rfl : place 0 true true pieces = stream := Except.ok.inj hread
    obtain ⟨hcat, hstands⟩ := Piece.readAll_stands 0 t pieces hpieces
    -- the pieces of the label and the value
    obtain ⟨before, others, rfl, -, hspan, hothers, heof', hplace⟩ := place_split_token htokens
    obtain ⟨gap, behind, rfl, -, hspan', rfl, heof'', -⟩ :=
      @place_split_token _ _ _ others [] value rest hothers.symm
    rw [heof', heof''] at heof ⊢
    have hlabelSpelled := (hfit label (by simp)).spelled
    have hvalueSpelled := (hfit value (by simp)).spelled
    rw [hlabel] at hlabelSpelled
    rw [hvalue] at hvalueSpelled
    obtain ⟨hlabelText, hne⟩ := hlabelSpelled
    have hvalueText : value.text = name := hvalueSpelled
    refine ⟨Piece.concat before, Piece.concat gap, Piece.concat behind, ?_, ?_, ?_, fun hnext => ?_⟩
    · rw [← hcat, Piece.concat_append, Piece.concat_cons, Piece.concat_append, Piece.concat_cons,
        hlabelText, hvalueText]
      simp
    · rw [hspan]
      exact (Nat.zero_add _).symm
    · rw [hspan', hspan, hlabelText, hvalueText]
      simp only [Text.size_append, Nat.zero_add, Nat.add_assoc]
    -- the pieces without the gap and the value
    have hlabelStands := Piece.stands_append_right hstands
    have hbehind : Piece.Stands behind := (Piece.stands_append_right hlabelStands.2).2
    have hhead := hlabelStands.1
    rw [hlabel] at hhead
    have hmended : Piece.Stands (before ++ ⟨.token label.kind, label.text⟩ :: behind) := by
      refine Piece.stands_replace hstands ?_ ?_ hbehind
      · show 2 ≤ label.text.length
        rw [hlabelText, List.length_append]
        exact Nat.succ_le_succ (List.length_pos_iff.mpr hne)
      · rw [hlabel]
        exact hhead.label_local (Piece.concat_head? hbehind hnext)
    obtain ⟨hplaceTokens, hplaceEof⟩ := hplace behind
    refine ⟨place 0 true true (before ++ ⟨.token label.kind, label.text⟩ :: behind), ?_, ?_⟩
    · have hreadAll := Piece.readAll_of_stands 0 hmended
      rw [Piece.concat_append, Piece.concat_cons, hlabelText, ← List.append_assoc] at hreadAll
      rw [read, hreadAll, hlabelText]
      rfl
    · obtain ⟨-, hlabelOrder, hfront⟩ := List.pairwise_append.mp hordered
      obtain ⟨hlabelOrder, -⟩ := List.pairwise_cons.mp hlabelOrder
      have hlabelNonempty := (hfit label (by simp)).nonempty
      have hkept : ∀ token ∈ (place value.span.stop false false behind).tokens,
          (token.span.start == label.span.start) = false := by
        intro token hmem
        have : label.span.stop ≤ token.span.start := hlabelOrder token (List.mem_cons_of_mem _ hmem)
        exact beq_false_of_ne (by omega)
      obtain ⟨hrest, heofLike⟩ := @place_beside (· == label.span.start)
        (place value.span.stop false false behind).eof
        value.span.stop label.span.stop false false behind hkept
      rw [hplaceTokens, hplaceEof, htokens]
      refine ⟨TokensBeside.append ?_ (.skip name (.refl label) (beq_self_eq_true _) hlabel hvalue hline hnext
        hrest), heofLike, heof, fun _ => rfl⟩
      intro token hmem
      have hnonempty := (hfit token (by simp [hmem])).nonempty
      have : token.span.stop ≤ label.span.start := hfront token hmem label List.mem_cons_self
      exact beq_false_of_ne (by omega)

/-! ## whole texts -/

/-- The tokens of two texts are beside each other.  If the first text is read, then to a spoiled tree
or the second one is read too, to a tree of the same outline. -/
theorem Tree.read_beside {omitted : Nat → Bool} {t t' : Text} {stream stream' : TokenStream}
    {tree : Tree} {comments : List Span} (hstream : TokenStream.read t = .ok stream)
    (hstream' : TokenStream.read t' = .ok stream')
    (hb : Cursor.Beside omitted ⟨stream.tokens, stream.eof, []⟩ ⟨stream'.tokens, stream'.eof, []⟩)
    (h : Tree.read t = .ok (tree, comments)) :
    tree.Spoiled omitted ∨
      ∃ tree' comments', Tree.read t' = .ok (tree', comments') ∧ tree'.bare = tree.outline omitted := by
  obtain ⟨held, body, s₁, hheld, hprogram, rfl, -⟩ := Tree.read_eq_ok.mp h
  obtain rfl : stream = held := Except.ok.inj (hstream.symm.trans hheld)
  rcases Parse.program_twin hb body s₁ hprogram with hspoiled | ⟨body', s₁', hprogram', -, hbody, -⟩
  · exact .inl (hspoiled.parent (List.Subset.refl _))
  · refine .inr ⟨⟨.program body', ⟨0, t'.size⟩⟩, stream'.comments,
      Tree.read_eq_ok.mpr ⟨stream', body', s₁', hstream', hprogram', rfl, rfl⟩, ?_⟩
    simp [hbody]

end Collate
