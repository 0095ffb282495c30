import Mathlib.Data.List.Forall2
import Collate.Proofs.Node.Shape
import Collate.Proofs.Token.Spacing
import Collate.Proofs.Twin.Tokens

/-!
# White space and documents

The reader takes nothing from a token but its kind, its text and its two flags.  White space between two
tokens may therefore be exchanged, as long as there still is some and a line ends in it or not as before:
the text is accepted or refused as it was, and its nodes are numbered and linked as they were.

* `TokenStream.Like`             two streams that differ in their places only;
* `TokenStream.exists_respaced`  the tokens of a text with other white space between two of them;
* `Tree.read_like`               texts with such streams are read to trees of one outline;
* `Document.read_respaced`       what the document of the text becomes.
-/

namespace Collate

theorem Token.Like.symm {a b : Token} (h : a.Like b) : b.Like a :=
  ⟨h.kind.symm, h.text.symm, h.spaceBefore.symm, h.newlineBefore.symm⟩

/-- the tokens of two streams differ in their places only -/
structure TokenStream.Like (stream stream' : TokenStream) : Prop where
  tokens : List.Forall₂ Token.Like stream.tokens stream'.tokens
  eof : stream.eof.Like stream'.eof

namespace TokenStream
open Piece

theorem Like.symm {stream stream' : TokenStream} (h : stream.Like stream') : stream'.Like stream :=
  ⟨h.tokens.flip.imp (fun _ _ hlike => hlike.symm), h.eof.symm⟩

theorem Like.of_all {a b c d : TokenStream} (h : Like a b) (hc : c.all = a.all) (hd : d.all = b.all) :
    Like c d := by
  obtain ⟨htokens, heof⟩ := List.append_inj' hc rfl
  obtain ⟨htokens', heof'⟩ := List.append_inj' hd rfl
  constructor
  · rw [htokens, htokens']
    exact h.tokens
  · rw [List.singleton_inj.mp heof, List.singleton_inj.mp heof']
    exact h.eof

/-! ## the tokens of the text -/

theorem place_like (offset offset' : Nat) (space newline : Bool) (pieces : List Piece) :
    Like (place offset space newline pieces) (place offset' space newline pieces) := by
  induction pieces generalizing offset offset' space newline with
  | nil => exact ⟨.nil, rfl, rfl, rfl, rfl⟩
  | cons piece pieces ih =>
    obtain ⟨sort, text⟩ := piece
    cases sort with
    | blank => exact ih _ _ _ _
    | lineFeed => exact ih _ _ _ _
    | comment => exact ⟨(ih _ _ _ _).tokens, (ih _ _ _ _).eof⟩
    | token kind => exact ⟨.cons ⟨rfl, rfl, rfl, rfl⟩ (ih _ _ _ _).tokens, (ih _ _ _ _).eof⟩

theorem place_respaced {lead lead' : List Piece} (behind : List Piece) (hblank : Blank lead)
    (hblank' : Blank lead') (hne : lead ≠ []) (hne' : lead' ≠ []) (hbreaks : breaks lead' = breaks lead)
    (offset offset' : Nat) (space newline : Bool) (before : List Piece) :
    Like (place offset space newline (before ++ (lead ++ behind)))
      (place offset' space newline (before ++ (lead' ++ behind))) := by
  induction before generalizing offset offset' space newline with
  | nil =>
    refine (place_like _ (offset' + (concat lead').size) _ _ behind).of_all
      (place_blank offset space newline behind hblank) ?_
    rw [List.nil_append, place_blank offset' space newline behind hblank', hbreaks,
      List.isEmpty_eq_false_iff.mpr hne, List.isEmpty_eq_false_iff.mpr hne']
  | cons piece before ih =>
    obtain ⟨sort, text⟩ := piece
    cases sort with
    | blank => exact ih _ _ _ _
    | lineFeed => exact ih _ _ _ _
    | comment => exact ⟨(ih _ _ _ _).tokens, (ih _ _ _ _).eof⟩
    | token kind => exact ⟨.cons ⟨rfl, rfl, rfl, rfl⟩ (ih _ _ _ _).tokens, (ih _ _ _ _).eof⟩

theorem exists_behind {stream : TokenStream} {front rest : List Token} {a b : Token}
    (h : stream.all = front ++ a :: b :: rest) :
    ∃ others, stream.tokens = front ++ a :: others ∧ others ++ [stream.eof] = b :: rest := by
  have htokens := congrArg List.dropLast h
  rw [all, List.dropLast_concat, List.dropLast_append_of_ne_nil (List.cons_ne_nil _ _),
    List.dropLast_cons_cons] at htokens
  refine ⟨_, htokens, ?_⟩
  rw [all, htokens, List.append_assoc, List.cons_append] at h
  exact (List.cons.inj (List.append_cancel_left h)).2

/-- Other white space between two tokens of a text.  The tokens stay as they are. -/
theorem exists_respaced {t : Text} {stream : TokenStream} (hread : read t = .ok stream)
    {front rest : List Token} {a b : Token} (hall : stream.all = front ++ a :: b :: rest)
    {head gap tail spacing : Text} (ht : t = head ++ gap ++ tail) (hhead : head.size = a.span.stop)
    (hgap : (head ++ gap).size = b.span.start) (hne : gap ≠ []) (hspacing : spacing.Spacing)
    (hne' : spacing ≠ []) (hline : spacing.breaksLine = gap.breaksLine) :
    ∃ stream', read (head ++ spacing ++ tail) = .ok stream' ∧ stream.Like stream' := by
  cases hpieces : Piece.readAll 0 t with
  | error e =>
    rw [read, hpieces] at hread
    cases hread
  | ok pieces =>
    rw [read, hpieces] at hread
    obtain rfl : place 0 true true pieces = stream := Except.ok.inj hread
    obtain ⟨hcat, hstands⟩ := Piece.readAll_stands 0 t pieces hpieces
    -- the pieces of the first token, of the white space, and of all that follows
    obtain ⟨others, htokens, hothers⟩ := exists_behind hall
    obtain ⟨before, held, rfl, -, hspan, rfl, heof, -⟩ := place_split_token htokens
    rw [heof] at hothers
    obtain ⟨lead, behind, rfl, hblank, hstart, -⟩ :=
      place_first _ _ _ held b (congrArg List.head? hothers)
    rw [hspan] at hhead hstart
    dsimp only at hhead hstart
    have hcut : head ++ (gap ++ tail)
        = (Piece.concat before ++ a.text) ++ (Piece.concat lead ++ Piece.concat behind) := by
      rw [← List.append_assoc, ← ht, ← hcat, concat_append, concat_cons, concat_append, List.append_assoc]
    obtain ⟨rfl, hbehind⟩ := Text.append_inj_of_size hcut (by rw [hhead, Text.size_append]; omega)
    obtain ⟨rfl, rfl⟩ := Text.append_inj_of_size hbehind (by rw [Text.size_append] at hgap; omega)
    -- other pieces without tokens in place of the white space
    have hlead := (stands_append_right hstands).2
    have hleadNe : lead ≠ [] := fun h => hne (by rw [h]; rfl)
    obtain ⟨lead', rfl, hblank', hbreaks, hstands'⟩ := exists_spacing hspacing
    have hleadNe' : lead' ≠ [] := fun h => hne' (by rw [h]; rfl)
    have hnew := hstands' behind (stands_append_right hlead)
    have hmended := stands_respaced hstands (by simp) hnew (quiet_of_blank hlead hblank hleadNe)
      (quiet_of_blank hnew hblank' hleadNe')
    refine ⟨place 0 true true (before ++ ⟨.token a.kind, a.text⟩ :: (lead' ++ behind)), ?_, ?_⟩
    · have hreadAll := Piece.readAll_of_stands 0 hmended
      rw [concat_append, concat_cons, concat_append] at hreadAll
      rw [read, List.append_assoc, List.append_assoc, hreadAll]
      rfl
    · have hlike := place_respaced behind hblank hblank' hleadNe hleadNe'
        (by rw [hbreaks, hline, breaks_eq hlead hblank]) 0 0 true true
        (before ++ [⟨.token a.kind, a.text⟩])
      rw [List.append_assoc, List.append_assoc] at hlike
      exact hlike

end TokenStream

/-! ## the tree of the text -/

theorem Tree.not_spoiled {tree : Tree} : ¬tree.Spoiled (fun _ => false) := by
  intro h
  induction h with
  | pair hat hvalue => cases hat
  | parameter hat => cases hat
  | child hmem h ih => exact ih

theorem TokensBeside.of_like {eof : Token} {as bs : List Token} (h : List.Forall₂ Token.Like as bs) :
    TokensBeside (fun _ => false) eof as bs := by
  induction h with
  | nil => exact .nil
  | cons hlike h ih => exact .cons hlike rfl ih

/-- texts whose tokens differ in their places only are read to trees that differ in their spans only -/
theorem Tree.read_like {t t' : Text} {stream stream' : TokenStream} (hstream : TokenStream.read t = .ok stream)
    (hstream' : TokenStream.read t' = .ok stream') (hlike : stream.Like stream') {tree : Tree}
    {comments : List Span} (h : Tree.read t = .ok (tree, comments)) :
    ∃ tree' comments', Tree.read t' = .ok (tree', comments') ∧ tree'.bare = tree.bare := by
  have hbeside : Cursor.Beside (fun _ => false) ⟨stream.tokens, stream.eof, []⟩
      ⟨stream'.tokens, stream'.eof, []⟩ :=
    ⟨.of_like hlike.tokens, hlike.eof, (TokenStream.cursor_valid hstream).eof_kind, fun _ => rfl⟩
  exact (Tree.read_beside hstream hstream' hbeside h).resolve_left Tree.not_spoiled

namespace Document

/-- texts whose tokens differ in their places only have documents of one shape, or none at all -/
theorem read_like {t t' : Text} {stream stream' : TokenStream} (hstream : TokenStream.read t = .ok stream)
    (hstream' : TokenStream.read t' = .ok stream') (hlike : stream.Like stream') {d : Document}
    (h : Document.read t = .ok d) :
    ∃ d', Document.read t' = .ok d' ∧ d'.root = d.root ∧ d'.nodes.shape = d.nodes.shape := by
  obtain ⟨comments, htree, hd⟩ := read_eq_ok.mp h
  obtain ⟨tree', comments', htree', hbare⟩ := Tree.read_like hstream hstream' hlike htree
  obtain ⟨hshape, hroot⟩ := NodeTable.shape_pushTree hbare
  refine ⟨ofTree t' tree' comments', ?_, ?_, ?_⟩
  · rw [read_eq, htree']
    rfl
  · rw [hd]
    exact hroot
  · rw [hd]
    exact hshape

/-- **The amount of white space between two tokens does not matter.**  Other white space, in which a
line ends or not as before, gives the same tokens, and a document of the same shape or none as before. -/
theorem read_respaced (t : Text) (stream : TokenStream) (hstream : TokenStream.read t = .ok stream)
    (front rest : List Token) (a b : Token) (hall : stream.all = front ++ a :: b :: rest)
    (head gap tail spacing : Text) (ht : t = head ++ gap ++ tail) (hhead : head.size = a.span.stop)
    (hgap : (head ++ gap).size = b.span.start) (hne : gap ≠ []) (hspacing : spacing.Spacing)
    (hne' : spacing ≠ []) (hline : spacing.breaksLine = gap.breaksLine) :
    (∃ stream', TokenStream.read (head ++ spacing ++ tail) = .ok stream' ∧ stream.Like stream') ∧
      match Document.read t, Document.read (head ++ spacing ++ tail) with
      | .ok d, .ok d' => d.root = d'.root ∧ d.nodes.size = d'.nodes.size ∧
          ∀ id, (d.node id).shape = (d'.node id).shape ∧ d.parent id = d'.parent id
      | .error _, .error _ => True
      | _, _ => False := by
  obtain ⟨stream', hstream', hlike⟩ := TokenStream.exists_respaced hstream hall ht hhead hgap hne hspacing
    hne' hline
  refine ⟨⟨stream', hstream', hlike⟩, ?_⟩
  cases h : Document.read t with
  | ok d =>
    obtain ⟨d', h', hroot, hshape⟩ := read_like hstream hstream' hlike h
    rw [h']
    refine ⟨hroot.symm, ?_, fun id => ⟨?_, ?_⟩⟩
    · rw [← NodeTable.size_shape d.nodes, ← hshape, NodeTable.size_shape]
    · rw [Document.node, ← NodeTable.node_shape, ← hshape, NodeTable.node_shape]
      rfl
    · rw [Document.parent, ← NodeTable.parent_shape, ← hshape, NodeTable.parent_shape]
      rfl
  | error e =>
    cases h' : Document.read (head ++ spacing ++ tail) with
    | error e' => trivial
    | ok d' =>
      obtain ⟨d, hd, -⟩ := read_like hstream' hstream hlike.symm h'
      cases h.symm.trans hd

/-- a comment and a line feed give way to a joined line and a comment that ends in a backslash -/
theorem read_respaced_joined : ∃ d d', Document.read "é # c\n b".toList = .ok d ∧
    Document.read "é\\\n\t#é\\\nb".toList = .ok d' ∧ d.nodes.size = d'.nodes.size ∧
    ∀ id, (d.node id).shape = (d'.node id).shape ∧ d.parent id = d'.parent id := by
  have hall : (TokenStream.read "é # c\n b".toList).toOption.map TokenStream.all
      = some [⟨.ident ['é'], ['é'], ⟨0, 2⟩, true, true⟩, ⟨.ident ['b'], ['b'], ⟨8, 9⟩, true, true⟩,
        ⟨.eof, [], ⟨9, 9⟩, false, false⟩] := by
    decide +kernel
  have hread : (Document.read "é # c\n b".toList).toOption.isSome = true := by decide +kernel
  cases hstream : TokenStream.read "é # c\n b".toList with
  | error e =>
    rw [hstream] at hall
    cases hall
  | ok stream =>
    rw [hstream] at hall
    have hspacing : Text.Spacing "\\\n\t#é\\\n".toList :=
      .joined (.blank (.inr (.inl rfl)) (@Text.Spacing.comment ['é', '\\'] [] (by decide) .nil))
    have h := (read_respaced _ stream hstream [] _ _ _ (Option.some.inj hall) "é".toList " # c\n ".toList
      "b".toList "\\\n\t#é\\\n".toList (by decide) (by decide) (by decide) (by decide) hspacing (by decide)
      (by decide)).2
    cases hd : Document.read "é # c\n b".toList with
    | error e =>
      rw [hd] at hread
      cases hread
    | ok d =>
      have htext : "é".toList ++ "\\\n\t#é\\\n".toList ++ "b".toList = "é\\\n\t#é\\\nb".toList := by decide
      rw [hd, htext] at h
      cases hd' : Document.read "é\\\n\t#é\\\nb".toList with
      | error e =>
        rw [hd'] at h
        exact h.elim
      | ok d' =>
        rw [hd'] at h
        exact ⟨d, d', rfl, rfl, h.2⟩

end Document

end Collate
