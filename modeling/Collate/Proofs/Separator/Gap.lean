import Collate.Proofs.Document.Placed
import Collate.Proofs.Separator.Basic

/-!
# What stands between items

Between two tokens that follow each other, with no comment between them, stand blanks, tabs, line ends and
backslashes that join lines.  So between two items of a list stands a comma with such characters around it.

* `Text.Filler`          blanks, tabs, line ends and joined lines;
* `Text.Parts`           a comma with filler around it;
* `Text.Uncommented`     no comment lies between two offsets;
* `Between.slice?_filler`, `Between.slice?_parts`   the text between two offsets, by the tokens in it.
-/

namespace Collate

namespace Text
variable {t : Text} {a b : Token} {start stop : Nat}

/-- blanks, tabs and line ends, and backslashes in front of a line feed -/
inductive Filler : Text → Prop
  | nil : Filler []
  | blank {c : Char} {rest : Text} (hc : c = ' ' ∨ c = '\t' ∨ c = '\r' ∨ c = '\n') (h : Filler rest) :
    Filler (c :: rest)
  | joined {rest : Text} (h : Filler rest) : Filler ('\\' :: '\n' :: rest)

def Parts (t : Text) : Prop :=
  ∃ before behind, t = before ++ ',' :: behind ∧ Filler before ∧ Filler behind

def Uncommented (t : Text) (start stop : Nat) : Prop :=
  ∀ comment ∈ t.comments, ¬(start ≤ comment.start ∧ comment.stop ≤ stop)

theorem Uncommented.mono {start' stop' : Nat} (h : t.Uncommented start stop) (hstart : start ≤ start')
    (hstop : stop' ≤ stop) : t.Uncommented start' stop' :=
  fun comment hmem hin => h comment hmem ⟨Nat.le_trans hstart hin.1, Nat.le_trans hin.2 hstop⟩

theorem filler_concat {lead behind : List Piece} (hcut : Piece.Cut (lead ++ behind))
    (hplain : ∀ piece ∈ lead, piece.isToken = false ∧ piece.isComment = false) :
    Filler (Piece.concat lead) := by
  induction lead with
  | nil => exact .nil
  | cons piece lead ih =>
    obtain ⟨⟨htoken, hcomment⟩, hlead⟩ := List.forall_mem_cons.mp hplain
    have hproper : piece.Proper (Piece.concat (lead ++ behind)) := hcut.1
    have hrest := ih hcut.2 hlead
    obtain ⟨sort, text⟩ := piece
    rw [Piece.concat_cons]
    cases sort with
    | token kind => cases htoken
    | comment => cases hcomment
    | lineFeed =>
      obtain rfl : text = ['\n'] := hproper
      exact hrest.blank (by simp)
    | blank =>
      rcases hproper with rfl | rfl | rfl | rfl
      · exact hrest.blank (by simp)
      · exact hrest.blank (by simp)
      · exact hrest.blank (by simp)
      · exact hrest.joined

/-- between two tokens that follow each other stands filler, if no comment does -/
theorem slice?_neighbours {front rest : List Token} (htokens : t.tokens = front ++ a :: b :: rest)
    (hplain : t.Uncommented a.span.stop b.span.start) :
    ∃ gap, t.slice? ⟨a.span.stop, b.span.start⟩ = some gap ∧ gap.Filler := by
  cases hread : TokenStream.read t with
  | error e =>
    rw [tokens, hread] at htokens
    cases front <;> cases htokens
  | ok stream =>
    have hcomments := comments_of_read hread
    rw [tokens_of_read hread] at htokens
    obtain ⟨pieces, rfl, hcut, rfl⟩ := TokenStream.exists_pieces_of_read hread
    have hall : (TokenStream.place 0 true true pieces).all
        = front ++ a :: b :: (rest ++ [(TokenStream.place 0 true true pieces).eof]) := by
      rw [TokenStream.all, htokens]
      simp
    obtain ⟨before, piece, lead, behind, rfl, hlead, hstop, hstart, -, -⟩ :=
      TokenStream.place_gap _ _ _ _ _ _ _ _ hall
    rw [Nat.zero_add] at hstop
    have hsplit : before ++ piece :: (lead ++ behind) = (before ++ [piece]) ++ (lead ++ behind) := by simp
    have hplaced : ∀ x ∈ Piece.placed a.span.stop lead,
        x ∈ Piece.placed 0 (before ++ piece :: (lead ++ behind)) := by
      intro x hx
      rw [hsplit, Piece.placed_append, ← hstop, Nat.zero_add, Piece.placed_append _ lead]
      exact List.mem_append_right _ (List.mem_append_left _ hx)
    refine ⟨Piece.concat lead, slice?_eq_some.mpr ⟨Piece.concat (before ++ [piece]),
      Piece.concat behind, ?_, hstop.symm, hstart⟩, ?_⟩
    · rw [hsplit, Piece.concat_append, Piece.concat_append lead, List.append_assoc]
    · rw [hsplit] at hcut
      refine filler_concat (Piece.cut_append_right hcut) fun found hfound => ⟨hlead found hfound, ?_⟩
      -- a comment among these pieces would be one of the text
      obtain ⟨sort, text⟩ := found
      cases sort with
      | comment =>
        obtain ⟨lead₁, lead₂, rfl⟩ := List.append_of_mem hfound
        have hmem := Piece.mem_placed a.span.stop lead₁ lead₂ ⟨.comment, text⟩
        refine absurd (hstart ▸ Piece.start_le_of_mem_placed hmem) (hplain _ ?_)
        rw [hcomments]
        exact TokenStream.mem_comments_of_placed (hplaced _ hmem)
      | _ => rfl

theorem slice?_join {x y : Text} {mid : Nat} (hx : t.slice? ⟨start, mid⟩ = some x)
    (hy : t.slice? ⟨mid, stop⟩ = some y) : t.slice? ⟨start, stop⟩ = some (x ++ y) := by
  obtain ⟨front, rest, ht, hfront, hmid⟩ := slice?_eq_some.mp hx
  obtain ⟨front', rest', ht', hfront', hstop⟩ := slice?_eq_some.mp hy
  dsimp only at hfront hmid hfront' hstop
  have hcut : (front ++ x) ++ rest = front' ++ (y ++ rest') := by
    rw [← ht, ht', List.append_assoc]
  obtain ⟨rfl, rfl⟩ := append_inj_of_size hcut (by rw [size_append]; omega)
  refine slice?_eq_some.mpr ⟨front, rest', ?_, hfront, ?_⟩
  · rw [ht', List.append_assoc front]
  · rw [size_append]
    dsimp only
    omega

theorem Between.slice?_filler (h : t.Between start stop []) (hplain : t.Uncommented start stop) :
    ∃ gap, t.slice? ⟨start, stop⟩ = some gap ∧ gap.Filler := by
  obtain ⟨front, first, middle, last, back, htokens, rfl, rfl, hkinds⟩ := h
  rw [List.map_eq_nil_iff.mp hkinds] at htokens
  exact slice?_neighbours htokens hplain

theorem Between.slice?_parts (h : t.Between start stop [.comma]) (hplain : t.Uncommented start stop) :
    ∃ gap, t.slice? ⟨start, stop⟩ = some gap ∧ gap.Parts := by
  obtain ⟨front, first, middle, last, back, htokens, rfl, rfl, hkinds⟩ := h
  obtain ⟨comma, rfl, hcomma⟩ := List.map_eq_singleton_iff.mp hkinds
  obtain ⟨hfit, hordered⟩ := t.tokens_fit
  rw [List.singleton_append] at htokens
  have hfits : comma.Fits t := hfit comma (by rw [htokens]; simp)
  have hspelled := hfits.slice_of_spelled hcomma fun _ h => h
  have hnonempty := hfits.nonempty
  -- the comma stands behind the first token and in front of the last one
  rw [htokens, List.pairwise_append] at hordered
  obtain ⟨hfirst, hrest⟩ := List.pairwise_cons.mp hordered.2.1
  have hbefore : first.span.stop ≤ comma.span.start := hfirst comma List.mem_cons_self
  have hbehind : comma.span.stop ≤ last.span.start :=
    (List.pairwise_cons.mp hrest).1 last List.mem_cons_self
  obtain ⟨before, hslice, hfiller⟩ := slice?_neighbours htokens
    (hplain.mono (Nat.le_refl _) (by omega))
  have htokens' : t.tokens = (front ++ [first]) ++ comma :: last :: back := by
    rw [htokens]
    simp
  obtain ⟨behind, hslice', hfiller'⟩ := slice?_neighbours htokens'
    (hplain.mono (by omega) (Nat.le_refl _))
  exact ⟨before ++ (',' :: behind), slice?_join hslice (slice?_join hspelled hslice'),
    before, behind, rfl, hfiller, hfiller'⟩

end Text

end Collate
