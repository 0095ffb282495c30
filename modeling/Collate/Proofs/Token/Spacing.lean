import Collate.Proofs.Token.Local

/-!
# White space between tokens

What stands between two tokens may be exchanged for other white space, joined lines and comments: as
long as there is something in between, and a line ends in it or not as before, the tokens stay.  From
the token in front all of it looks alike, and the token behind only knows the two flags.

* `Text.Spacing`            blanks, line feeds, joined lines and comments with their line ends;
* `Text.breaksLine`         a line ends in a text between tokens;
* `Piece.stands_append`     pieces behind others may be exchanged if the outlook stays;
* `TokenStream.place_blank` what the tokens behind such a text know of it.
-/

namespace Collate

/-- blanks, tabs, line ends, backslashes that join lines, and comments up to the end of their line -/
inductive Text.Spacing : Text → Prop
  | nil : Spacing []
  | blank {c : Char} {rest : Text} (hc : c = ' ' ∨ c = '\t' ∨ c = '\r' ∨ c = '\n') (h : Spacing rest) :
    Spacing (c :: rest)
  | joined {rest : Text} (h : Spacing rest) : Spacing ('\\' :: '\n' :: rest)
  | comment {body rest : Text} (hbody : '\n' ∉ body) (h : Spacing rest) :
    Spacing ('#' :: body ++ '\n' :: rest)

/-- A line feed that no backslash joins to the next line stands in the text.  A backslash at the end of
a comment belongs to the comment. -/
def Text.breaksLine : Text → Bool
  | [] => false
  | '\n' :: _ => true
  | '\\' :: '\n' :: rest => breaksLine rest
  | '#' :: rest => rest.contains '\n'
  | _ :: rest => breaksLine rest

namespace Piece
open Text
variable {before lead behind : List Piece}

/-! ## exchanging pieces -/

/-- Other pieces may stand behind some pieces, if they begin with the same character and have the same
outlook. -/
theorem stands_append {behind' : List Piece} (h : Stands (before ++ behind)) (h' : Stands behind')
    (hlook : outlook 2 (concat behind) = outlook 2 (concat behind'))
    (hhead : (concat behind').head? = (concat behind).head?) : Stands (before ++ behind') := by
  induction before with
  | nil => exact h'
  | cons piece before ih =>
    rw [List.cons_append] at h ⊢
    refine ⟨h.1.local ?_ (fun _ => ?_), ih h.2⟩
    · rw [concat_append, concat_append]
      exact outlook_append _ hlook
    · rw [concat_append, concat_append, List.head?_append, List.head?_append, hhead]

theorem stands_respaced {token : Piece} {lead' : List Piece} (h : Stands (before ++ token :: (lead ++ behind)))
    (htoken : token.sort ≠ .comment) (h' : Stands (lead' ++ behind))
    (hquiet : (concat (lead ++ behind)).Quiet) (hquiet' : (concat (lead' ++ behind)).Quiet) :
    Stands (before ++ token :: (lead' ++ behind)) := by
  have hnone {t : Text} (ht : t.Quiet) : outlook 2 t = [] := by
    cases t with
    | nil => rfl
    | cons c t => simp [outlook, ht c rfl]
  have hlook : outlook 2 (concat (lead ++ behind)) = outlook 2 (concat (lead' ++ behind)) := by
    rw [hnone hquiet, hnone hquiet']
  have hheads := (stands_append_right h).1
  refine stands_append h ⟨hheads.local hlook (fun hsort => absurd hsort htoken), h'⟩ ?_ ?_
  · rw [concat_cons, concat_cons]
    exact outlook_append _ hlook
  · obtain ⟨c, x, hx, -⟩ := hheads
    rw [concat_cons, concat_cons, hx]
    rfl

/-! ## the pieces of white space -/

def Blank (pieces : List Piece) : Prop :=
  ∀ piece ∈ pieces, piece.isToken = false

def breaks (pieces : List Piece) : Bool :=
  pieces.any (fun piece => decide (piece.sort = .lineFeed))

/-- white space is cut into pieces without tokens, whatever stands behind it -/
theorem exists_spacing {t : Text} (h : t.Spacing) : ∃ lead, concat lead = t ∧ Blank lead ∧
    breaks lead = t.breaksLine ∧ ∀ behind, Stands behind → Stands (lead ++ behind) := by
  induction h with
  | nil => exact ⟨[], rfl, by simp [Blank], rfl, fun behind h => h⟩
  | @blank c rest hc h ih =>
    obtain ⟨lead, rfl, hblank, hbreaks, hstands⟩ := ih
    have hblankPiece (sort : Piece.Sort) (hsort : sort = .blank ∨ sort = .lineFeed) :
        Blank (⟨sort, [c]⟩ :: lead) := by
      refine List.forall_mem_cons.mpr ⟨?_, hblank⟩
      rcases hsort with rfl | rfl <;> rfl
    rcases hc with rfl | rfl | rfl | rfl
    · exact ⟨_, rfl, hblankPiece .blank (.inl rfl), hbreaks, fun behind h =>
        ⟨⟨_, _, rfl, rfl⟩, hstands behind h⟩⟩
    · exact ⟨_, rfl, hblankPiece .blank (.inl rfl), hbreaks, fun behind h =>
        ⟨⟨_, _, rfl, rfl⟩, hstands behind h⟩⟩
    · exact ⟨_, rfl, hblankPiece .blank (.inl rfl), hbreaks, fun behind h =>
        ⟨⟨_, _, rfl, rfl⟩, hstands behind h⟩⟩
    · exact ⟨_, rfl, hblankPiece .lineFeed (.inr rfl), rfl, fun behind h =>
        ⟨⟨_, _, rfl, rfl⟩, hstands behind h⟩⟩
  | @joined rest h ih =>
    obtain ⟨lead, rfl, hblank, hbreaks, hstands⟩ := ih
    refine ⟨⟨.blank, ['\\', '\n']⟩ :: lead, rfl, ?_, ?_, fun behind h => ?_⟩
    · exact List.forall_mem_cons.mpr ⟨rfl, hblank⟩
    · exact hbreaks
    · exact ⟨⟨_, _, rfl, rfl⟩, hstands behind h⟩
  | @comment body rest hbody h ih =>
    obtain ⟨lead, rfl, hblank, hbreaks, hstands⟩ := ih
    refine ⟨⟨.comment, '#' :: body⟩ :: ⟨.lineFeed, ['\n']⟩ :: lead, by simp [concat], ?_, ?_, fun behind h => ?_⟩
    · exact List.forall_mem_cons.mpr ⟨rfl, List.forall_mem_cons.mpr ⟨rfl, hblank⟩⟩
    · simp [breaks, breaksLine]
    · exact ⟨heads_comment hbody (.inr rfl), ⟨_, _, rfl, rfl⟩, hstands behind h⟩

theorem quiet_of_blank (h : Stands (lead ++ behind)) (hblank : Blank lead) (hne : lead ≠ []) :
    (concat (lead ++ behind)).Quiet := by
  obtain ⟨piece, lead, rfl⟩ := List.exists_cons_of_ne_nil hne
  obtain ⟨hpiece, -⟩ := List.forall_mem_cons.mp hblank
  have hproper := h.1.proper
  obtain ⟨sort, text⟩ := piece
  rw [List.cons_append, concat_cons]
  intro c hc
  cases sort with
  | token kind => cases hpiece
  | lineFeed =>
    obtain rfl : text = ['\n'] := hproper
    obtain rfl : '\n' = c := Option.some.inj hc
    rfl
  | blank => rcases hproper with rfl | rfl | rfl | rfl <;> obtain rfl := Option.some.inj hc <;> rfl
  | comment =>
    obtain ⟨⟨body, rfl, -⟩, -⟩ := hproper
    obtain rfl : '#' = c := Option.some.inj hc
    rfl

theorem eq_lineFeed {piece : Piece} {rest : Text} (h : piece.Heads rest) (hblank : piece.isToken = false)
    (hhead : piece.text ++ rest = [] ∨ (piece.text ++ rest).head? = some '\n') :
    piece = ⟨.lineFeed, ['\n']⟩ := by
  have hproper := h.proper
  obtain ⟨sort, text⟩ := piece
  cases sort with
  | token kind => cases hblank
  | lineFeed =>
    obtain rfl : text = ['\n'] := hproper
    rfl
  | blank => rcases hproper with rfl | rfl | rfl | rfl <;> simp at hhead
  | comment =>
    obtain ⟨⟨body, rfl, -⟩, -⟩ := hproper
    simp at hhead

theorem breaks_eq (h : Stands (lead ++ behind)) (hblank : Blank lead) :
    breaks lead = (concat lead).breaksLine := by
  induction lead with
  | nil => rfl
  | cons piece lead ih =>
    obtain ⟨hpiece, hlead⟩ := List.forall_mem_cons.mp hblank
    have hproper := h.1.proper
    have hrest := ih h.2 hlead
    obtain ⟨sort, text⟩ := piece
    rw [concat_cons]
    cases sort with
    | token kind => cases hpiece
    | lineFeed =>
      obtain rfl : text = ['\n'] := hproper
      rfl
    | blank => rcases hproper with rfl | rfl | rfl | rfl <;> exact hrest
    | comment =>
      obtain ⟨⟨body, rfl, hbody⟩, hend⟩ := hproper
      show breaks lead = (body ++ concat lead).contains '\n'
      cases lead with
      | nil => simpa [breaks, concat_nil] using hbody
      | cons next lead =>
        -- the comment ends in front of a line feed, which is the next piece
        obtain ⟨hnext, -⟩ := List.forall_mem_cons.mp hlead
        rw [eq_lineFeed h.2.1 hnext hend]
        simp [breaks, concat_cons]

end Piece

namespace TokenStream
open Piece

theorem place_blank (offset : Nat) (space newline : Bool) {lead : List Piece} (behind : List Piece)
    (h : Blank lead) : (place offset space newline (lead ++ behind)).all
      = (place (offset + (concat lead).size) (space || !lead.isEmpty) (newline || breaks lead) behind).all := by
  induction lead generalizing offset space newline with
  | nil => simp [concat_nil, breaks]
  | cons piece lead ih =>
    obtain ⟨hpiece, hlead⟩ := List.forall_mem_cons.mp h
    rw [List.cons_append, place_cons_of_not_token _ _ _ _ _ hpiece, ih _ _ _ hlead, concat_cons,
      Text.size_append, ← Nat.add_assoc]
    simp [breaks, Bool.or_assoc]

end TokenStream

end Collate
