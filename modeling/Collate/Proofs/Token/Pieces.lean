import Collate.Proofs.Text.Slice
import Collate.Proofs.Token.Lexeme
import Collate.Token.Stream

/-!
# Pieces in their places

A text that can be read is cut into pieces whose characters, in order, are the text.  Put in its
place, every piece is the text under its span, and every character belongs to one piece.

* `Piece.Proper`      what a piece of each sort looks like, and what may follow it;
* `Piece.Cut`         a list of proper pieces makes up a text;
* `Piece.readAll_cut` `Piece.readAll` cuts its text;
* `Piece.placed`      the pieces with their spans;
* `TokenStream.place_gap`   between two neighbouring tokens stand pieces that are no tokens, and
                      the flags of the second token tell of them.
-/

namespace Collate

namespace Piece

/-! ## cutting -/

/-- a piece of each sort, in front of the text `rest` -/
def Proper (piece : Piece) (rest : Text) : Prop :=
  match piece.sort with
  | .blank =>
    piece.text = [' '] ∨ piece.text = ['\t'] ∨ piece.text = ['\r'] ∨ piece.text = ['\\', '\n']
  | .lineFeed => piece.text = ['\n']
  | .comment =>
    (∃ body, piece.text = '#' :: body ∧ '\n' ∉ body) ∧ (rest = [] ∨ rest.head? = some '\n')
  | .token kind =>
    kind.Spelled piece.text ∧ kind ≠ .eof ∧ piece.text ≠ [] ∧ piece.text.head? ≠ some '\n'

/-- the characters of a list of pieces -/
def concat (pieces : List Piece) : Text :=
  pieces.flatMap (·.text)

theorem concat_nil : concat [] = [] := rfl

theorem concat_cons (piece : Piece) (pieces : List Piece) :
    concat (piece :: pieces) = piece.text ++ concat pieces := rfl

theorem concat_append (a b : List Piece) : concat (a ++ b) = concat a ++ concat b := by
  simp [concat]

/-- every piece is proper in front of the pieces behind it -/
def Cut : List Piece → Prop
  | [] => True
  | piece :: pieces => piece.Proper (concat pieces) ∧ Cut pieces

theorem cut_append_right {a b : List Piece} (h : Cut (a ++ b)) : Cut b := by
  induction a with
  | nil => exact h
  | cons piece a ih => exact ih h.2

/-- the piece that is read stands at the front of the text and is proper -/
theorem read_proper {c : Char} {rest : Text} {piece : Piece} (h : read c rest = .ok piece) :
    ∃ behind, c :: rest = piece.text ++ behind ∧ piece.text ≠ [] ∧ piece.Proper behind := by
  unfold read at h
  split at h
  next hc =>
    injection h with h
    subst h
    refine ⟨rest, rfl, List.cons_ne_nil _ _, ?_⟩
    rcases hc with rfl | rfl | rfl
    · exact Or.inl rfl
    · exact Or.inr (Or.inl rfl)
    · exact Or.inr (Or.inr (Or.inl rfl))
  next =>
    split at h
    next hc =>
      injection h with h
      subst h
      subst hc
      exact ⟨rest, rfl, List.cons_ne_nil _ _, rfl⟩
    next hfeed =>
      split at h
      next hc =>
        injection h with h
        subst h
        obtain ⟨rfl, hhead⟩ := hc
        obtain ⟨behind, rfl⟩ := List.head?_eq_some_iff.mp hhead
        exact ⟨behind, rfl, List.cons_ne_nil _ _, Or.inr (Or.inr (Or.inr rfl))⟩
      next =>
        split at h
        next hc =>
          injection h with h
          subst h
          subst hc
          refine ⟨rest.dropWhile (· != '\n'), ?_, List.cons_ne_nil _ _, ⟨_, rfl, ?_⟩, ?_⟩
          · rw [List.cons_append, List.takeWhile_append_dropWhile]
          · intro hmem
            have := List.all_eq_true.mp List.all_takeWhile _ hmem
            simp at this
          · cases hd : rest.dropWhile (· != '\n') with
            | nil => exact Or.inl rfl
            | cons d ds =>
              have := List.head?_dropWhile_not (· != '\n') rest
              rw [hd] at this
              right
              simpa using this
        next =>
          cases hl : Lexeme.read c rest with
          | error cause => rw [hl] at h; exact absurd h (by simp [Except.map])
          | ok l =>
            rw [hl] at h
            injection h with h
            subst h
            have hf := Lexeme.read_fronts hl
            obtain ⟨behind, hb⟩ := hf.text_prefix
            have hhead : l.text.head? ≠ some '\n' := by
              intro hhead
              obtain ⟨tail, htail⟩ := List.head?_eq_some_iff.mp hhead
              rw [htail] at hb
              exact hfeed (List.cons.inj hb).1.symm
            exact ⟨behind, hb.symm, hf.text_ne_nil, hf.spelled, hf.kind_ne_eof, hf.text_ne_nil, hhead⟩

theorem drop_front {c : Char} {rest front behind : Text} (h : c :: rest = front ++ behind)
    (hne : front ≠ []) : rest.drop (front.length - 1) = behind := by
  obtain ⟨d, tail, rfl⟩ := List.exists_cons_of_ne_nil hne
  obtain ⟨-, rfl⟩ := List.cons.inj h
  exact List.drop_left

/-- the pieces of a text make up the text, and all of them are proper -/
theorem readAll_cut (offset : Nat) (t : Text) (pieces : List Piece)
    (h : readAll offset t = .ok pieces) : concat pieces = t ∧ Cut pieces := by
  fun_induction readAll offset t generalizing pieces with
  | case1 offset =>
    injection h with h
    subst h
    exact ⟨rfl, trivial⟩
  | case2 offset c rest cause distance hr => exact absurd h (by simp)
  | case3 offset c rest piece hr ih =>
    cases ht : readAll (offset + piece.text.size) (rest.drop (piece.text.length - 1)) with
    | error e => rw [ht] at h; exact absurd h (by simp [Except.map])
    | ok tail =>
      rw [ht] at h
      injection h with h
      subst h
      obtain ⟨behind, hb, hne, hproper⟩ := read_proper hr
      obtain ⟨hcat, hcut⟩ := ih tail ht
      rw [drop_front hb hne] at hcat
      exact ⟨by rw [concat_cons, hcat, hb], by rw [Cut, hcat]; exact ⟨hproper, hcut⟩⟩

/-! ## placing -/

def placed (offset : Nat) : List Piece → List (Span × Piece)
  | [] => []
  | piece :: pieces =>
    (⟨offset, offset + piece.text.size⟩, piece) :: placed (offset + piece.text.size) pieces

theorem placed_append (offset : Nat) (a b : List Piece) :
    placed offset (a ++ b) = placed offset a ++ placed (offset + (concat a).size) b := by
  induction a generalizing offset with
  | nil => simp [placed, concat_nil]
  | cons piece a ih =>
    rw [List.cons_append, placed, ih, placed, concat_cons, Text.size_append, Nat.add_assoc]
    rfl

theorem start_le_of_mem_placed {offset : Nat} {pieces : List Piece} {x : Span × Piece}
    (h : x ∈ placed offset pieces) : offset ≤ x.1.start ∧ x.1.stop ≤ offset + (concat pieces).size := by
  induction pieces generalizing offset with
  | nil => exact absurd h List.not_mem_nil
  | cons piece pieces ih =>
    rw [concat_cons, Text.size_append]
    rcases List.mem_cons.mp h with rfl | h
    · exact ⟨Nat.le_refl _, by dsimp only; omega⟩
    · have := ih h
      omega

theorem placed_pairwise (offset : Nat) (pieces : List Piece) :
    (placed offset pieces).Pairwise (fun a b => a.1.stop ≤ b.1.start) := by
  induction pieces generalizing offset with
  | nil => exact List.Pairwise.nil
  | cons piece pieces ih =>
    exact List.pairwise_cons.mpr ⟨fun x hx => (start_le_of_mem_placed hx).1, ih _⟩

theorem exists_of_mem_placed {offset : Nat} {pieces : List Piece} {x : Span × Piece}
    (h : x ∈ placed offset pieces) :
    ∃ before behind, pieces = before ++ x.2 :: behind ∧
      x.1.start = offset + (concat before).size ∧ x.1.stop = x.1.start + x.2.text.size := by
  induction pieces generalizing offset with
  | nil => exact absurd h List.not_mem_nil
  | cons piece pieces ih =>
    rcases List.mem_cons.mp h with rfl | h
    · exact ⟨[], pieces, rfl, rfl, rfl⟩
    · obtain ⟨before, behind, rfl, hstart, hstop⟩ := ih h
      refine ⟨piece :: before, behind, rfl, ?_, hstop⟩
      rw [concat_cons, Text.size_append]
      omega

theorem mem_placed (offset : Nat) (before behind : List Piece) (piece : Piece) :
    (⟨offset + (concat before).size, offset + (concat before).size + piece.text.size⟩, piece)
      ∈ placed offset (before ++ piece :: behind) := by
  rw [placed_append]
  exact List.mem_append_right _ List.mem_cons_self

theorem slice?_of_mem_placed {pieces : List Piece} {x : Span × Piece}
    (h : x ∈ placed 0 pieces) : (concat pieces).slice? x.1 = some x.2.text := by
  obtain ⟨before, behind, rfl, hstart, hstop⟩ := exists_of_mem_placed h
  refine Text.slice?_eq_some.mpr ⟨concat before, concat behind, ?_, by omega, hstop⟩
  rw [concat_append, concat_cons, List.append_assoc]

theorem exists_mem_placed (offset : Nat) {pieces : List Piece} {front rest : Text} {c : Char}
    (h : concat pieces = front ++ c :: rest) :
    ∃ before piece behind inner outer, pieces = before ++ piece :: behind ∧
      piece.text = inner ++ c :: outer ∧ rest = outer ++ concat behind ∧
      (⟨offset + (concat before).size, offset + (concat before).size + piece.text.size⟩, piece)
        ∈ placed offset pieces ∧
      (concat before).size + Text.size inner = front.size := by
  induction pieces generalizing offset front with
  | nil => exact absurd h (by simp [concat_nil])
  | cons piece pieces ih =>
    rw [concat_cons] at h
    rcases List.append_eq_append_iff.mp h with ⟨m, hfront, hrest⟩ | ⟨m, hpiece, hrest⟩
    · obtain ⟨before, found, behind, inner, outer, hp, ht, hr, hmem, hsize⟩ :=
        ih (offset + piece.text.size) hrest
      refine ⟨piece :: before, found, behind, inner, outer, by rw [hp]; rfl, ht, hr, ?_, ?_⟩
      · have e : offset + (concat (piece :: before)).size
            = offset + piece.text.size + (concat before).size := by
          rw [concat_cons, Text.size_append, Nat.add_assoc]
        rw [e]
        exact List.mem_cons_of_mem _ hmem
      · rw [concat_cons, Text.size_append, hfront, Text.size_append]
        omega
    · cases m with
      | nil =>
        rw [List.nil_append] at hrest
        obtain ⟨before, found, behind, inner, outer, hp, ht, hr, hmem, hsize⟩ :=
          ih (offset + piece.text.size) (show concat pieces = [] ++ c :: rest from hrest.symm)
        refine ⟨piece :: before, found, behind, inner, outer, by rw [hp]; rfl, ht, hr, ?_, ?_⟩
        · have e : offset + (concat (piece :: before)).size
              = offset + piece.text.size + (concat before).size := by
            rw [concat_cons, Text.size_append, Nat.add_assoc]
          rw [e]
          exact List.mem_cons_of_mem _ hmem
        · rw [concat_cons, Text.size_append, hpiece, List.append_nil]
          rw [Text.size_nil] at hsize
          omega
      | cons d ds =>
        obtain ⟨rfl, rfl⟩ := List.cons.inj hrest
        exact ⟨[], piece, pieces, front, ds, rfl, hpiece, rfl, List.mem_cons_self,
          by rw [concat_nil, Text.size_nil, Nat.zero_add]⟩

def isToken (piece : Piece) : Bool :=
  match piece.sort with
  | .token _ => true
  | _ => false

def isComment (piece : Piece) : Bool :=
  match piece.sort with
  | .comment => true
  | _ => false

end Piece

/-! ## the stream of the pieces -/

namespace TokenStream

/-- the tokens of a stream and the mark of its end -/
def all (stream : TokenStream) : List Token :=
  stream.tokens ++ [stream.eof]

theorem place_tokens (offset : Nat) (space newline : Bool) (pieces : List Piece) :
    (place offset space newline pieces).tokens.map
        (fun token => (token.span, (⟨.token token.kind, token.text⟩ : Piece)))
      = (Piece.placed offset pieces).filter (fun x => x.2.isToken) := by
  induction pieces generalizing offset space newline with
  | nil => rfl
  | cons piece pieces ih =>
    obtain ⟨sort, text⟩ := piece
    rw [Piece.placed]
    cases sort with
    | blank => simpa [place, Piece.isToken] using ih _ _ _
    | lineFeed => simpa [place, Piece.isToken] using ih _ _ _
    | comment => simpa [place, Piece.isToken] using ih _ _ _
    | token kind => simpa [place, Piece.isToken] using ih _ _ _

/-- the comments of placed pieces are the spans of the pieces that are comments -/
theorem place_comments (offset : Nat) (space newline : Bool) (pieces : List Piece) :
    (place offset space newline pieces).comments
      = ((Piece.placed offset pieces).filter (fun x => x.2.isComment)).map (·.1) := by
  induction pieces generalizing offset space newline with
  | nil => rfl
  | cons piece pieces ih =>
    obtain ⟨sort, text⟩ := piece
    rw [Piece.placed]
    cases sort with
    | blank => simpa [place, Piece.isComment] using ih _ _ _
    | lineFeed => simpa [place, Piece.isComment] using ih _ _ _
    | comment => simpa [place, Piece.isComment] using ih _ _ _
    | token kind => simpa [place, Piece.isComment] using ih _ _ _

theorem place_eof (offset : Nat) (space newline : Bool) (pieces : List Piece) :
    (place offset space newline pieces).eof.kind = .eof ∧
      (place offset space newline pieces).eof.text = [] ∧
      (place offset space newline pieces).eof.span
        = ⟨offset + (Piece.concat pieces).size, offset + (Piece.concat pieces).size⟩ := by
  induction pieces generalizing offset space newline with
  | nil => exact ⟨rfl, rfl, rfl⟩
  | cons piece pieces ih =>
    obtain ⟨sort, text⟩ := piece
    rw [Piece.concat_cons, Text.size_append, ← Nat.add_assoc]
    cases sort <;> exact ih _ _ _

theorem place_cons_of_not_token (offset : Nat) (space newline : Bool) (piece : Piece)
    (pieces : List Piece) (h : piece.isToken = false) :
    (place offset space newline (piece :: pieces)).all
      = (place (offset + piece.text.size) true
          (newline || decide (piece.sort = .lineFeed)) pieces).all := by
  obtain ⟨sort, text⟩ := piece
  cases sort with
  | blank => simp [all, place]
  | lineFeed => simp [all, place]
  | comment => simp [all, place]
  | token kind => exact absurd h (by simp [Piece.isToken])

theorem place_cons_token (offset : Nat) (space newline : Bool) (kind : Token.Kind) (text : Text)
    (pieces : List Piece) :
    (place offset space newline (⟨.token kind, text⟩ :: pieces)).all
      = ⟨kind, text, ⟨offset, offset + text.size⟩, space, newline⟩
        :: (place (offset + text.size) false false pieces).all := by
  simp [all, place]

/-- the first token, or the mark of the end: where it stands, and what its flags tell -/
theorem place_first (offset : Nat) (space newline : Bool) (pieces : List Piece) (token : Token)
    (h : (place offset space newline pieces).all.head? = some token) :
    ∃ lead behind, pieces = lead ++ behind ∧ (∀ piece ∈ lead, piece.isToken = false) ∧
      token.span.start = offset + (Piece.concat lead).size ∧
      token.spaceBefore = (space || !lead.isEmpty) ∧
      token.newlineBefore = (newline || lead.any (fun piece => decide (piece.sort = .lineFeed))) := by
  induction pieces generalizing offset space newline with
  | nil =>
    injection h with h
    subst h
    exact ⟨[], [], rfl, by simp, rfl, by simp [place], by simp [place]⟩
  | cons piece pieces ih =>
    cases htoken : piece.isToken with
    | false =>
      rw [place_cons_of_not_token _ _ _ _ _ htoken] at h
      obtain ⟨lead, behind, rfl, hlead, hstart, hspace, hnewline⟩ := ih _ _ _ h
      refine ⟨piece :: lead, behind, rfl, ?_, ?_, by simpa using hspace, ?_⟩
      · simpa [htoken] using hlead
      · rw [hstart, Piece.concat_cons, Text.size_append]
        omega
      · rw [hnewline, List.any_cons, Bool.or_assoc]
    | true =>
      obtain ⟨sort, text⟩ := piece
      cases sort with
      | token kind =>
        rw [place_cons_token] at h
        injection h with h
        subst h
        exact ⟨[], ⟨.token kind, text⟩ :: pieces, rfl, by simp, rfl, by simp, by simp⟩
      | blank => exact absurd htoken (by simp [Piece.isToken])
      | lineFeed => exact absurd htoken (by simp [Piece.isToken])
      | comment => exact absurd htoken (by simp [Piece.isToken])

/-- two neighbouring tokens: what stands between them, and what the flags of the second tell -/
theorem place_gap (offset : Nat) (space newline : Bool) (pieces : List Piece)
    (front : List Token) (a b : Token) (rest : List Token)
    (h : (place offset space newline pieces).all = front ++ a :: b :: rest) :
    ∃ before piece lead behind, pieces = before ++ piece :: (lead ++ behind) ∧
      (∀ piece ∈ lead, piece.isToken = false) ∧
      a.span.stop = offset + (Piece.concat (before ++ [piece])).size ∧
      b.span.start = a.span.stop + (Piece.concat lead).size ∧
      b.spaceBefore = !lead.isEmpty ∧
      b.newlineBefore = lead.any (fun piece => decide (piece.sort = .lineFeed)) := by
  induction pieces generalizing offset space newline front with
  | nil =>
    have := congrArg List.length h
    simp [all, place] at this
    omega
  | cons piece pieces ih =>
    -- a piece in front of both tokens is added to what stands before them
    have skip : ∀ (space newline : Bool) (front : List Token),
        (place (offset + piece.text.size) space newline pieces).all = front ++ a :: b :: rest →
        ∃ before found lead behind, piece :: pieces = before ++ found :: (lead ++ behind) ∧
          (∀ piece ∈ lead, piece.isToken = false) ∧
          a.span.stop = offset + (Piece.concat (before ++ [found])).size ∧
          b.span.start = a.span.stop + (Piece.concat lead).size ∧
          b.spaceBefore = !lead.isEmpty ∧
          b.newlineBefore = lead.any (fun piece => decide (piece.sort = .lineFeed)) := by
      intro space newline front h
      obtain ⟨before, found, lead, behind, rfl, hlead, hstop, hrest⟩ := ih _ _ _ _ h
      refine ⟨piece :: before, found, lead, behind, rfl, hlead, ?_, hrest⟩
      rw [hstop, List.cons_append, Piece.concat_cons, Text.size_append]
      omega
    cases htoken : piece.isToken with
    | false =>
      rw [place_cons_of_not_token _ _ _ _ _ htoken] at h
      exact skip _ _ _ h
    | true =>
      obtain ⟨sort, text⟩ := piece
      cases sort with
      | blank => exact absurd htoken (by simp [Piece.isToken])
      | lineFeed => exact absurd htoken (by simp [Piece.isToken])
      | comment => exact absurd htoken (by simp [Piece.isToken])
      | token kind =>
        rw [place_cons_token] at h
        cases front with
        | cons first front => exact skip _ _ _ (List.cons.inj h).2
        | nil =>
          obtain ⟨rfl, hb⟩ := List.cons.inj h
          obtain ⟨lead, behind, rfl, hlead, hstart, hspace, hnewline⟩ :=
            place_first _ _ _ _ b (by rw [hb]; rfl)
          refine ⟨[], ⟨.token kind, text⟩, lead, behind, rfl, hlead, ?_, hstart,
            by simpa using hspace, by simpa using hnewline⟩
          rw [List.nil_append, Piece.concat_cons, Piece.concat_nil, List.append_nil]

end TokenStream

end Collate
