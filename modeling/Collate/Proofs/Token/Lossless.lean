import Collate.Proofs.Token.Pieces

/-!
# Nothing is lost between text and tokens

The tokens and comments of a text stand in their order and apart from each other, every token is
the spelling of its kind under its span, and what belongs to neither is white space or a backslash
in front of a line feed.  The flags of a token tell exactly what stands between it and the token
before it.

* `TokenStream.Joined`       a line feed that a backslash joins to the next line;
* `TokenStream.Lossless`     all of this as one property of a stream and its text;
* `TokenStream.read_lossless`   every stream that is read has it.
-/

namespace Collate

namespace TokenStream

/-- The line feed at an offset is the second half of a backslash and line feed pair that lies
behind `start`.  A backslash inside a comment belongs to the comment. -/
def Joined (stream : TokenStream) (t : Text) (start offset : Nat) : Prop :=
  start < offset ∧ t.charAt? (offset - 1) = some '\\' ∧
    ∀ comment ∈ stream.comments, ¬(comment.start ≤ offset - 1 ∧ offset - 1 < comment.stop)

/-- a character that may stand between tokens, in front of the text `rest` -/
def isFiller (c : Char) (rest : Text) : Prop :=
  c = ' ' ∨ c = '\t' ∨ c = '\r' ∨ c = '\n' ∨ (c = '\\' ∧ rest.head? = some '\n')

/-- the stream holds all of a text -/
structure Lossless (stream : TokenStream) (t : Text) : Prop where
  tokens_ordered : stream.all.Pairwise (fun a b => a.span.stop ≤ b.span.start)
  comments_ordered : stream.comments.Pairwise (fun a b => a.stop ≤ b.start)
  disjoint : ∀ token ∈ stream.all, ∀ comment ∈ stream.comments,
    token.span.stop ≤ comment.start ∨ comment.stop ≤ token.span.start
  tokens_nonempty : ∀ token ∈ stream.tokens,
    token.span.start < token.span.stop ∧ token.kind ≠ .eof
  eof_last : stream.eof.kind = .eof ∧ stream.eof.span = ⟨t.size, t.size⟩
  tokens_boundary : ∀ token ∈ stream.all,
    t.isBoundary token.span.start = true ∧ t.isBoundary token.span.stop = true
  comments_boundary : ∀ comment ∈ stream.comments,
    t.isBoundary comment.start = true ∧ t.isBoundary comment.stop = true
  /-- a character that is in no token and in no comment is filler -/
  filler : ∀ (front : Text) (c : Char) (rest : Text), t = front ++ c :: rest →
    (∃ token ∈ stream.tokens,
      token.span.start ≤ front.size ∧ front.size + c.utf8Size ≤ token.span.stop) ∨
    (∃ comment ∈ stream.comments,
      comment.start ≤ front.size ∧ front.size + c.utf8Size ≤ comment.stop) ∨
    isFiller c rest
  /-- a comment runs from a hash sign to the next line feed or the end of the text -/
  comments_extent : ∀ comment ∈ stream.comments,
    ∃ body, t.slice? comment = some ('#' :: body) ∧ '\n' ∉ body ∧
      (comment.stop = t.size ∨ t.charAt? comment.stop = some '\n')
  first_flags : ∀ token, stream.all.head? = some token →
    token.spaceBefore = true ∧ token.newlineBefore = true
  spaceBefore_iff : ∀ front a b rest, stream.all = front ++ a :: b :: rest →
    (b.spaceBefore = true ↔ a.span.stop < b.span.start)
  newlineBefore_iff : ∀ front a b rest, stream.all = front ++ a :: b :: rest →
    (b.newlineBefore = true ↔ ∃ offset, a.span.stop ≤ offset ∧ offset < b.span.start ∧
      t.charAt? offset = some '\n' ∧ ¬stream.Joined t a.span.stop offset)
  /-- a token is the text under its span, and that text is a spelling of its kind -/
  spelled : ∀ token ∈ stream.all,
    t.slice? token.span = some token.text ∧ token.kind.Spelled token.text

end TokenStream

namespace Piece

theorem proper_of_mem {pieces : List Piece} (before behind : List Piece) {piece : Piece}
    (h : Cut pieces) (hp : pieces = before ++ piece :: behind) : piece.Proper (concat behind) := by
  subst hp
  exact (cut_append_right h).1

theorem text_ne_nil_of_proper {piece : Piece} {rest : Text} (h : piece.Proper rest) :
    piece.text ≠ [] := by
  obtain ⟨sort, text⟩ := piece
  cases sort with
  | blank => rcases h with h | h | h | h <;> (rw [h]; exact List.cons_ne_nil _ _)
  | lineFeed => rw [h]; exact List.cons_ne_nil _ _
  | comment =>
    obtain ⟨⟨body, h, _⟩, _⟩ := h
    rw [h]
    exact List.cons_ne_nil _ _
  | token kind => exact h.2.2.1

theorem placed_apart {offset : Nat} {pieces : List Piece} {x y : Span × Piece}
    (hx : x ∈ placed offset pieces) (hy : y ∈ placed offset pieces) :
    x = y ∨ x.1.stop ≤ y.1.start ∨ y.1.stop ≤ x.1.start := by
  induction pieces generalizing offset with
  | nil => exact absurd hx List.not_mem_nil
  | cons piece pieces ih =>
    rcases List.mem_cons.mp hx with rfl | hx' <;> rcases List.mem_cons.mp hy with rfl | hy'
    · exact Or.inl rfl
    · exact Or.inr (Or.inl (start_le_of_mem_placed hy').1)
    · exact Or.inr (Or.inr (start_le_of_mem_placed hx').1)
    · exact ih hx' hy'

end Piece

namespace TokenStream

section
variable {pieces : List Piece} (hcut : Piece.Cut pieces)

theorem mem_placed_of_token {offset : Nat} {space newline : Bool} {token : Token}
    (h : token ∈ (place offset space newline pieces).tokens) :
    (token.span, (⟨.token token.kind, token.text⟩ : Piece)) ∈ Piece.placed offset pieces := by
  have := List.mem_map_of_mem (f := fun token : Token =>
    (token.span, (⟨.token token.kind, token.text⟩ : Piece))) h
  rw [place_tokens] at this
  exact (List.mem_filter.mp this).1

theorem mem_placed_of_comment {offset : Nat} {space newline : Bool} {comment : Span}
    (h : comment ∈ (place offset space newline pieces).comments) :
    ∃ text, (comment, (⟨.comment, text⟩ : Piece)) ∈ Piece.placed offset pieces := by
  rw [place_comments] at h
  obtain ⟨⟨span, sort, text⟩, hx, rfl⟩ := List.mem_map.mp h
  obtain ⟨hmem, hsort⟩ := List.mem_filter.mp hx
  cases sort with
  | comment => exact ⟨text, hmem⟩
  | blank => exact absurd hsort (by simp [Piece.isComment])
  | lineFeed => exact absurd hsort (by simp [Piece.isComment])
  | token kind => exact absurd hsort (by simp [Piece.isComment])

theorem mem_comments_of_placed {offset : Nat} {space newline : Bool} {comment : Span} {text : Text}
    (h : (comment, (⟨.comment, text⟩ : Piece)) ∈ Piece.placed offset pieces) :
    comment ∈ (place offset space newline pieces).comments := by
  rw [place_comments]
  exact List.mem_map.mpr ⟨_, List.mem_filter.mpr ⟨h, rfl⟩, rfl⟩

theorem mem_tokens_of_placed {offset : Nat} (space newline : Bool) {span : Span}
    {kind : Token.Kind} {text : Text}
    (h : (span, (⟨.token kind, text⟩ : Piece)) ∈ Piece.placed offset pieces) :
    ∃ token ∈ (place offset space newline pieces).tokens, token.span = span := by
  have hmem : (span, (⟨.token kind, text⟩ : Piece))
      ∈ (Piece.placed offset pieces).filter (fun x => x.2.isToken) :=
    List.mem_filter.mpr ⟨h, rfl⟩
  rw [← place_tokens offset space newline] at hmem
  obtain ⟨token, htoken, he⟩ := List.mem_map.mp hmem
  exact ⟨token, htoken, (Prod.mk.inj he).1⟩

/-! ## order -/

theorem place_tokens_ordered (offset : Nat) (space newline : Bool) :
    (place offset space newline pieces).all.Pairwise (fun a b => a.span.stop ≤ b.span.start) := by
  refine List.pairwise_append.mpr ⟨?_, List.pairwise_singleton _ _, ?_⟩
  · have h := (Piece.placed_pairwise offset pieces).filter (fun x => x.2.isToken)
    rw [← place_tokens offset space newline] at h
    exact List.pairwise_map.mp h
  · intro token htoken eof heof
    rw [List.mem_singleton] at heof
    rw [heof, (place_eof offset space newline pieces).2.2]
    exact (Piece.start_le_of_mem_placed (mem_placed_of_token htoken)).2

theorem place_comments_ordered (offset : Nat) (space newline : Bool) :
    (place offset space newline pieces).comments.Pairwise (fun a b => a.stop ≤ b.start) := by
  rw [place_comments]
  exact List.pairwise_map.mpr ((Piece.placed_pairwise offset pieces).filter _)

theorem place_disjoint (offset : Nat) (space newline : Bool) :
    ∀ token ∈ (place offset space newline pieces).all,
      ∀ comment ∈ (place offset space newline pieces).comments,
        token.span.stop ≤ comment.start ∨ comment.stop ≤ token.span.start := by
  intro token htoken comment hcomment
  obtain ⟨text, hc⟩ := mem_placed_of_comment hcomment
  rcases List.mem_append.mp htoken with htoken | htoken
  · rcases Piece.placed_apart (mem_placed_of_token htoken) hc with he | h | h
    · exact absurd he (by simp)
    · exact Or.inl h
    · exact Or.inr h
  · rw [List.mem_singleton] at htoken
    right
    rw [htoken, (place_eof offset space newline pieces).2.2]
    exact (Piece.start_le_of_mem_placed hc).2

/-! ## what stands between tokens -/

include hcut in
theorem place_filler (space newline : Bool) (front : Text) (c : Char) (rest : Text)
    (h : Piece.concat pieces = front ++ c :: rest) :
    (∃ token ∈ (place 0 space newline pieces).tokens,
      token.span.start ≤ front.size ∧ front.size + c.utf8Size ≤ token.span.stop) ∨
    (∃ comment ∈ (place 0 space newline pieces).comments,
      comment.start ≤ front.size ∧ front.size + c.utf8Size ≤ comment.stop) ∨
    isFiller c rest := by
  obtain ⟨before, ⟨sort, text⟩, behind, inner, outer, hp, htext, hrest, hmem, hsize⟩ :=
    Piece.exists_mem_placed 0 h
  have hproper := Piece.proper_of_mem _ _ hcut hp
  have hcover : (Piece.concat before).size ≤ front.size ∧
      front.size + c.utf8Size ≤ (Piece.concat before).size + Text.size text := by
    have e : Text.size text = Text.size inner + (c.utf8Size + Text.size outer) := by
      show Text.size (⟨sort, text⟩ : Piece).text = _
      rw [htext, Text.size_append, Text.size_cons]
    omega
  rw [Nat.zero_add] at hmem
  cases sort with
  | token kind =>
    obtain ⟨token, htoken, hspan⟩ := mem_tokens_of_placed space newline hmem
    exact Or.inl ⟨token, htoken, by rw [hspan]; exact hcover⟩
  | comment => exact Or.inr (Or.inl ⟨_, mem_comments_of_placed hmem, hcover⟩)
  | lineFeed =>
    have e : (['\n'] : Text) = inner ++ c :: outer := hproper.symm.trans htext
    have hc : c ∈ (['\n'] : Text) := by rw [e]; simp
    rw [List.mem_singleton] at hc
    exact Or.inr (Or.inr (Or.inr (Or.inr (Or.inr (Or.inl hc)))))
  | blank =>
    right
    right
    have hmem' : c ∈ text := by
      show c ∈ (⟨.blank, text⟩ : Piece).text
      rw [htext]
      simp
    rcases hproper with h | h | h | h
    · rw [show text = [' '] from h, List.mem_singleton] at hmem'
      exact Or.inl hmem'
    · rw [show text = ['\t'] from h, List.mem_singleton] at hmem'
      exact Or.inr (Or.inl hmem')
    · rw [show text = ['\r'] from h, List.mem_singleton] at hmem'
      exact Or.inr (Or.inr (Or.inl hmem'))
    · have e : (['\\', '\n'] : Text) = inner ++ c :: outer := h.symm.trans htext
      cases inner with
      | nil =>
        obtain ⟨rfl, rfl⟩ := List.cons.inj e
        exact Or.inr (Or.inr (Or.inr (Or.inr ⟨rfl, by rw [hrest]; rfl⟩)))
      | cons d ds =>
        have hc : c ∈ (['\n'] : Text) := by rw [(List.cons.inj e).2]; simp
        rw [List.mem_singleton] at hc
        exact Or.inr (Or.inr (Or.inr (Or.inl hc)))

include hcut in
theorem place_comments_extent (space newline : Bool) :
    ∀ comment ∈ (place 0 space newline pieces).comments,
      ∃ body, (Piece.concat pieces).slice? comment = some ('#' :: body) ∧ '\n' ∉ body ∧
        (comment.stop = (Piece.concat pieces).size ∨
          (Piece.concat pieces).charAt? comment.stop = some '\n') := by
  intro comment hcomment
  obtain ⟨text, hc⟩ := mem_placed_of_comment hcomment
  have hslice := Piece.slice?_of_mem_placed hc
  obtain ⟨before, behind, hp, hstart, hstop⟩ := Piece.exists_of_mem_placed hc
  obtain ⟨⟨body, htext, hbody⟩, hrest⟩ := Piece.proper_of_mem _ _ hcut hp
  dsimp only at hslice hstart hstop htext hp
  refine ⟨body, by rw [hslice, htext], hbody, ?_⟩
  have hall : Piece.concat pieces = (Piece.concat before ++ text) ++ Piece.concat behind := by
    rw [hp, Piece.concat_append, Piece.concat_cons, List.append_assoc]
  have hsize : (Piece.concat before ++ text).size = comment.stop := by
    rw [Text.size_append]
    omega
  rcases hrest with hnil | hhead
  · left
    rw [hall, hnil, List.append_nil, hsize]
  · right
    obtain ⟨after, hafter⟩ := List.head?_eq_some_iff.mp hhead
    exact Text.charAt?_eq_some.mpr ⟨_, after, by rw [hall, hafter], hsize⟩

/-! ## flags -/

theorem place_spaceBefore (hcut : Piece.Cut pieces) (space newline : Bool) (front : List Token)
    (a b : Token) (rest : List Token)
    (h : (place 0 space newline pieces).all = front ++ a :: b :: rest) :
    b.spaceBefore = true ↔ a.span.stop < b.span.start := by
  obtain ⟨before, piece, lead, behind, hp, _, _, hb, hspace, _⟩ := place_gap _ _ _ _ _ _ _ _ h
  rw [hspace, hb]
  cases lead with
  | nil => simp [Piece.concat_nil]
  | cons first lead =>
    have hproper : first.Proper _ :=
      Piece.proper_of_mem (before ++ [piece]) (lead ++ behind) hcut
        (by rw [hp]; simp)
    have := Text.size_pos_of_ne_nil (Piece.text_ne_nil_of_proper hproper)
    rw [Piece.concat_cons, Text.size_append]
    simp
    omega

/-- the character behind some pieces and some characters of the next piece -/
theorem charAt?_concat (before behind : List Piece) {piece : Piece} {inner outer : Text} {c : Char}
    (h : piece.text = inner ++ c :: outer) :
    (Piece.concat (before ++ piece :: behind)).charAt? ((Piece.concat before).size + inner.size)
      = some c := by
  refine Text.charAt?_eq_some.mpr
    ⟨Piece.concat before ++ inner, outer ++ Piece.concat behind, ?_, Text.size_append _ _⟩
  rw [Piece.concat_append, Piece.concat_cons, h]
  simp

/-- A line feed that is a piece of its own is joined to no backslash: the piece before it ends in
another character, or is a comment that the backslash belongs to. -/
theorem not_joined_of_lineFeed (hcut : Piece.Cut pieces) (space newline : Bool)
    (fixed lead behind : List Piece) (piece : Piece)
    (hp : pieces = fixed ++ (lead ++ piece :: behind))
    (hlead : ∀ piece ∈ lead, piece.isToken = false) :
    ¬(place 0 space newline pieces).Joined (Piece.concat pieces) (Piece.concat fixed).size
      ((Piece.concat fixed).size + (Piece.concat lead).size) := by
  rintro ⟨hlt, hchar, hfree⟩
  rcases List.eq_nil_or_concat lead with rfl | ⟨lead, last, rfl⟩
  · rw [Piece.concat_nil, Text.size_nil] at hlt
    omega
  rw [List.concat_eq_append] at hlt hchar hfree hp hlead
  have hp' : pieces = (fixed ++ lead) ++ last :: (piece :: behind) := by rw [hp]; simp
  have hproper := Piece.proper_of_mem _ _ hcut hp'
  have hne := Text.size_pos_of_ne_nil (Piece.text_ne_nil_of_proper hproper)
  have hsize : (Piece.concat fixed).size + (Piece.concat (lead ++ [last])).size
      = (Piece.concat (fixed ++ lead)).size + last.text.size := by
    rw [Piece.concat_append, Piece.concat_append, Piece.concat_cons, Piece.concat_nil,
      List.append_nil, Text.size_append, Text.size_append, Nat.add_assoc]
  -- the last character of a piece that takes one byte is the one in front of the line feed
  have other : ∀ (inner : Text) (c : Char), c.utf8Size = 1 → c ≠ '\\' → last.text ≠ inner ++ [c] := by
    intro inner c hc hne' htext
    have e : (Piece.concat fixed).size + (Piece.concat (lead ++ [last])).size - 1
        = (Piece.concat (fixed ++ lead)).size + Text.size inner := by
      rw [hsize, htext, Text.size_append, Text.size_cons, Text.size_nil]
      omega
    have := charAt?_concat (fixed ++ lead) (piece :: behind) htext
    rw [← hp', ← e, hchar] at this
    exact hne' (Option.some.inj this).symm
  obtain ⟨sort, text⟩ := last
  cases sort with
  | token kind => exact absurd (hlead ⟨.token kind, text⟩ (by simp)) (by simp [Piece.isToken])
  | lineFeed => exact other [] '\n' rfl (by decide) hproper
  | blank =>
    rcases hproper with h | h | h | h
    · exact other [] ' ' rfl (by decide) h
    · exact other [] '\t' rfl (by decide) h
    · exact other [] '\r' rfl (by decide) h
    · exact other ['\\'] '\n' rfl (by decide) h
  | comment =>
    have hmem := Piece.mem_placed 0 (fixed ++ lead) (piece :: behind) ⟨.comment, text⟩
    rw [← hp', Nat.zero_add] at hmem
    refine hfree _ (mem_comments_of_placed hmem) ?_
    dsimp only at hne hsize ⊢
    omega

/-- A line feed inside a longer piece between tokens is the second half of a pair. -/
theorem joined_of_inner (hcut : Piece.Cut pieces) (space newline : Bool)
    (fixed lead behind : List Piece) (piece : Piece) (inner outer : Text)
    (hp : pieces = fixed ++ (lead ++ piece :: behind)) (htoken : piece.isToken = false)
    (hfeed : piece.sort ≠ .lineFeed) (htext : piece.text = inner ++ '\n' :: outer) :
    (place 0 space newline pieces).Joined (Piece.concat pieces) (Piece.concat fixed).size
      ((Piece.concat (fixed ++ lead)).size + inner.size) := by
  have hp' : pieces = (fixed ++ lead) ++ piece :: behind := by rw [hp]; simp
  have hproper := Piece.proper_of_mem _ _ hcut hp'
  have hmem := Piece.mem_placed 0 (fixed ++ lead) behind piece
  rw [← hp', Nat.zero_add] at hmem
  have hsize : (Piece.concat (fixed ++ lead)).size
      = (Piece.concat fixed).size + (Piece.concat lead).size := by
    rw [Piece.concat_append, Text.size_append]
  obtain ⟨sort, text⟩ := piece
  -- a text without a line feed cannot be the text of the piece
  have absent : '\n' ∉ text → False := by
    intro h
    apply h
    rw [show text = inner ++ '\n' :: outer from htext]
    simp
  cases sort with
  | token kind => exact absurd htoken (by simp [Piece.isToken])
  | lineFeed => exact absurd rfl hfeed
  | comment =>
    obtain ⟨⟨body, h, hbody⟩, _⟩ := hproper
    refine (absent ?_).elim
    rw [show text = '#' :: body from h]
    simpa using hbody
  | blank =>
    rcases hproper with h | h | h | h
    · exact (absent (by rw [show text = [' '] from h]; decide)).elim
    · exact (absent (by rw [show text = ['\t'] from h]; decide)).elim
    · exact (absent (by rw [show text = ['\r'] from h]; decide)).elim
    · have hinner : inner = ['\\'] := by
        have e : (['\\', '\n'] : Text) = inner ++ '\n' :: outer := h.symm.trans htext
        cases inner with
        | nil => exact absurd (List.cons.inj e).1 (by decide)
        | cons d ds =>
          obtain ⟨rfl, e⟩ := List.cons.inj e
          cases ds with
          | nil => rfl
          | cons d' ds' => exact absurd (List.cons.inj e).2 (by simp)
      subst hinner
      have hone : Text.size ['\\'] = 1 := rfl
      refine ⟨by omega, ?_, ?_⟩
      · have := charAt?_concat (fixed ++ lead) behind
          (show (⟨.blank, text⟩ : Piece).text = [] ++ '\\' :: ['\n'] from h)
        rw [← hp'] at this
        rw [hone, Nat.add_sub_cancel]
        exact this
      · intro comment hcomment hcover
        obtain ⟨body, hc⟩ := mem_placed_of_comment hcomment
        rw [hone, Nat.add_sub_cancel] at hcover
        have hpos : 0 < Text.size text := by
          rw [show text = ['\\', '\n'] from h]
          decide
        rcases Piece.placed_apart hc hmem with he | hle | hle
        · exact absurd he (by simp)
        · dsimp only at hle
          omega
        · dsimp only at hle
          omega

theorem place_newlineBefore (hcut : Piece.Cut pieces) (space newline : Bool) (front : List Token)
    (a b : Token) (rest : List Token)
    (h : (place 0 space newline pieces).all = front ++ a :: b :: rest) :
    b.newlineBefore = true ↔ ∃ offset, a.span.stop ≤ offset ∧ offset < b.span.start ∧
      (Piece.concat pieces).charAt? offset = some '\n' ∧
      ¬(place 0 space newline pieces).Joined (Piece.concat pieces) a.span.stop offset := by
  obtain ⟨before, piece, lead, behind, hp, hlead, ha, hb, _, hnewline⟩ :=
    place_gap _ _ _ _ _ _ _ _ h
  have hp' : pieces = (before ++ [piece]) ++ (lead ++ behind) := by rw [hp]; simp
  generalize before ++ [piece] = fixed at ha hp'
  rw [Nat.zero_add] at ha
  rw [hnewline, List.any_eq_true, hb, ha]
  constructor
  · rintro ⟨found, hmem, hsort⟩
    obtain ⟨l₁, l₂, rfl⟩ := List.append_of_mem hmem
    have hall : pieces = fixed ++ (l₁ ++ found :: (l₂ ++ behind)) := by rw [hp']; simp
    have htext : found.text = [] ++ '\n' :: [] := by
      have := Piece.proper_of_mem (fixed ++ l₁) (l₂ ++ behind) hcut
        (by rw [hall]; simp : pieces = (fixed ++ l₁) ++ found :: (l₂ ++ behind))
      rw [Piece.Proper, of_decide_eq_true hsort] at this
      exact this
    refine ⟨(Piece.concat fixed).size + (Piece.concat l₁).size, by omega, ?_, ?_, ?_⟩
    · rw [Piece.concat_append, Piece.concat_cons, htext, Text.size_append, Text.size_append]
      have : 0 < Text.size ([] ++ ['\n']) := by decide
      omega
    · have := charAt?_concat (fixed ++ l₁) (l₂ ++ behind) htext
      rw [Piece.concat_append fixed l₁, Text.size_append] at this
      rw [hall]
      simpa using this
    · exact not_joined_of_lineFeed hcut space newline fixed l₁ (l₂ ++ behind) found hall
        (fun piece hpiece => hlead piece (by simp [hpiece]))
  · rintro ⟨offset, hle, hlt, hchar, hjoined⟩
    obtain ⟨front, rest, ht, hfront⟩ := Text.charAt?_eq_some.mp hchar
    rw [hp', Piece.concat_append, Piece.concat_append] at ht
    obtain ⟨m, rfl, htail⟩ := Text.exists_between ht (by omega)
    rw [Text.size_append] at hfront
    -- the line feed lies in the lead, not behind it
    obtain ⟨m', hm', hrest⟩ : ∃ m', Piece.concat lead = m ++ m' ∧ '\n' :: rest = m' ++ Piece.concat behind := by
      obtain ⟨m', hm', hrest⟩ := Text.exists_between htail.symm (by omega)
      exact ⟨m', hm', hrest⟩
    obtain ⟨m'', rfl⟩ : ∃ m'', m' = '\n' :: m'' := by
      cases m' with
      | nil =>
        rw [List.append_nil] at hm'
        rw [hm'] at hlt
        omega
      | cons d ds => exact ⟨ds, by rw [(List.cons.inj hrest).1]⟩
    obtain ⟨l₁, found, l₂, inner, outer, rfl, htext, _, _, hsize⟩ :=
      Piece.exists_mem_placed 0 hm'
    have hall : pieces = fixed ++ (l₁ ++ found :: (l₂ ++ behind)) := by rw [hp']; simp
    refine ⟨found, by simp, ?_⟩
    apply decide_eq_true
    apply Classical.byContradiction
    intro hsort
    apply hjoined
    have := joined_of_inner hcut space newline fixed l₁ (l₂ ++ behind) found inner outer hall
      (hlead found (by simp)) hsort htext
    have e : (Piece.concat (fixed ++ l₁)).size + Text.size inner = offset := by
      rw [Piece.concat_append, Text.size_append]
      omega
    rwa [e] at this

/-! ## spellings -/

/-- a token is the text under its span, and that text is a spelling of its kind -/
theorem place_spelled (hcut : Piece.Cut pieces) (space newline : Bool) :
    ∀ token ∈ (place 0 space newline pieces).all,
      (Piece.concat pieces).slice? token.span = some token.text ∧
        token.kind.Spelled token.text := by
  intro token htoken
  rcases List.mem_append.mp htoken with htoken | htoken
  · have hmem := mem_placed_of_token htoken
    obtain ⟨before, behind, hp, _, _⟩ := Piece.exists_of_mem_placed hmem
    exact ⟨Piece.slice?_of_mem_placed hmem, (Piece.proper_of_mem _ _ hcut hp).1⟩
  · obtain ⟨hkind, htext, hspan⟩ := place_eof 0 space newline pieces
    rw [Nat.zero_add] at hspan
    rw [List.mem_singleton] at htoken
    subst htoken
    rw [hkind, htext, hspan]
    exact ⟨Text.slice?_eq_some.mpr ⟨_, [], by simp, rfl, rfl⟩, rfl⟩

theorem place_tokens_nonempty (hcut : Piece.Cut pieces) (space newline : Bool) :
    ∀ token ∈ (place 0 space newline pieces).tokens,
      token.span.start < token.span.stop ∧ token.kind ≠ .eof := by
  intro token htoken
  obtain ⟨before, behind, hp, _, hstop⟩ :=
    Piece.exists_of_mem_placed (mem_placed_of_token htoken)
  have hproper := Piece.proper_of_mem _ _ hcut hp
  have hpos := Text.size_pos_of_ne_nil hproper.2.2.1
  dsimp only at hstop hpos
  exact ⟨by omega, hproper.2.1⟩

end

/-! ## the whole stream -/

theorem exists_pieces_of_read {t : Text} {stream : TokenStream} (h : read t = .ok stream) :
    ∃ pieces, Piece.concat pieces = t ∧ Piece.Cut pieces ∧ stream = place 0 true true pieces := by
  unfold read at h
  cases hr : Piece.readAll 0 t with
  | error e => rw [hr] at h; exact absurd h (by simp [Except.map])
  | ok pieces =>
    rw [hr] at h
    injection h with h
    obtain ⟨hcat, hcut⟩ := Piece.readAll_cut 0 t pieces hr
    exact ⟨pieces, hcat, hcut, h.symm⟩

/-- **Reading a text into tokens and comments loses nothing.** -/
theorem read_lossless (t : Text) (stream : TokenStream) (h : read t = .ok stream) :
    stream.Lossless t := by
  obtain ⟨pieces, rfl, hcut, rfl⟩ := exists_pieces_of_read h
  have heof := place_eof 0 true true pieces
  rw [Nat.zero_add] at heof
  have hspelled := place_spelled hcut true true
  refine
    { tokens_ordered := place_tokens_ordered 0 true true
      comments_ordered := place_comments_ordered 0 true true
      disjoint := place_disjoint 0 true true
      tokens_nonempty := place_tokens_nonempty hcut true true
      eof_last := ⟨heof.1, heof.2.2⟩
      tokens_boundary := fun token htoken =>
        Text.isBoundary_of_slice? (hspelled token htoken).1
      comments_boundary := ?_
      filler := place_filler hcut true true
      comments_extent := place_comments_extent hcut true true
      first_flags := ?_
      spaceBefore_iff := place_spaceBefore hcut true true
      newlineBefore_iff := place_newlineBefore hcut true true
      spelled := hspelled }
  · intro comment hcomment
    obtain ⟨text, hc⟩ := mem_placed_of_comment hcomment
    exact Text.isBoundary_of_slice? (Piece.slice?_of_mem_placed hc)
  · intro token htoken
    obtain ⟨_, _, _, _, _, hspace, hnewline⟩ := place_first _ _ _ _ _ htoken
    exact ⟨by simpa using hspace, by simpa using hnewline⟩

/-- a comment that ends in a backslash, a label with a mark and a quoted text past ASCII -/
theorem read_lossless_backslash_comment :
    ∃ stream, read "a # b\\\nc?: 'é'".toList = .ok stream ∧
      stream.all.map (fun token => (token.span, token.newlineBefore))
        = [(⟨0, 1⟩, true), (⟨7, 10⟩, true), (⟨11, 15⟩, false), (⟨15, 15⟩, false)] ∧
      stream.comments = [⟨2, 6⟩] ∧ stream.Lossless "a # b\\\nc?: 'é'".toList := by
  have hshape : (read "a # b\\\nc?: 'é'".toList).toOption.map
      (fun stream => (stream.all.map (fun token => (token.span, token.newlineBefore)), stream.comments))
      = some ([(⟨0, 1⟩, true), (⟨7, 10⟩, true), (⟨11, 15⟩, false), (⟨15, 15⟩, false)], [⟨2, 6⟩]) := by
    decide +kernel
  cases h : read "a # b\\\nc?: 'é'".toList with
  | error e =>
    rw [h] at hshape
    cases hshape
  | ok stream =>
    rw [h] at hshape
    obtain ⟨htokens, hcomments⟩ := Prod.mk.inj (Option.some.inj hshape)
    exact ⟨stream, rfl, htokens, hcomments, read_lossless _ _ h⟩

end TokenStream

end Collate
