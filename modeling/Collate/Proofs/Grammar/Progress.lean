import Collate.Proofs.Grammar.Outcome
import Collate.Proofs.Node.Placed
import Collate.Proofs.Token.Lexeme

/-!
# Progress over tokens

A reader moves its cursor over tokens and never back.  Here is what a cursor promises about the
tokens ahead of it, and what it means to have taken some of them.

* `Cursor.Valid`      the tokens ahead are the last ones of the text, follow each other and are the
                      text under their spans;
* `Cursor.Takes`      the cursor moves over some tokens, from the start of the first to the end
                      of the last;
* `Cursor.Passes`     the cursor moves over any number of tokens;
* `Tree.ReadFrom`     a placed tree whose span is that of the tokens taken;
* `ReadError.Proper`  an error at a character boundary that is not a lack of steps.
-/

namespace Collate

/-- the token is not empty, is the text under its span and a spelling of its kind, and lies apart
from all comments -/
structure Token.Fits (t : Text) (token : Token) : Prop where
  slice : t.slice? token.span = some token.text
  spelled : token.kind.Spelled token.text
  nonempty : token.span.start < token.span.stop
  kind_ne_eof : token.kind ≠ .eof
  apart : ∀ comment ∈ t.comments, token.span.Precedes comment ∨ comment.Precedes token.span

theorem Token.Fits.boundary {t : Text} {token : Token} (h : token.Fits t) :
    t.isBoundary token.span.start = true ∧ t.isBoundary token.span.stop = true :=
  Text.isBoundary_of_slice? h.slice

theorem Token.Fits.clear {t : Text} {token : Token} (h : token.Fits t) {offset : Nat}
    (hstart : token.span.start ≤ offset) (hstop : offset ≤ token.span.stop) : t.Clear offset := by
  intro comment hcomment
  rcases h.apart comment hcomment with hle | hle
  · exact .inl (Nat.le_trans hstop hle)
  · exact .inr (Nat.le_trans hle hstart)

theorem Token.Fits.slice_of_spelled {t text : Text} {token : Token} {kind : Token.Kind}
    (h : token.Fits t) (hk : token.kind = kind) (hspelling : ∀ x, kind.Spelled x → x = text) :
    t.slice? token.span = some text := by
  have hspelled := h.spelled
  rw [hk] at hspelled
  rw [← hspelling _ hspelled]
  exact h.slice

namespace Cursor

/-- the tokens ahead of a cursor are the last ones of the text, follow each other and fit it -/
structure Valid (t : Text) (s : Cursor) : Prop where
  ordered : (s.ahead ++ [s.eof]).Pairwise (fun a b => a.span.Precedes b.span)
  fits : ∀ token ∈ s.ahead, token.Fits t
  eof_kind : s.eof.kind = .eof
  eof_boundary : t.isBoundary s.eof.span.start = true
  suffix : s.ahead <:+ t.tokens

/-- the offset at which the next token begins -/
def offset (s : Cursor) : Nat :=
  s.current.span.start

def Passes (s s' : Cursor) : Prop :=
  ∃ taken, s.ahead = taken ++ s'.ahead ∧ s'.eof = s.eof

/-- the cursor moves over one token or more, from the start of the first to the end of the last -/
def Takes (s s' : Cursor) (span : Span) : Prop :=
  ∃ taken, s.ahead = taken ++ s'.ahead ∧ s'.eof = s.eof ∧
    taken.head?.map (·.span.start) = some span.start ∧
    taken.getLast?.map (·.span.stop) = some span.stop

variable {t : Text} {s s' s'' : Cursor} {span span' : Span}

/-! ## the next token -/

theorem current_cons {token : Token} {rest : List Token} (h : s.ahead = token :: rest) :
    s.current = token := by
  rw [current, h]
  rfl

theorem exists_ahead (hs : s.Valid t) (hk : s.current.kind ≠ .eof) :
    ∃ rest, s.ahead = s.current :: rest := by
  cases h : s.ahead with
  | nil =>
    refine absurd ?_ hk
    rw [current, h]
    exact hs.eof_kind
  | cons token rest => exact ⟨rest, by rw [current_cons h]⟩

theorem Valid.current_fits (hs : s.Valid t) (hk : s.current.kind ≠ .eof) : s.current.Fits t := by
  obtain ⟨rest, h⟩ := exists_ahead hs hk
  exact hs.fits _ (by rw [h]; exact List.mem_cons_self)

theorem Valid.current_mem (hs : s.Valid t) (hk : s.current.kind ≠ .eof) : s.current ∈ t.tokens := by
  obtain ⟨rest, h⟩ := exists_ahead hs hk
  exact hs.suffix.subset (by rw [h]; exact List.mem_cons_self)

theorem Valid.offset_boundary (hs : s.Valid t) : t.isBoundary s.offset = true := by
  unfold offset
  cases h : s.ahead with
  | nil => rw [current, h]; exact hs.eof_boundary
  | cons token rest =>
    rw [current_cons h]
    exact (hs.fits token (by rw [h]; exact List.mem_cons_self)).boundary.1

theorem Valid.stop_le_offset {taken : List Token} {token : Token} (hs : s.Valid t)
    (h : s.ahead = taken ++ s'.ahead) (heof : s'.eof = s.eof) (hmem : token ∈ taken) :
    token.span.stop ≤ s'.offset := by
  have hp := hs.ordered
  rw [h, List.append_assoc, List.pairwise_append] at hp
  refine hp.2.2 token hmem s'.current ?_
  cases h' : s'.ahead with
  | nil =>
    rw [current, h', ← heof]
    simp
  | cons first rest =>
    rw [current_cons h']
    simp

/-! ## moving -/

theorem Passes.refl (s : Cursor) : Passes s s := ⟨[], rfl, rfl⟩

theorem Passes.trans (h : Passes s s') (h' : Passes s' s'') : Passes s s'' := by
  obtain ⟨taken, ha, he⟩ := h
  obtain ⟨taken', ha', he'⟩ := h'
  exact ⟨taken ++ taken', by rw [ha, ha', List.append_assoc], by rw [he', he]⟩

theorem Takes.passes (h : Takes s s' span) : Passes s s' := by
  obtain ⟨taken, ha, he, _⟩ := h
  exact ⟨taken, ha, he⟩

theorem Passes.valid (h : Passes s s') (hs : s.Valid t) : s'.Valid t := by
  obtain ⟨taken, ha, he⟩ := h
  have hp := hs.ordered
  rw [ha, List.append_assoc, List.pairwise_append] at hp
  refine ⟨by rw [he]; exact hp.2.1, fun token hmem => hs.fits token ?_, by rw [he]; exact hs.eof_kind,
    by rw [he]; exact hs.eof_boundary, List.IsSuffix.trans ⟨taken, ha.symm⟩ hs.suffix⟩
  rw [ha]
  exact List.mem_append_right _ hmem

theorem Passes.length_le (h : Passes s s') : s'.ahead.length ≤ s.ahead.length := by
  obtain ⟨taken, ha, _⟩ := h
  rw [ha, List.length_append]
  omega

theorem Passes.offset_le (h : Passes s s') (hs : s.Valid t) : s.offset ≤ s'.offset := by
  obtain ⟨taken, ha, he⟩ := h
  cases taken with
  | nil =>
    rw [offset, offset, current, current, ha, he]
    exact Nat.le_refl _
  | cons token taken =>
    have h₁ := hs.stop_le_offset ha he List.mem_cons_self
    have h₂ := (hs.fits token (by rw [ha]; exact List.mem_cons_self)).nonempty
    have h₃ : s.offset = token.span.start := by
      rw [offset, current, ha]
      rfl
    omega

theorem Takes.valid (h : Takes s s' span) (hs : s.Valid t) : s'.Valid t :=
  h.passes.valid hs

theorem Takes.start_eq (h : Takes s s' span) : span.start = s.offset := by
  obtain ⟨taken, ha, _, hfirst, _⟩ := h
  cases taken with
  | nil => exact absurd hfirst (by simp)
  | cons token taken =>
    rw [offset, current, ha]
    exact (Option.some.inj hfirst).symm

theorem Takes.stop_le (h : Takes s s' span) (hs : s.Valid t) : span.stop ≤ s'.offset := by
  obtain ⟨taken, ha, he, _, hlast⟩ := h
  obtain ⟨token, hl, ht⟩ := Option.map_eq_some_iff.mp hlast
  rw [← ht]
  exact hs.stop_le_offset ha he (List.mem_of_getLast? hl)

theorem Takes.length_lt (h : Takes s s' span) : s'.ahead.length < s.ahead.length := by
  obtain ⟨taken, ha, _, hfirst, _⟩ := h
  cases taken with
  | nil => exact absurd hfirst (by simp)
  | cons token taken =>
    rw [ha, List.length_append, List.length_cons]
    omega

theorem Takes.boundary (h : Takes s s' span) (hs : s.Valid t) :
    t.isBoundary span.start = true ∧ t.isBoundary span.stop = true := by
  obtain ⟨taken, ha, _, hfirst, hlast⟩ := h
  obtain ⟨first, hf, hfs⟩ := Option.map_eq_some_iff.mp hfirst
  obtain ⟨last, hl, hls⟩ := Option.map_eq_some_iff.mp hlast
  rw [← hfs, ← hls]
  constructor
  · exact (hs.fits first (by rw [ha]; exact List.mem_append_left _ (List.mem_of_head? hf))).boundary.1
  · exact (hs.fits last (by rw [ha]; exact List.mem_append_left _ (List.mem_of_getLast? hl))).boundary.2

theorem Takes.clear (h : Takes s s' span) (hs : s.Valid t) :
    t.Clear span.start ∧ t.Clear span.stop := by
  obtain ⟨taken, ha, _, hfirst, hlast⟩ := h
  obtain ⟨first, hf, hfs⟩ := Option.map_eq_some_iff.mp hfirst
  obtain ⟨last, hl, hls⟩ := Option.map_eq_some_iff.mp hlast
  have hfit (token : Token) (hmem : token ∈ taken) : token.Fits t :=
    hs.fits token (by rw [ha]; exact List.mem_append_left _ hmem)
  have hfirst := hfit first (List.mem_of_head? hf)
  have hlast := hfit last (List.mem_of_getLast? hl)
  rw [← hfs, ← hls]
  exact ⟨hfirst.clear (Nat.le_refl _) (Nat.le_of_lt hfirst.nonempty),
    hlast.clear (Nat.le_of_lt hlast.nonempty) (Nat.le_refl _)⟩

theorem Takes.nonempty (h : Takes s s' span) (hs : s.Valid t) : span.start < span.stop := by
  have hstart := h.start_eq
  obtain ⟨taken, ha, _, hfirst, hlast⟩ := h
  obtain ⟨last, hl, hls⟩ := Option.map_eq_some_iff.mp hlast
  have hfits := hs.fits last (by rw [ha]; exact List.mem_append_left _ (List.mem_of_getLast? hl))
  obtain ⟨front, hfront⟩ := List.getLast?_eq_some_iff.mp hl
  -- the last token is the only one, or begins behind the first
  have hle : Passes s { s with ahead := last :: s'.ahead } := ⟨front, by rw [ha, hfront]; simp, rfl⟩
  have h₁ := hle.offset_le hs
  have h₂ : Cursor.offset { s with ahead := last :: s'.ahead } = last.span.start := rfl
  have h₃ := hfits.nonempty
  omega

theorem Takes.trans (h : Takes s s' span) (h' : Takes s' s'' span') :
    Takes s s'' ⟨span.start, span'.stop⟩ := by
  obtain ⟨taken, ha, he, hfirst, _⟩ := h
  obtain ⟨taken', ha', he', _, hlast⟩ := h'
  refine ⟨taken ++ taken', by rw [ha, ha', List.append_assoc], by rw [he', he], ?_, ?_⟩
  · cases taken with
    | nil => exact absurd hfirst (by simp)
    | cons token taken => exact hfirst
  · rw [List.getLast?_append]
    obtain ⟨last, hl, _⟩ := Option.map_eq_some_iff.mp hlast
    rw [hl] at hlast ⊢
    exact hlast

theorem Takes.passes_takes {mid : Cursor} (h : Takes s s' span) (hp : Passes s' mid)
    (h' : Takes mid s'' span') : Takes s s'' ⟨span.start, span'.stop⟩ := by
  obtain ⟨taken, ha, he⟩ := hp
  obtain ⟨taken', ha', he', hf', hlast⟩ := h'
  cases htaken : taken with
  | nil =>
    rw [htaken, List.nil_append] at ha
    exact h.trans ⟨taken', by rw [ha, ha'], by rw [he', he], hf', hlast⟩
  | cons token rest =>
    have hrest : Takes s' s'' ⟨token.span.start, span'.stop⟩ := by
      refine ⟨taken ++ taken', by rw [ha, ha', List.append_assoc], by rw [he', he],
        by rw [htaken]; rfl, ?_⟩
      rw [List.getLast?_append]
      obtain ⟨last, hl, _⟩ := Option.map_eq_some_iff.mp hlast
      rw [hl] at hlast ⊢
      exact hlast
    have hall := h.trans hrest
    exact hall

/-- the spans of two runs of tokens, one behind the other, join to the span of both -/
theorem Takes.join_eq {mid : Cursor} (hs : s.Valid t) (h : Takes s s' span) (hp : Passes s' mid)
    (h' : Takes mid s'' span') : span.join span' = ⟨span.start, span'.stop⟩ := by
  have hs' := h.valid hs
  have h₁ := h.nonempty hs
  have h₂ := h'.nonempty (hp.valid hs')
  have h₃ := h.stop_le hs
  have h₄ := hp.offset_le hs'
  have h₅ := h'.start_eq
  exact Span.join_eq (by omega) (by omega)

theorem Takes.congr (h : Takes s s' span) (ha : s''.ahead = s'.ahead) (he : s''.eof = s'.eof) :
    Takes s s'' span := by
  obtain ⟨taken, h₁, h₂, h₃⟩ := h
  exact ⟨taken, by rw [ha]; exact h₁, by rw [he]; exact h₂, h₃⟩

theorem passes_advance (s : Cursor) : s.Passes s.advance := by
  cases hahead : s.ahead with
  | nil => exact ⟨[], by rw [advance, hahead]; rfl, rfl⟩
  | cons next rest => exact ⟨[next], by rw [advance, hahead]; rfl, rfl⟩

theorem takes_advance (hs : s.Valid t) (hk : s.current.kind ≠ .eof) :
    Takes s s.advance s.current.span := by
  obtain ⟨rest, h⟩ := exists_ahead hs hk
  refine ⟨[s.current], ?_, rfl, rfl, rfl⟩
  rw [advance, h]
  rfl

end Cursor

/-- the tree is placed, and its span is that of the tokens between two cursors -/
structure Tree.ReadFrom (t : Text) (s : Cursor) (tree : Tree) (s' : Cursor) : Prop where
  takes : s.Takes s' tree.span
  placed : tree.Placed t

theorem Tree.ReadFrom.congr {t : Text} {s s' s'' : Cursor} {tree : Tree}
    (h : tree.ReadFrom t s s') (ha : s''.ahead = s'.ahead) (he : s''.eof = s'.eof) :
    tree.ReadFrom t s s'' :=
  ⟨h.takes.congr ha he, h.placed⟩

/-- a construct over the tokens that were taken, from what holds of its children and marks -/
theorem Tree.readFrom_mk {t : Text} {s s' : Cursor} {node : Node Tree} {span : Span}
    (hs : s.Valid t) (htakes : s.Takes s' span) (hchildren : ∀ child ∈ node.children, child.Placed t)
    (hrow : InRow node.inOrder span.start span.stop) (hmarked : node.Marked t span) :
    ReadFrom t s ⟨node, span⟩ s' :=
  ⟨htakes, Placed.mk node span (htakes.nonempty hs) (htakes.boundary hs) (htakes.clear hs) hchildren
    hrow hmarked⟩

/-- the error stands at a character boundary and is not a lack of steps -/
structure ReadError.Proper (t : Text) (e : ReadError) : Prop where
  located : t.isBoundary e.offset = true
  finished : e.cause ≠ .outOfSteps

end Collate
