import Collate.Proofs.Derivation.Argument

/-!
# The forms of calls and blocks

A call has the arguments that `Slot.Arguments` tells of, and ends where they do.  The block behind it
belongs to the place at which the call stands, and a `do` opens one only where that is free.
-/

namespace Collate

namespace Cursor

/-- the last tokens between two cursors end at an offset -/
def EndsAt (s s' : Cursor) (stop : Nat) : Prop :=
  ∃ mid span, s.Passes mid ∧ mid.Takes s' span ∧ span.stop = stop

theorem Takes.endsAt {s s' s'' mid : Cursor} {span : Span} {stop : Nat} (h : s.Takes s' span)
    (hp : s'.Passes mid) (h' : mid.EndsAt s'' stop) : s.Takes s'' ⟨span.start, stop⟩ := by
  obtain ⟨mid', span', hp', h', rfl⟩ := h'
  exact h.passes_takes (hp.trans hp') h'

end Cursor

namespace Parse
open Cursor
variable {t : Text} {descend : Descent} {place : Place} {s s₀ : Cursor}

/-! ## arguments -/

theorem callArguments_derives (hd : descend.Derives t) (stop : Nat) (hs : s.Valid t) :
    Outcome (callArguments descend stop) s (fun r s' => ∃ slots, Slot.Arguments r.1 slots ∧
      s.Spells slots s' ∧ (s' = s ∧ r.2 = stop ∨ s.EndsAt s' r.2)) ReadError.Any := by
  unfold callArguments
  rw [outcome_bind, outcome_tightParen]
  split
  next hparen =>
    have hk : s.current.kind = .leftParen := by simp_all
    have hopening := passes_advance s
    rw [outcome_bind, outcome_advance]
    refine grouped_derives hs hk (by simp) (by simp)
      (closedArguments_derives hd .rightParen (hopening.valid hs)) ?_
    intro args slots s' hgroup h hpasses hclosing
    exact ⟨slots, .group hgroup, h, .inr ⟨s', _, hopening.trans hpasses, hclosing, rfl⟩⟩
  next =>
    rw [outcome_bind, outcome_startsCommand]
    split
    next =>
      refine (commandArguments_derives hd hs).bind ?_
      intro args s' hargs
      obtain ⟨last, mid, hlast, hpasses, htakes⟩ := hargs.last
      obtain ⟨slots, hitems, h⟩ := hargs
      refine ⟨slots, .command hitems, h, .inr ⟨mid, _, hpasses, htakes, ?_⟩⟩
      show last.span.stop = (args.getLast?.map (·.span.stop)).getD stop
      rw [hlast]
      rfl
    next => exact ⟨[], .none, Spells.nil s, .inl ⟨rfl, rfl⟩⟩

theorem takes_arguments {s' : Cursor} {span : Span} {stop : Nat} (h : s₀.Takes s span)
    (hstop : s' = s ∧ stop = span.stop ∨ s.EndsAt s' stop) : s₀.Takes s' ⟨span.start, stop⟩ := by
  rcases hstop with ⟨rfl, rfl⟩ | hstop
  · exact h
  · exact h.endsAt (Passes.refl s) hstop

/-! ## blocks -/

/-- the body of a block and its closing token, behind the parameters -/
theorem blockBody_derives (hd : descend.Derives t) {opening : Token} {closer : Token.Kind}
    {wanted : String} {owner : Tree} {params : List Tree} {front : List Slot} {s₁ : Cursor}
    (hmarks : opening.kind = .leftBrace ∧ closer = .rightBrace ∨
      place = .free ∧ opening.kind = .keyword .do_ ∧ closer = .keyword .end_)
    (hs₀ : s₀.Valid t) (howner : Reads place s₀ owner s₁) (hopening : s₁.Spells (.own opening :: front) s)
    (hparams : Slot.Piped params front) :
    Outcome (do
        let body ← statements descend .free (fun kind => decide (kind = closer))
        let closing ← expect closer wanted
        return ⟨.block owner params body, owner.span.join closing.span⟩)
      s (Reads place s₀) ReadError.Any := by
  have hs := hopening.passes.valid (howner.takes.valid hs₀)
  refine (statements_derives hd _ hs).bind ?_
  intro body s' hbody
  have hs' := hbody.passes.valid hs
  rw [outcome_bind, outcome_expect]
  split
  next hk =>
    have hne : s'.current.kind ≠ .eof := by
      rw [hk]
      rcases hmarks with ⟨-, rfl⟩ | ⟨-, -, rfl⟩ <;> simp
    have hall := howner.takes.joined hs₀ (hopening.passes.trans hbody.passes) (takes_advance hs' hne)
    rw [← hk] at hmarks
    obtain ⟨tokens, howner⟩ := howner
    obtain ⟨slots, hbody, h⟩ := hbody
    have hrest := (hopening.append h).append (spells_advance hs' hne)
    exact (howner.append hrest).reads hall (.block hmarks hparams hbody tokens owner)
  next => trivial

theorem blockRest_derives (hd : descend.Derives t) {closer : Token.Kind} {wanted : String}
    {owner : Tree} (hs₀ : s₀.Valid t) (howner : Reads place s₀ owner s)
    (hmarks : s.current.kind = .leftBrace ∧ closer = .rightBrace ∨
      place = .free ∧ s.current.kind = .keyword .do_ ∧ closer = .keyword .end_) :
    Outcome (blockRest descend closer wanted owner) s (Reads place s₀) ReadError.Any := by
  have hs := howner.takes.valid hs₀
  have hne : s.current.kind ≠ .eof := by rcases hmarks with ⟨hk, -⟩ | ⟨-, hk, -⟩ <;> simp [hk]
  have hopening := spells_advance hs hne
  have hs' := hopening.passes.valid hs
  unfold blockRest
  rw [outcome_bind, outcome_advance, outcome_withinScope, if_neg (by simp)]
  refine Outcome.mono (Q := Reads place s₀) ?_ fun tree s' ⟨tokens, h⟩ => ⟨tokens, h.locals _ _⟩
  change Outcome _ s.advance _ _
  rw [outcome_bind, outcome_eat]
  split
  next hpipe =>
    dsimp only
    rw [if_pos rfl]
    refine grouped_derives hs' hpipe (by simp) (by simp)
      (closedParameters_derives hd .pipe ((passes_advance s.advance).valid hs')) ?_
    intro params slots s' hgroup h _ _
    exact blockBody_derives hd hmarks hs₀ howner (hopening.append h) (.group hgroup)
  next => exact blockBody_derives hd hmarks hs₀ howner hopening .none

theorem block_derives (hd : descend.Derives t) {owner : Tree} (hs₀ : s₀.Valid t)
    (howner : Reads place s₀ owner s) :
    Outcome (block descend place owner) s (Reads place s₀) ReadError.Any := by
  unfold block
  rw [outcome_bind, outcome_current]
  split
  next => exact howner
  next =>
    split
    next hk => exact blockRest_derives hd hs₀ howner (.inr ⟨rfl, hk, rfl⟩)
    next hk => exact blockRest_derives hd hs₀ howner (.inl ⟨hk, rfl⟩)
    next => exact howner

/-- a call behind its method name, with what stands in front of its arguments -/
theorem call_derives (hd : descend.Derives t) (receiver : Option Tree) {method : Text}
    {selector : Span} {front : List Slot} (hs₀ : s₀.Valid t) (hfront : s₀.Spells front s)
    (htakes : s₀.Takes s ⟨(receiver.map (·.span.start)).getD selector.start, selector.stop⟩)
    (hform : ∀ args slots, Slot.Arguments args slots →
      Form place (.call receiver method selector args) (front ++ slots)) :
    Outcome (call descend place receiver method selector) s (Reads place s₀) ReadError.Any := by
  unfold call
  dsimp only
  refine (callArguments_derives hd selector.stop (htakes.valid hs₀)).bind ?_
  rintro ⟨args, stop⟩ s' ⟨slots, hargs, h, hstop⟩
  have hall := takes_arguments htakes hstop
  exact block_derives hd hs₀ ((hfront.append h).reads hall (hform args slots hargs))

end Parse

end Collate
