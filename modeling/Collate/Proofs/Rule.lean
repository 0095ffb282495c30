import Collate.Lint
import Collate.Proofs.Sequence.Layout

/-!
# Rules on placed documents

No rule fails on a placed document: an offense is anchored at characters of the text, and its edit,
if it has one, fits.
-/

namespace Collate

/-- the offense is anchored in the text, and its edit fits -/
structure Offense.Fits (t : Text) (o : Offense) : Prop where
  anchored : ∃ text, t.slice? o.anchor = some text
  edit_fits : ∀ e, o.edit = some e → e.Fits t

variable {d : Document}

theorem Offense.ofOrder_safe {s : Sequence} {anchor : Span} {text : Text} (h : s.Fits d.text)
    (hanchor : d.text.slice? anchor = some text) (rule : Rule) (policy : Policy) :
    Attempt.Safe (Offense.ofOrder d rule anchor s policy) (Offense.Fits d.text) := by
  unfold Offense.ofOrder
  dsimp only
  split
  next => exact Attempt.safe_failure
  next =>
    split
    next => exact Attempt.safe_pure ⟨⟨text, hanchor⟩, fun _ he => nomatch he⟩
    next =>
      refine (Attempt.safe_lift (Sequence.edit_safe h (policy.order_lt s.entries))).bind ?_
      intro edit hedit
      refine Attempt.safe_pure ⟨⟨text, hanchor⟩, ?_⟩
      intro e he
      rw [← Option.some.inj he]
      exact hedit

namespace Rule

theorem checkLiteral_safe (h : d.Placed) (s : RuleSettings) (id : Nat) :
    Attempt.Safe (checkLiteral s d id) (Offense.Fits d.text) := by
  unfold checkLiteral
  refine (Document.eligibleLiteral_safe h id _).bind ?_
  rintro entries ⟨hentries, hid, hne⟩
  obtain ⟨text, htext, -⟩ := h.source_eq hid hne
  refine (Attempt.safe_lift (Document.anyCorrectable_safe h _ _ _)).bind ?_
  intro waits _
  split
  next => exact Attempt.safe_failure
  next => exact Offense.ofOrder_safe hentries htext _ _

theorem checkKeywords_safe (h : d.Placed) (s : RuleSettings) (id : Nat) :
    Attempt.Safe (checkKeywords s d id) (Offense.Fits d.text) := by
  unfold checkKeywords
  refine (Document.keywordSequence_safe h id _).bind ?_
  rintro entries ⟨hentries, hid, hne⟩
  obtain ⟨text, htext, -⟩ := h.source_eq hid hne
  exact Offense.ofOrder_safe hentries htext _ _

theorem checkSymbols_safe (h : d.Placed) (s : RuleSettings) (id : Nat) :
    Attempt.Safe (checkSymbols s d id) (Offense.Fits d.text) := by
  unfold checkSymbols
  split
  next receiver method selector args hnode =>
    obtain ⟨hid, hne⟩ := h.inner (by rw [hnode]; simp) (by rw [hnode]; simp)
    have hmarked := h.marked hid hne hnode
    refine (Document.symbolSequence_safe h id _).bind ?_
    intro entries hentries
    exact Offense.ofOrder_safe hentries hmarked.1 _ _
  next => exact Attempt.safe_failure

theorem checkDefinition_safe (h : d.Placed) (id : Nat) :
    Attempt.Safe (checkDefinition d id) (Offense.Fits d.text) := by
  unfold checkDefinition
  split
  next keyword name singleton params body hnode =>
    obtain ⟨hid, hne⟩ := h.inner (by rw [hnode]; simp) (by rw [hnode]; simp)
    obtain ⟨text, htext⟩ := (h.marked hid hne hnode).1
    refine (Document.parameterSequence_safe h id).bind ?_
    intro entries hentries
    exact Offense.ofOrder_safe hentries htext _ _
  next => exact Attempt.safe_failure

theorem redundantKey_safe (h : d.Placed) (id : Nat) :
    Attempt.Safe (d.redundantKey id) (fun _ => id < d.nodes.size ∧ id ≠ d.root) := by
  unfold Document.redundantKey
  split
  next key value hnode =>
    obtain ⟨hid, hne⟩ := h.inner (by rw [hnode]; simp) (by rw [hnode]; simp)
    obtain ⟨text, -, hsource⟩ := h.source_eq hid hne
    split
    next name held hname hheld =>
      split
      next =>
        refine (Attempt.safe_lift (P := fun _ => True) ⟨text, hsource, trivial⟩).bind ?_
        intro source _
        split
        next => exact Attempt.safe_failure
        next => exact Attempt.safe_pure ⟨hid, hne⟩
      next => exact Attempt.safe_failure
    next => exact Attempt.safe_failure
  next => exact Attempt.safe_failure

theorem checkShorthand_safe (h : d.Placed) (id : Nat) :
    Attempt.Safe (checkShorthand d id) (Offense.Fits d.text) := by
  unfold checkShorthand
  refine (redundantKey_safe h id).bind ?_
  rintro key ⟨hid, hne⟩
  obtain ⟨text, htext, -⟩ := h.source_eq hid hne
  split
  next => exact Attempt.safe_failure
  next =>
    split
    next => exact Attempt.safe_failure
    next =>
      refine Attempt.safe_pure ⟨⟨text, htext⟩, ?_⟩
      intro e he
      rw [← Option.some.inj he]
      exact ⟨h.table.nonempty hid hne, Text.isBoundary_of_slice? htext⟩

theorem check_safe (h : d.Placed) (rule : Rule) (s : Settings) (id : Nat) :
    Attempt.Safe (rule.check s d id) (Offense.Fits d.text) := by
  cases rule with
  | literalOrder => exact checkLiteral_safe h _ id
  | keywordOrder => exact checkKeywords_safe h _ id
  | symbolOrder => exact checkSymbols_safe h _ id
  | parameterOrder => exact checkDefinition_safe h id
  | shorthand => exact checkShorthand_safe h id

end Rule

end Collate
