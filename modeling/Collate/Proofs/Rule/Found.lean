import Collate.Proofs.Rule
import Collate.Proofs.Sequence.Arrangement

/-!
# What a rule finds

A rule finds nothing, or an ordering rule finds the sequence of its construct out of order, or the
shorthand rule finds a pair that repeats its key.

* `Rule.find`         what a rule finds at a node;
* `Rule.sequence`     the sequence that an ordering rule looks at;
* `Rule.find_cases`   all that a rule can find.
-/

namespace Collate

def Rule.find (rule : Rule) (s : Settings) (d : Document) (id : Nat) : Option Offense :=
  (rule.check s d id).value

namespace Offense
variable {d : Document} {rule : Rule} {anchor : Span} {q : Sequence} {policy : Policy} {o : Offense}

theorem ofOrder_value (h : (ofOrder d rule anchor q policy).value = some o) :
    isIdentity (policy.order q.entries) = false ∧ o.rule = rule ∧ o.anchor = anchor ∧
      (o.note = none ∨ o.note = some looseCommentNote) ∧ ∀ e, o.edit = some e → q.hasLooseComment d.comments = false ∧
        q.edit d.text (policy.order q.entries) = .ok e := by
  simp only [ofOrder] at h
  split at h
  next => exact nomatch h
  next hmoved =>
    refine ⟨Bool.not_eq_true _ ▸ hmoved, ?_⟩
    split at h
    next =>
      rw [← Option.some.inj h]
      exact ⟨rfl, rfl, .inr rfl, fun e he => nomatch he⟩
    next hloose =>
      rw [Attempt.value_bind, Option.bind_eq_some_iff] at h
      obtain ⟨edit, hedit, ho⟩ := h
      rw [← Option.some.inj ho]
      refine ⟨rfl, rfl, .inl rfl, fun e he => ⟨Bool.not_eq_true _ ▸ hloose, ?_⟩⟩
      rw [← Option.some.inj he]
      exact Attempt.value_liftM.mp hedit

theorem ofOrder_message (h : (ofOrder d rule anchor q policy).value = some o) :
    o.message = rule.message := by
  simp only [ofOrder] at h
  split at h
  next => exact nomatch h
  next =>
    split at h
    next => rw [← Option.some.inj h]
    next =>
      rw [Attempt.value_bind, Option.bind_eq_some_iff] at h
      obtain ⟨edit, -, ho⟩ := h
      rw [← Option.some.inj ho]

theorem exists_ofOrder (rule : Rule) (anchor : Span) (h : q.Fits d.text)
    (hmoved : isIdentity (policy.order q.entries) = false) :
    ∃ o, (ofOrder d rule anchor q policy).value = some o ∧
      (q.hasLooseComment d.comments = false → o.edit.isSome = true) := by
  have hmoved : ¬ isIdentity (policy.order q.entries) = true := Bool.not_eq_true _ ▸ hmoved
  simp only [ofOrder, if_neg hmoved]
  by_cases hloose : q.hasLooseComment d.comments = true
  · rw [if_pos hloose]
    exact ⟨_, rfl, fun hfree => absurd hloose (by simp [hfree])⟩
  · obtain ⟨edit, hedit, -⟩ := Sequence.edit_safe h (policy.order_lt q.entries)
    rw [if_neg hloose, Attempt.value_bind, Attempt.value_liftM.mpr hedit]
    exact ⟨_, rfl, fun _ => rfl⟩

end Offense

namespace Rule
variable {d : Document} {id : Nat} {s : Settings} {o : Offense}

def sequence (rule : Rule) (s : Settings) (d : Document) (id : Nat) : Option Sequence :=
  match rule with
  | .literalOrder => (d.eligibleLiteral id (s.rule rule.name).excludeMethods).value
  | .keywordOrder => (d.keywordSequence id (s.rule rule.name).methods).value
  | .symbolOrder => (d.symbolSequence id (s.rule rule.name).methods).value
  | .parameterOrder => (d.parameterSequence id).value
  | .shorthand => none

theorem sequence_fits (h : d.Placed) {rule : Rule} {q : Sequence}
    (hq : rule.sequence s d id = some q) : q.Fits d.text := by
  cases rule with
  | literalOrder => exact ((Document.eligibleLiteral_safe h id _).of_value hq).1
  | keywordOrder => exact ((Document.keywordSequence_safe h id _).of_value hq).1
  | symbolOrder => exact (Document.symbolSequence_safe h id _).of_value hq
  | parameterOrder => exact (Document.parameterSequence_safe h id).of_value hq
  | shorthand => exact nomatch hq

def OrderFound (rule : Rule) (s : Settings) (d : Document) (id : Nat) (o : Offense) : Prop :=
  ∃ q anchor policy, rule.sequence s d id = some q ∧
    (Offense.ofOrder d rule anchor q policy).value = some o

def ShorthandFound (d : Document) (id : Nat) (o : Offense) : Prop :=
  ∃ key, (d.redundantKey id).value = some key ∧
    d.hasCommentOn (d.text.firstLine (d.span id)) = false ∧
    o = ⟨shorthand, shorthandMessage (String.ofList key), d.span id,
      some ⟨d.span id, key ++ [':']⟩, none⟩

/-- how a rule orders the entries of a sequence -/
def policy (rule : Rule) (s : Settings) : Policy :=
  match rule with
  | .literalOrder | .keywordOrder => ⟨(s.rule rule.name).shorthandsFirst⟩
  | .symbolOrder | .parameterOrder | .shorthand => .alphabetical

/-- an ordering rule finds that its sequence is not in the order of its policy -/
theorem find_ordered {rule : Rule} (hrule : rule ≠ .shorthand) (hfound : rule.find s d id = some o) :
    ∃ q anchor, rule.sequence s d id = some q ∧
      (Offense.ofOrder d rule anchor q (rule.policy s)).value = some o := by
  cases rule with
  | literalOrder =>
    obtain ⟨q, hq, hfound⟩ := Option.bind_eq_some_iff.mp ((Attempt.value_bind ..).symm.trans hfound)
    obtain ⟨waits, -, hfound⟩ := Option.bind_eq_some_iff.mp ((Attempt.value_bind ..).symm.trans hfound)
    split at hfound
    next => exact nomatch hfound
    next => exact ⟨q, _, hq, hfound⟩
  | keywordOrder =>
    obtain ⟨q, hq, hfound⟩ := Option.bind_eq_some_iff.mp ((Attempt.value_bind ..).symm.trans hfound)
    exact ⟨q, _, hq, hfound⟩
  | symbolOrder =>
    simp only [find, check, checkSymbols] at hfound
    split at hfound
    next =>
      obtain ⟨q, hq, hfound⟩ := Option.bind_eq_some_iff.mp ((Attempt.value_bind ..).symm.trans hfound)
      exact ⟨q, _, hq, hfound⟩
    next => exact nomatch hfound
  | parameterOrder =>
    simp only [find, check, checkDefinition] at hfound
    split at hfound
    next =>
      obtain ⟨q, hq, hfound⟩ := Option.bind_eq_some_iff.mp ((Attempt.value_bind ..).symm.trans hfound)
      exact ⟨q, _, hq, hfound⟩
    next => exact nomatch hfound
  | shorthand => exact absurd rfl hrule

theorem find_cases {rule : Rule} (hfound : rule.find s d id = some o) :
    rule.OrderFound s d id o ∨ (rule = .shorthand ∧ ShorthandFound d id o) := by
  by_cases hrule : rule = .shorthand
  · subst hrule
    obtain ⟨key, hkey, hfound⟩ := Option.bind_eq_some_iff.mp ((Attempt.value_bind ..).symm.trans hfound)
    split at hfound
    next => exact nomatch hfound
    next hcomment =>
      split at hfound
      next => exact nomatch hfound
      next =>
        exact .inr ⟨rfl, key, hkey, Bool.not_eq_true _ ▸ hcomment, (Option.some.inj hfound).symm⟩
  · obtain ⟨q, anchor, hq, hfound⟩ := find_ordered hrule hfound
    exact .inl ⟨q, anchor, _, hq, hfound⟩

theorem find_rule {rule : Rule} (hfound : rule.find s d id = some o) : o.rule = rule := by
  rcases find_cases hfound with ⟨q, anchor, policy, -, ho⟩ | ⟨rfl, key, -, -, rfl⟩
  · exact (Offense.ofOrder_value ho).2.1
  · rfl

theorem find_note {rule : Rule} (hfound : rule.find s d id = some o) :
    o.note = none ∨ o.note = some Offense.looseCommentNote := by
  rcases find_cases hfound with ⟨q, anchor, policy, -, ho⟩ | ⟨rfl, key, -, -, rfl⟩
  · exact (Offense.ofOrder_value ho).2.2.2.1
  · exact .inl rfl

end Rule

end Collate
