import Collate.Proofs.Lint
import Collate.Proofs.Node.Ancestors
import Collate.Proofs.Sequence.Arrangement

/-!
# Literals out of order

Which literals the ordering rule for literals is about, said without the rule, and how nested ones
wait for each other: a literal inside one that will be put into order is not reported, and nothing
is lost by that.

* `Document.ArgumentOf`       a literal stands among the arguments of a call of a method;
* `Document.OutOfOrder`       pairs with different names, not in the order of the policy;
* `Document.Correctable`      the guard that makes the literals inside wait;
* `Document.outOfOrder_iff`   the eligible literals that are not in canonical order;
* `Rule.literal_found`, `Rule.exists_literal`   what the rule finds at a literal, and when;
* `Document.Linted.reported_of_outOfOrder`   a literal out of order is reported, or one around it is.
-/

namespace Collate

namespace Document
variable {d : Document} {id : Nat}

def pairName (d : Document) (id : Nat) : Option Text :=
  match d.node id with
  | .pair key _ _ => d.symbolName key
  | _ => none

/-- the pair is written as a word and a colon alone -/
def isAbbreviated (d : Document) (id : Nat) : Bool :=
  (d.text.slice? (d.span id)).any Text.isShorthand

/-- one pair may stand in front of another: abbreviated ones come first if they are asked to, and
else names decide -/
def PairLe (d : Document) (shorthandsFirst : Bool) (a b : Nat) : Prop :=
  if shorthandsFirst = true ∧ d.isAbbreviated a ≠ d.isAbbreviated b then d.isAbbreviated a = true
  else ∀ m ∈ d.pairName a, ∀ n ∈ d.pairName b, m.before n = true

/-- a node stands among the arguments of a call of a method, directly or inside pairs and literals -/
inductive ArgumentOf (d : Document) (method : Text) : Nat → Prop
  | direct {id call : Nat} {receiver : Option Nat} {selector : Span} {args : List Nat}
      (hparent : d.parent id = some call) (hcall : d.node call = .call receiver method selector args)
      (hmem : id ∈ args) : ArgumentOf d method id
  | inPair {id parent key : Nat} {value : Option Nat} {colon : Bool}
      (hparent : d.parent id = some parent) (hpair : d.node parent = .pair key value colon)
      (h : ArgumentOf d method parent) : ArgumentOf d method id
  | inLiteral {id parent : Nat} {braces : Option Delimiters} {elements : List Nat}
      (hparent : d.parent id = some parent) (hliteral : d.node parent = .literal braces elements)
      (h : ArgumentOf d method parent) : ArgumentOf d method id

/-- The literal has two or more elements, all of them pairs with symbols for keys and with
different names, no excluded call has it among its arguments, and the pairs are not in order. -/
def OutOfOrder (d : Document) (s : RuleSettings) (id : Nat) : Prop :=
  ∃ braces elements, d.node id = .literal braces elements ∧ 2 ≤ elements.length ∧
    (∀ element ∈ elements, (d.pairName element).isSome = true) ∧ (elements.map d.pairName).Nodup ∧
    (∀ method ∈ s.excludeMethods, ¬ d.ArgumentOf method id) ∧
    ¬ elements.Pairwise (d.PairLe s.shorthandsFirst)

/-! ## the call around a literal -/

theorem enclosingCall_eq (h : d.nodes.Forest [d.root]) {parent : Nat}
    (hp : d.parent id = some parent) :
    d.enclosingCall id =
      match d.node parent with
      | .pair .. | .literal .. => d.enclosingCall parent
      | .call _ _ _ args => if args.contains id then some parent else none
      | _ => none := by
  have hancestors : d.ancestors id = parent :: d.ancestors parent := NodeTable.ancestors_of_parent h.grounded hp
  rw [enclosingCall, hancestors, callAbove]
  rfl

theorem argumentOf_iff {parent : Nat} {method : Text} (hp : d.parent id = some parent) :
    d.ArgumentOf method id ↔
      match d.node parent with
      | .pair .. | .literal .. => d.ArgumentOf method parent
      | .call _ called _ args => called = method ∧ id ∈ args
      | _ => False := by
  constructor
  · intro h
    cases h with
    | direct hparent hcall hmem =>
      obtain rfl := Option.some.inj (hp.symm.trans hparent)
      rw [hcall]
      exact ⟨rfl, hmem⟩
    | inPair hparent hpair h =>
      obtain rfl := Option.some.inj (hp.symm.trans hparent)
      rw [hpair]
      exact h
    | inLiteral hparent hliteral h =>
      obtain rfl := Option.some.inj (hp.symm.trans hparent)
      rw [hliteral]
      exact h
  · intro h
    split at h
    next hnode => exact .inPair hp hnode h
    next hnode => exact .inLiteral hp hnode h
    next hnode => exact .direct hp (h.1 ▸ hnode) h.2
    next => exact h.elim

/-- the exclusions speak of the call that the chain of pairs and literals above a literal leads to -/
theorem isExcluded_iff (h : d.nodes.Forest [d.root]) (excluded : List Text) (id : Nat) :
    d.isExcluded id excluded = true ↔ ∃ method ∈ excluded, d.ArgumentOf method id := by
  refine NodeTable.parent_induction h.grounded
    (P := fun id => d.isExcluded id excluded = true ↔ ∃ method ∈ excluded, d.ArgumentOf method id)
    ?_ ?_ id
  · intro id hp
    have hancestors : d.ancestors id = [] := NodeTable.ancestors_of_no_parent hp
    have hnone : ∀ method, ¬ d.ArgumentOf method id := by
      intro method hargument
      cases hargument with
      | direct hparent => exact nomatch hp.symm.trans hparent
      | inPair hparent => exact nomatch hp.symm.trans hparent
      | inLiteral hparent => exact nomatch hp.symm.trans hparent
    simp [isExcluded, enclosingCall, hancestors, callAbove, hnone]
  · intro id parent hp ih
    simp only [isExcluded, argumentOf_iff hp] at ih ⊢
    rw [enclosingCall_eq h hp]
    cases hnode : d.node parent with
    | pair key value colon => exact ih
    | literal braces elements => exact ih
    | call receiver method selector args =>
      by_cases hmem : id ∈ args <;> simp [hmem, hnode]
    | _ => simp

/-! ## eligible literals -/

/-- the entry of a pair -/
def pairEntry (d : Document) (id : Nat) : Entry :=
  let text := (d.text.slice? (d.span id)).getD []
  ⟨.pair, (d.pairName id).getD [], text, d.span id, text.isShorthand, d.text.firstLine (d.span id)⟩

theorem ofPair_value (h : d.Placed) (id : Nat) :
    (Entry.ofPair d id).value
      = if (d.pairName id).isSome then some (d.pairEntry id) else none := by
  unfold Entry.ofPair
  split
  next key value colon hnode =>
    obtain ⟨hid, hne⟩ := h.inner (by rw [hnode]; simp) (by rw [hnode]; simp)
    obtain ⟨text, htext, hsource⟩ := h.source_eq hid hne
    have hname : d.pairName id = d.symbolName key := by rw [pairName, hnode]
    rw [pairEntry, hname]
    cases d.symbolName key with
    | none => rfl
    | some name =>
      simp only [Entry.ofNode, Attempt.value_bind, Attempt.value_liftM.mpr hsource, htext]
      rfl
  next hnode =>
    have hname : d.pairName id = none := by
      unfold pairName
      split
      next key value colon hpair => exact absurd hpair (hnode key value colon)
      next => rfl
    rw [hname]
    rfl

theorem mapM_guarded {α β : Type} (p : α → Bool) (g : α → β) (as : List α) :
    as.mapM (fun a => if p a then some (g a) else none)
      = if as.all p then some (as.map g) else none := by
  induction as with
  | nil => rfl
  | cons a as ih =>
    rw [List.mapM_cons, ih]
    by_cases ha : p a = true <;> by_cases has : as.all p = true <;> simp [ha, has]

theorem nodup_keys {elements : List Nat}
    (hsome : ∀ element ∈ elements, (d.pairName element).isSome = true) :
    ((elements.map d.pairEntry).map (·.key)).Nodup ↔ (elements.map d.pairName).Nodup := by
  have heq : elements.map d.pairName = ((elements.map d.pairEntry).map (·.key)).map some := by
    rw [List.map_map, List.map_map]
    refine List.map_congr_left (fun element helement => ?_)
    obtain ⟨name, hname⟩ := Option.isSome_iff_exists.mp (hsome element helement)
    simp [pairEntry, hname]
  rw [heq]
  simp only [List.Nodup, List.pairwise_map, ne_eq, Option.some.injEq]

theorem literalSequence_of_literal (h : d.Placed) {braces : Option Delimiters} {elements : List Nat}
    (hnode : d.node id = .literal braces elements) :
    (d.literalSequence id).value
      = if 2 ≤ elements.length ∧ (∀ element ∈ elements, (d.pairName element).isSome = true) ∧
          (elements.map d.pairName).Nodup then
          some ⟨elements.map d.pairEntry, d.span id, braces, false⟩
        else none := by
  have hmapM : (elements.mapM (Entry.ofPair d)).value
      = if elements.all (fun element => (d.pairName element).isSome) then
          some (elements.map d.pairEntry) else none := by
    rw [Attempt.value_mapM, ← mapM_guarded]
    exact congrArg (List.mapM · elements) (funext (ofPair_value h))
  simp only [literalSequence, hnode, Attempt.value_ite, Attempt.value_bind, hmapM]
  by_cases htwo : elements.length < 2
  · rw [if_pos htwo, if_neg (fun hall => absurd hall.1 (Nat.not_le.mpr htwo))]
    rfl
  rw [if_neg htwo]
  by_cases hsome : ∀ element ∈ elements, (d.pairName element).isSome = true
  · have hkeys : Sequence.hasDuplicateKeys ⟨elements.map d.pairEntry, d.span id, braces, false⟩ = true
        ↔ ¬ (elements.map d.pairName).Nodup := by
      rw [← nodup_keys hsome, ← hasDuplicates_eq_false, Bool.not_eq_false]
      rfl
    rw [if_pos (List.all_eq_true.mpr hsome), Option.bind_some]
    by_cases hnodup : (elements.map d.pairName).Nodup
    · rw [if_neg (fun hdouble => hkeys.mp hdouble hnodup),
        if_pos ⟨Nat.not_lt.mp htwo, hsome, hnodup⟩]
      rfl
    · rw [if_pos (hkeys.mpr hnodup), if_neg (fun hall => hnodup hall.2.2)]
      rfl
  · rw [if_neg (fun hall => hsome (List.all_eq_true.mp hall)), if_neg (fun hall => hsome hall.2.1)]
    rfl

theorem pairwise_entries {shorthandsFirst : Bool} {elements : List Nat}
    (hsome : ∀ element ∈ elements, (d.pairName element).isSome = true) :
    (elements.map d.pairEntry).Pairwise (Policy.le ⟨shorthandsFirst⟩ · ·) ↔
      elements.Pairwise (d.PairLe shorthandsFirst) := by
  rw [List.pairwise_map]
  refine List.Pairwise.iff_of_mem ?_
  intro a b ha hb
  obtain ⟨m, hm⟩ := Option.isSome_iff_exists.mp (hsome a ha)
  obtain ⟨n, hn⟩ := Option.isSome_iff_exists.mp (hsome b hb)
  have hshort (id : Nat) : (d.pairEntry id).shorthand = d.isAbbreviated id := by
    unfold pairEntry isAbbreviated
    cases d.text.slice? (d.span id) <;> rfl
  have hkeys : (d.pairEntry a).key.before (d.pairEntry b).key = m.before n := by
    simp [pairEntry, hm, hn]
  unfold Policy.le PairLe
  rw [hshort, hshort, hkeys]
  simp only [hm, hn, Option.mem_some_iff, forall_eq', Bool.and_eq_true, bne_iff_ne]
  split
  next => exact Iff.rfl
  next => exact Iff.rfl

theorem eligibleLiteral_value {excluded : List Text} {q : Sequence} :
    (d.eligibleLiteral id excluded).value = some q ↔
      (d.literalSequence id).value = some q ∧ d.isExcluded id excluded = false := by
  unfold eligibleLiteral
  rw [Attempt.value_bind, Option.bind_eq_some_iff]
  by_cases hexcluded : d.isExcluded id excluded = true
  · simp [hexcluded]
  · simp [hexcluded]

theorem literalSequence_eq_some (h : d.Placed) {q : Sequence}
    (hq : (d.literalSequence id).value = some q) :
    ∃ braces elements, d.node id = .literal braces elements ∧ 2 ≤ elements.length ∧
      (∀ element ∈ elements, (d.pairName element).isSome = true) ∧
      (elements.map d.pairName).Nodup ∧
      q = ⟨elements.map d.pairEntry, d.span id, braces, false⟩ := by
  have hliteral : ∃ braces elements, d.node id = .literal braces elements := by
    unfold literalSequence at hq
    split at hq
    next braces elements hnode => exact ⟨braces, elements, hnode⟩
    next => exact nomatch hq
  obtain ⟨braces, elements, hnode⟩ := hliteral
  rw [literalSequence_of_literal h hnode] at hq
  split at hq
  next hall =>
    obtain ⟨htwo, hsome, hnodup⟩ := hall
    exact ⟨braces, elements, hnode, htwo, hsome, hnodup, (Option.some.inj hq).symm⟩
  next => exact nomatch hq

/-- a literal is out of order if it is eligible and its canonical permutation moves something -/
theorem outOfOrder_iff (h : d.Placed) (s : RuleSettings) :
    d.OutOfOrder s id ↔ ∃ q, (d.eligibleLiteral id s.excludeMethods).value = some q ∧
      isIdentity (Policy.order ⟨s.shorthandsFirst⟩ q.entries) = false := by
  have hexcluded : (∀ method ∈ s.excludeMethods, ¬ d.ArgumentOf method id) ↔
      d.isExcluded id s.excludeMethods = false := by
    rw [← Bool.not_eq_true, isExcluded_iff h.table.forest]
    simp only [not_exists, not_and]
  constructor
  · rintro ⟨braces, elements, hnode, htwo, hsome, hnodup, hfree, hunordered⟩
    have hq := literalSequence_of_literal h hnode
    rw [if_pos ⟨htwo, hsome, hnodup⟩] at hq
    refine ⟨_, eligibleLiteral_value.mpr ⟨hq, hexcluded.mp hfree⟩, ?_⟩
    rw [← Bool.not_eq_true, Policy.isIdentity_order, pairwise_entries hsome]
    exact hunordered
  · rintro ⟨q, hq, hmoved⟩
    obtain ⟨hq, hfree⟩ := eligibleLiteral_value.mp hq
    obtain ⟨braces, elements, hnode, htwo, hsome, hnodup, rfl⟩ := literalSequence_eq_some h hq
    rw [← Bool.not_eq_true, Policy.isIdentity_order, pairwise_entries hsome] at hmoved
    exact ⟨braces, elements, hnode, htwo, hsome, hnodup, hexcluded.mpr hfree, hmoved⟩

/-! ## literals that wait -/

/-- the literal is eligible and will be put into order -/
def Correctable (d : Document) (s : RuleSettings) (id : Nat) : Prop :=
  ∃ q, (d.eligibleLiteral id s.excludeMethods).value = some q ∧
    q.isCorrectable d.comments ⟨s.shorthandsFirst⟩ = true

theorem Correctable.outOfOrder {s : RuleSettings} (h : d.Placed) (hc : d.Correctable s id) :
    d.OutOfOrder s id := by
  obtain ⟨q, hq, hcorrectable⟩ := hc
  simp only [Sequence.isCorrectable, Bool.and_eq_true, Bool.not_eq_true'] at hcorrectable
  exact (outOfOrder_iff h s).mpr ⟨q, hq, hcorrectable.1⟩

theorem anyCorrectable_eq (h : d.Placed) (s : RuleSettings) (ids : List Nat) :
    ∃ waits, d.anyCorrectable s.excludeMethods ⟨s.shorthandsFirst⟩ ids = .ok waits ∧
      (waits = true ↔ ∃ id ∈ ids, d.Correctable s id) := by
  induction ids with
  | nil => exact ⟨false, rfl, by simp⟩
  | cons id ids ih =>
    obtain ⟨waits, hwaits, hiff⟩ := ih
    unfold anyCorrectable
    rw [(eligibleLiteral_safe h id s.excludeMethods).run_eq]
    -- without a value, or with one that is not correctable, the rest decides
    have hrest (hnot : ¬ d.Correctable s id) : waits = true ↔ ∃ x ∈ id :: ids, d.Correctable s x := by
      rw [hiff]
      simp [hnot]
    cases hq : (d.eligibleLiteral id s.excludeMethods).value with
    | none =>
      refine ⟨waits, hwaits, hrest ?_⟩
      rintro ⟨q, hq', -⟩
      cases hq.symm.trans hq'
    | some q =>
      by_cases hcorrectable : q.isCorrectable d.comments ⟨s.shorthandsFirst⟩ = true
      · refine ⟨true, if_pos hcorrectable, ?_⟩
        simp only [true_iff]
        exact ⟨id, List.mem_cons_self, q, hq, hcorrectable⟩
      · refine ⟨waits, (if_neg hcorrectable).trans hwaits, hrest ?_⟩
        rintro ⟨q', hq', hcorrectable'⟩
        rw [Option.some.inj (hq.symm.trans hq')] at hcorrectable
        exact hcorrectable hcorrectable'

end Document

/-! ## what the rule finds -/

namespace Rule
variable {d : Document} {id : Nat} {s : Settings} {o : Offense}

/-- the settings of the rule for literals -/
abbrev literalSettings (s : Settings) : RuleSettings :=
  s.rule literalOrder.name

theorem checkLiteral_value (h : d.Placed) (s : RuleSettings) :
    (checkLiteral s d id).value = some o ↔
      (∀ a ∈ d.ancestors id, ¬ d.Correctable s a) ∧
      ∃ q, (d.eligibleLiteral id s.excludeMethods).value = some q ∧
        (Offense.ofOrder d literalOrder (d.span id) q ⟨s.shorthandsFirst⟩).value = some o := by
  obtain ⟨waits, hwaits, hiff⟩ := Document.anyCorrectable_eq h s (d.ancestors id)
  have hwaits : d.hasUnsortedAncestor id s.excludeMethods ⟨s.shorthandsFirst⟩ = .ok waits := hwaits
  simp only [checkLiteral, Attempt.value_bind, Option.bind_eq_some_iff, Attempt.value_liftM, hwaits]
  constructor
  · rintro ⟨q, hq, found, hfound, ho⟩
    obtain rfl := Except.ok.inj hfound
    split at ho
    next => exact nomatch ho
    next hfree => exact ⟨fun a ha hc => hfree (hiff.mpr ⟨a, ha, hc⟩), q, hq, ho⟩
  · rintro ⟨hfree, q, hq, ho⟩
    refine ⟨q, hq, waits, rfl, ?_⟩
    rw [if_neg (fun hwaits => (hiff.mp hwaits).elim fun a ha => hfree a ha.1 ha.2)]
    exact ho

/-- What the rule finds at a literal: it is out of order, no literal around it will be put into
order, and the edit, if there is one, stays inside it. -/
theorem literal_found (h : d.Placed) (hfound : literalOrder.find s d id = some o) :
    d.OutOfOrder (literalSettings s) id ∧ (∀ a ∈ d.ancestors id, ¬ d.Correctable (literalSettings s) a) ∧
      o.rule = literalOrder ∧ o.anchor = d.span id ∧
      ∀ e, o.edit = some e → d.Correctable (literalSettings s) id ∧
        (d.span id).start ≤ e.span.start ∧ e.span.stop ≤ (d.span id).stop := by
  obtain ⟨hfree, q, hq, ho⟩ := (checkLiteral_value h _).mp hfound
  obtain ⟨hmoved, hrule, hanchor, -, hedit⟩ := Offense.ofOrder_value ho
  refine ⟨(Document.outOfOrder_iff h _).mpr ⟨q, hq, hmoved⟩, hfree, hrule, hanchor, ?_⟩
  intro e he
  obtain ⟨hloose, hmake⟩ := hedit e he
  refine ⟨⟨q, hq, ?_⟩, ?_⟩
  · rw [Sequence.isCorrectable, hmoved, hloose]
    rfl
  · have hfits := ((Document.eligibleLiteral_safe h id _).of_value hq).1
    obtain ⟨braces, elements, -, -, -, -, rfl⟩ :=
      Document.literalSequence_eq_some h (Document.eligibleLiteral_value.mp hq).1
    exact (Sequence.edit_threads _ hmake).2.inside hfits

/-- a literal out of order is found unless one around it will be put into order -/
theorem exists_literal (h : d.Placed) (hout : d.OutOfOrder (literalSettings s) id)
    (hfree : ∀ a ∈ d.ancestors id, ¬ d.Correctable (literalSettings s) a) :
    ∃ o, literalOrder.find s d id = some o ∧
      (d.Correctable (literalSettings s) id → o.edit.isSome = true) := by
  obtain ⟨q, hq, hmoved⟩ := (Document.outOfOrder_iff h _).mp hout
  have hfits := ((Document.eligibleLiteral_safe h id _).of_value hq).1
  obtain ⟨o, ho, hedit⟩ := Offense.exists_ofOrder literalOrder (d.span id) hfits hmoved
  refine ⟨o, (checkLiteral_value h _).mpr ⟨hfree, q, hq, ho⟩, ?_⟩
  rintro ⟨q', hq', hcorrectable⟩
  obtain rfl := Option.some.inj (hq.symm.trans hq')
  simp only [Sequence.isCorrectable, Bool.and_eq_true, Bool.not_eq_true'] at hcorrectable
  exact hedit hcorrectable.2

end Rule

/-! ## the report on nested literals -/

variable {d : Document} {s : Settings} {o o' : Offense}

/-- the edits of two literals, as the visits meet them, lie one behind the other -/
theorem Document.literal_edits_apart (h : d.Placed) (s : Settings) :
    ((d.visits s).filterMap (d.findAt s)).Pairwise (fun o o' => o.rule = .literalOrder →
      o'.rule = .literalOrder → ∀ e ∈ o.edit, ∀ e' ∈ o'.edit, e.span.Precedes e'.span) := by
  rw [List.pairwise_filterMap]
  unfold visits
  rw [List.pairwise_flatMap]
  constructor
  · -- at one node, two rules are never both the rule for literals
    intro id _
    have hnodup : (Rule.enabled s).Nodup := List.filter_sublist.nodup (by decide)
    rw [List.pairwise_map]
    refine hnodup.imp ?_
    intro rule rule' hne o ho o' ho' hrule hrule'
    have h₁ : o.rule = rule := Rule.find_rule ho
    have h₂ : o'.rule = rule' := Rule.find_rule ho'
    exact absurd (h₁.symm.trans (hrule.trans (hrule'.symm.trans h₂))) hne
  · refine (h.table.nested_or_apart h.table.root_lt).imp ?_
    intro x y hxy v hv w hw o ho o' ho' hrule hrule' e he e' he'
    obtain ⟨rule, -, rfl⟩ := List.mem_map.mp hv
    obtain ⟨rule', -, rfl⟩ := List.mem_map.mp hw
    change rule.find s d x = some o at ho
    change rule'.find s d y = some o' at ho'
    obtain rfl : Rule.literalOrder = _ := hrule.symm.trans (Rule.find_rule ho)
    obtain rfl : Rule.literalOrder = _ := hrule'.symm.trans (Rule.find_rule ho')
    obtain ⟨-, -, -, -, hedit⟩ := Rule.literal_found h ho
    obtain ⟨-, hfree', -, -, hedit'⟩ := Rule.literal_found h ho'
    obtain ⟨hcorrectable, -, hstop⟩ := hedit e he
    obtain ⟨-, hstart, -⟩ := hedit' e' he'
    rcases hxy with haround | hfront
    · exact absurd hcorrectable (hfree' x haround)
    · show e.span.stop ≤ e'.span.start
      have hfront : (d.span x).stop ≤ (d.span y).start := hfront
      omega

/-- the report has a finding of the rule for literals at a literal, for this offense -/
def Document.ReportsLiteral (d : Document) (s : Settings) (report : Report) (id : Nat) (o : Offense) :
    Prop :=
  Rule.literalOrder.find s d id = some o ∧ o.anchor = d.span id ∧
    ∃ x ∈ report.diagnostics, x.code = Rule.literalOrder.name ∧ x.Reports d.text o

namespace Document.Linted
variable {offenses : List Offense} {report : Report} {id : Nat} {x : Diagnostic}

theorem reportsLiteral (hl : d.Linted s offenses report) (h : d.Placed)
    (hon : (Rule.literalSettings s).enabled = true) (hfound : Rule.literalOrder.find s d id = some o) :
    d.ReportsLiteral s report id o := by
  obtain ⟨⟨braces, elements, hnode, -⟩, -, hrule, hanchor, -⟩ := Rule.literal_found h hfound
  obtain ⟨hid, -⟩ := h.inner (by rw [hnode]; simp) (by rw [hnode]; simp)
  have hwalk := NodeTable.mem_preorder_root h.table.forest _ id hid (Nat.le_refl _)
  have ho := (Document.mem_offenses hl.offenses_eq).mpr ⟨id, hwalk, _, hon, hfound⟩
  obtain ⟨x, hx, hreports⟩ := hl.exists_reports ho
  exact ⟨hfound, hanchor, x, hx, hrule ▸ hreports.code, hreports⟩

theorem find_literal (hl : d.Linted s offenses report) (ho : o ∈ offenses)
    (hcode : x.code = Rule.literalOrder.name) (hreports : x.Reports d.text o) :
    ∃ id, Rule.literalOrder.find s d id = some o := by
  obtain ⟨id, -, rule, -, hfound⟩ := (Document.mem_offenses hl.offenses_eq).mp ho
  obtain rfl : Rule.literalOrder = rule :=
    Rule.name_injective (hcode.symm.trans (Rule.find_rule hfound ▸ hreports.code))
  exact ⟨id, hfound⟩

theorem outOfOrder_of_reported (hl : d.Linted s offenses report) (h : d.Placed)
    (hon : (Rule.literalSettings s).enabled = true) (hx : x ∈ report.diagnostics)
    (hcode : x.code = Rule.literalOrder.name) :
    ∃ id o, d.OutOfOrder (Rule.literalSettings s) id ∧ d.ReportsLiteral s report id o ∧
      x.Reports d.text o := by
  obtain ⟨r, -, -, ho, hreports⟩ := hl.ruled_reports hx
  obtain ⟨id, hfound⟩ := hl.find_literal ho hcode hreports
  exact ⟨id, r.offense, (Rule.literal_found h hfound).1, hl.reportsLiteral h hon hfound, hreports⟩

/-- a literal out of order is reported, or one around it is, with an edit -/
theorem reported_of_outOfOrder (hl : d.Linted s offenses report) (h : d.Placed)
    (hon : (Rule.literalSettings s).enabled = true) (hout : d.OutOfOrder (Rule.literalSettings s) id) :
    (∃ o, d.ReportsLiteral s report id o) ∨
    ∃ outer ∈ d.ancestors id, (∃ braces elements, d.node outer = .literal braces elements) ∧
      ∃ o, d.ReportsLiteral s report outer o ∧ o.edit.isSome = true := by
  by_cases hwaits : ∃ a ∈ d.ancestors id, d.Correctable (Rule.literalSettings s) a
  · -- the outermost of the literals around it that will be put into order waits for none
    obtain ⟨a, ha, hcorrectable⟩ := hwaits
    obtain ⟨outer, houter, hcorrectable, hfree⟩ := NodeTable.exists_outermost h.table.forest.grounded
      (d.Correctable (Rule.literalSettings s)) a hcorrectable
    have hout := hcorrectable.outOfOrder h
    obtain ⟨o, hfound, hedit⟩ := Rule.exists_literal h hout hfree
    obtain ⟨braces, elements, hnode, -⟩ := hout
    refine .inr ⟨outer, ?_, ⟨braces, elements, hnode⟩, o, hl.reportsLiteral h hon hfound,
      hedit hcorrectable⟩
    rcases houter with rfl | houter
    · exact ha
    · exact NodeTable.mem_ancestors_trans h.table.forest.grounded houter id ha
  · obtain ⟨o, hfound, -⟩ := Rule.exists_literal h hout (fun a ha hc => hwaits ⟨a, ha, hc⟩)
    exact .inl ⟨o, hl.reportsLiteral h hon hfound⟩

theorem literal_edits_apart (hl : d.Linted s offenses report) (h : d.Placed) :
    offenses.Pairwise (fun o o' => o.rule = .literalOrder → o'.rule = .literalOrder →
      ∀ e ∈ o.edit, ∀ e' ∈ o'.edit, e.span.Precedes e'.span) := by
  rw [Except.ok.inj (hl.offenses_eq.symm.trans (Document.offenses_eq h s))]
  exact Document.literal_edits_apart h s

theorem literal_edits_disjoint (hl : d.Linted s offenses report) (h : d.Placed) :
    offenses.Pairwise (fun o o' => o.rule = .literalOrder → o'.rule = .literalOrder →
      ∀ e ∈ o.edit, ∀ e' ∈ o'.edit, e.span.overlaps e'.span = false) := by
  refine (hl.literal_edits_apart h).imp_of_mem ?_
  intro o o' ho _ hoo' hrule hrule' e he e' he'
  obtain ⟨id, -, rule, -, hfound⟩ := (Document.mem_offenses hl.offenses_eq).mp ho
  have hfits := (Rule.check_safe h rule s id).of_value hfound
  exact Span.overlaps_false_of_precedes (hfits.edit_fits e he).nonempty
    (.inl (hoo' hrule hrule' e he e' he'))

end Document.Linted

/-- **Nested literals wait for each other, and nothing is lost.**  The edits of the rule for
literals do not overlap, so one of them is only deferred because of another rule.  A finding is at a
literal out of order, and every such literal is reported or has a literal around it that is
reported with an edit. -/
theorem nested_literals_wait {t : Text} (hread : Document.read t = .ok d)
    (hon : (Rule.literalSettings s).enabled = true) :
    ∃ offenses report, d.offenses s = .ok offenses ∧ d.lint s true = .ok report ∧
      offenses.Pairwise (fun o o' => o.rule = .literalOrder → o'.rule = .literalOrder →
        ∀ e ∈ o.edit, ∀ e' ∈ o'.edit, e.span.Precedes e'.span) ∧
      (∀ x ∈ report.diagnostics, x.code = Rule.literalOrder.name → Ruling.deferredNote ∈ x.notes →
        ∃ id o e, d.ReportsLiteral s report id o ∧ x.Reports t o ∧ o.edit = some e ∧
          ∃ y ∈ report.diagnostics, y.code ≠ Rule.literalOrder.name ∧
            ∃ e', y.fix = some e' ∧ e'.span.overlaps e.span = true) ∧
      (∀ x ∈ report.diagnostics, x.code = Rule.literalOrder.name →
        ∃ id o, d.OutOfOrder (Rule.literalSettings s) id ∧ d.ReportsLiteral s report id o ∧
          x.Reports t o) ∧
      (∀ id, d.OutOfOrder (Rule.literalSettings s) id →
        (∃ o, d.ReportsLiteral s report id o) ∨
        ∃ outer ∈ d.ancestors id, (∃ braces elements, d.node outer = .literal braces elements) ∧
          ∃ o, d.ReportsLiteral s report outer o ∧ o.edit.isSome = true) ∧
      ((∀ x ∈ report.diagnostics, x.code ≠ Rule.literalOrder.name) ↔
        ∀ id, ¬ d.OutOfOrder (Rule.literalSettings s) id) := by
  obtain ⟨rfl, h⟩ := Document.placed_of_read hread
  obtain ⟨offenses, report, hl⟩ := Document.exists_linted h s
  refine ⟨offenses, report, hl.offenses_eq, hl.lint_eq, hl.literal_edits_apart h, ?_,
    fun x hx hcode => hl.outOfOrder_of_reported h hon hx hcode,
    fun id hout => hl.reported_of_outOfOrder h hon hout, ?_⟩
  · intro x hx hcode hnote
    obtain ⟨o, ho, hreports, e, he, hother⟩ :=
      hl.deferred_by_other (hl.literal_edits_disjoint h) hx hcode hnote
    obtain ⟨id, hfound⟩ := hl.find_literal ho hcode hreports
    exact ⟨id, o, e, hl.reportsLiteral h hon hfound, hreports, he, hother⟩
  · constructor
    · intro hnone id hout
      rcases hl.reported_of_outOfOrder h hon hout with
        ⟨o, -, -, x, hx, hcode, -⟩ | ⟨outer, -, -, o, ⟨-, -, x, hx, hcode, -⟩, -⟩
      · exact hnone x hx hcode
      · exact hnone x hx hcode
    · intro hnone x hx hcode
      obtain ⟨id, -, hout, -⟩ := hl.outOfOrder_of_reported h hon hx hcode
      exact hnone id hout

/-- The innermost literal of the first statement waits, the one around it is deferred behind the
parameters of the definition; a comment holds the outermost literal of the second one, so the next
one is put into order and only the innermost waits. -/
theorem nested_literals_wait_in_default :
    let t := "def f(b: \x7bd: \x7bz: 1, y: 2\x7d, c: 3\x7d, a: 4)\nend\nx = \x7b\n  d: \x7bz: 1, y: \x7bn: 1, m: 2\x7d\x7d, # held\n  c: 3\n\x7d".toList
    ∃ d report, Document.read t = .ok d ∧ d.lint .default true = .ok report ∧
      report.diagnostics.map (fun x => (x.code, x.notes, x.fix.isSome)) =
        [("Canon/SortMethodDefinition", [], true),
          ("Canon/SortHash", [Ruling.deferredNote], false),
          ("Canon/SortHash", [Offense.looseCommentNote], false),
          ("Canon/SortHash", [], true)] ∧
      (∃ y ∈ report.diagnostics, y.code ≠ "Canon/SortHash" ∧ y.fix.isSome = true) ∧
      ∃ id, d.OutOfOrder (Rule.literalSettings .default) id := by
  intro t
  have hfindings : (Document.read t).toOption.bind (fun d => (d.lint .default true).toOption.map
      (fun report => report.diagnostics.map (fun x => (x.code, x.notes, x.fix.isSome))))
      = some [("Canon/SortMethodDefinition", [], true),
          ("Canon/SortHash", [Ruling.deferredNote], false),
          ("Canon/SortHash", [Offense.looseCommentNote], false),
          ("Canon/SortHash", [], true)] := by
    decide +kernel
  cases h : Document.read t with
  | error e =>
    rw [h] at hfindings
    exact nomatch hfindings
  | ok d =>
    have hwait := nested_literals_wait h (s := .default) (by decide +kernel)
    obtain ⟨offenses, report, -, hlint, -, hdeferred, hback, -⟩ := hwait
    rw [h] at hfindings
    change (d.lint .default true).toOption.map _ = _ at hfindings
    rw [hlint] at hfindings
    have hlist : report.diagnostics.map (fun x => (x.code, x.notes, x.fix.isSome)) = _ :=
      Option.some.inj hfindings
    have hmem : ("Canon/SortHash", [Ruling.deferredNote], false) ∈
        report.diagnostics.map (fun x => (x.code, x.notes, x.fix.isSome)) := by
      rw [hlist]
      exact List.mem_cons_of_mem _ List.mem_cons_self
    obtain ⟨x, hx, heq⟩ := List.mem_map.mp hmem
    obtain ⟨hcode, hnotes⟩ := Prod.mk.inj heq
    obtain ⟨hnotes, -⟩ := Prod.mk.inj hnotes
    obtain ⟨-, -, -, -, -, -, y, hy, hother, e, hfix, -⟩ :=
      hdeferred x hx hcode (hnotes ▸ List.mem_cons_self)
    obtain ⟨id, -, hout, -⟩ := hback x hx hcode
    exact ⟨d, report, rfl, hlint, hlist, ⟨y, hy, hother, by rw [hfix]; rfl⟩, id, hout⟩

end Collate
