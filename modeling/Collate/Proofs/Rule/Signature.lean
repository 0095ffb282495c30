import Collate.Proofs.Rule.Literals
import Collate.Proofs.Rule.Shorthand
import Collate.Proofs.Sequence.Woven
import Collate.Proofs.Twin.Exchange

/-!
# Sorting keyword parameters

The edit takes the keyword parameters of a definition as texts, and puts these texts into the places of
the others in the order of their names.  Nothing else changes, but for what separates the parameters: that
becomes a comma and a blank, unless other parameters stand between them.

The edit does not look at what a text means in its new place.  A parameter is in sight of the default
values behind it only, and a label without a value ends where the token behind it says so.  Names and labels
without values in parentheses are the parameters that may stand in any order (`Parse.definition_exchanged`).

* `Document.keywordParameters`        the entries of the keyword parameters;
* `Rule.parameterOrder_exchanges`     what the edit writes;
* `Rule.parameterOrder_unfaithful`    a text that is refused afterwards, and a default value that changes.
-/

namespace Collate

namespace Sequence
variable {t : Text} {q : Sequence} {e : Edit}

/-- An edit on one line puts the texts of the entries into the places of the others, with the gaps that are
there, or with a comma and a blank in each of them. -/
theorem edit_woven (h : q.Fits t) (hline : t.isSingleLine q.container = true) (p : Policy)
    (hedit : q.edit t (p.order q.entries) = .ok e) : ∃ front gaps gaps' behind,
      gaps.length = q.entries.length ∧ gaps.head? = some [] ∧
      (gaps' = gaps ∨ gaps' = [] :: List.replicate (q.entries.length - 1) [',', ' ']) ∧
      t = front ++ Text.woven gaps (q.entries.map (·.text)) ++ behind ∧
      Edit.applyAll t [e]
        = .ok (front ++ Text.woven gaps' ((p.arranged q.entries).map (·.text)) ++ behind) := by
  obtain ⟨gaps, -, hlength, hslice, hfill⟩ := interleavedEdit_woven h.toInRow
  obtain ⟨front, behind, ht, hstart, hstop⟩ := Text.slice?_eq_some.mp hslice
  have happly (replacement : Text) :
      Edit.applyAll t [⟨q.range, replacement⟩] = .ok (front ++ replacement ++ behind) := by
    have hspan : q.range = ⟨front.size, (front ++ Text.woven ([] :: gaps) (q.entries.map (·.text))).size⟩ := by
      rw [Text.size_append, hstart, ← hstop]
    rw [hspan, ht]
    exact Edit.applyAll_single
  have hwritten : ∃ gaps', (gaps' = [] :: gaps ∨
      gaps' = [] :: List.replicate (q.entries.length - 1) [',', ' ']) ∧
      e = ⟨q.range, Text.woven gaps' ((p.arranged q.entries).map (·.text))⟩ := by
    unfold edit at hedit
    split at hedit
    next =>
      rw [hfill p] at hedit
      exact ⟨_, .inl rfl, (Except.ok.inj hedit).symm⟩
    next =>
      rw [Layout.of, if_pos hline] at hedit
      change singleLineEdit q (p.order q.entries) = .ok e at hedit
      rw [singleLineEdit_woven h.toInRow p] at hedit
      exact ⟨_, .inr rfl, (Except.ok.inj hedit).symm⟩
  obtain ⟨gaps', hgaps', rfl⟩ := hwritten
  exact ⟨front, [] :: gaps, gaps', behind, hlength, rfl, hgaps', ht, happly _⟩

/-! ## entries among siblings -/

theorem entriesOf_eq {entry : Nat → Attempt Entry} {siblings : List Nat} {found : List (Option Entry)}
    (h : entriesOf siblings entry = .ok found) : found = siblings.map (fun id => (entry id).value) := by
  unfold entriesOf at h
  induction siblings generalizing found with
  | nil => exact (Except.ok.inj h).symm
  | cons sibling siblings ih =>
    rw [List.mapM_cons] at h
    obtain ⟨first, hfirst, h⟩ := bind_eq_ok h
    obtain ⟨others, hothers, h⟩ := bind_eq_ok h
    obtain rfl := Except.ok.inj h
    have hvalue : (entry sibling).value = first := by rw [Attempt.value, hfirst]
    rw [List.map_cons, hvalue, ← ih hothers]

theorem ofSiblings_value {entry : Nat → Attempt Entry} {siblings : List Nat} {container : Span}
    (h : (ofSiblings siblings container entry).value = some q) :
    q.entries = siblings.filterMap (fun id => (entry id).value) ∧ (q.entries.map (·.key)).Nodup ∧
      q.interleaved = hasGap (siblings.map (fun id => (entry id).value)) ∧ q.braces = none ∧
      q.container = q.range := by
  unfold ofSiblings at h
  rw [Attempt.value_bind, Option.bind_eq_some_iff] at h
  obtain ⟨found, hfound, h⟩ := h
  obtain rfl := entriesOf_eq (Attempt.value_liftM.mp hfound)
  dsimp only at h
  split at h
  next => cases h
  next hcheck =>
    obtain rfl := Option.some.inj h
    rw [Bool.or_eq_true, not_or, Bool.not_eq_true, Bool.not_eq_true] at hcheck
    exact ⟨List.filterMap_map .., (hasDuplicates_eq_false _).mp hcheck.2, rfl, rfl,
      (range_range _).symm⟩

end Sequence

/-! ## keyword parameters -/

def Document.keywordParameters (d : Document) (params : List Nat) : List Entry :=
  params.filterMap (fun id => (Entry.ofParameter d id).value)

theorem Document.parameterSequence_value {d : Document} {id : Nat} {q : Sequence}
    (h : (d.parameterSequence id).value = some q) : ∃ keyword name singleton params body,
      d.node id = .definition keyword name singleton params body ∧
      q.entries = d.keywordParameters params ∧ (q.entries.map (·.key)).Nodup ∧
      d.text.isSingleLine q.container = true := by
  unfold parameterSequence at h
  split at h
  next keyword name singleton params body hnode =>
    split at h
    next => cases h
    next =>
      rw [Attempt.value_bind, Option.bind_eq_some_iff] at h
      obtain ⟨found, hfound, h⟩ := h
      obtain ⟨hentries, hkeys, -, -⟩ := Sequence.ofSiblings_value hfound
      split at h
      next hline =>
        obtain rfl := Option.some.inj h
        exact ⟨keyword, name, singleton, params, body, hnode, hentries, hkeys, hline⟩
      next => cases h
  next => cases h

/-- **Sorting keyword parameters exchanges their texts.**  The texts of the keyword parameters of a
definition are written in the order of their names, in the places of the keyword parameters.  Nothing else
of the text changes, but for what separates neighbours. -/
theorem Rule.parameterOrder_exchanges (t : Text) (d : Document) (s : Settings) (id : Nat) (o : Offense)
    (e : Edit) (hread : Document.read t = .ok d) (hfound : Rule.parameterOrder.find s d id = some o)
    (hedit : o.edit = some e) : ∃ keyword name singleton params body,
      d.node id = .definition keyword name singleton params body ∧
      ∃ (sorted : List Entry) (front : Text) (gaps gaps' : List Text) (behind : Text),
        sorted.Perm (d.keywordParameters params) ∧
        sorted.Pairwise (fun a b => a.key.before b.key = true ∧ a.key ≠ b.key) ∧
        gaps.length = sorted.length ∧ gaps.head? = some [] ∧
        (gaps' = gaps ∨ gaps' = [] :: List.replicate (sorted.length - 1) [',', ' ']) ∧
        t = front ++ Text.woven gaps ((d.keywordParameters params).map (·.text)) ++ behind ∧
        Edit.applyAll t [e] = .ok (front ++ Text.woven gaps' (sorted.map (·.text)) ++ behind) := by
  obtain ⟨rfl, hplaced⟩ := Document.placed_of_read hread
  obtain ⟨q, anchor, hq, horder⟩ := Rule.find_ordered (by decide) hfound
  obtain ⟨-, hwritten⟩ := (Offense.ofOrder_value horder).2.2.2.2 e hedit
  have hfits := (Document.parameterSequence_safe hplaced id).of_value hq
  obtain ⟨keyword, name, singleton, params, body, hnode, hentries, hkeys, hline⟩ :=
    Document.parameterSequence_value hq
  obtain ⟨front, gaps, gaps', behind, hlength, hhead, hgaps', ht, hmended⟩ :=
    Sequence.edit_woven hfits hline .alphabetical hwritten
  have hperm := Policy.alphabetical.arranged_perm q.entries
  rw [← hperm.length_eq] at hlength hgaps'
  refine ⟨keyword, name, singleton, params, body, hnode, Policy.alphabetical.arranged q.entries, front, gaps,
    gaps', behind, hentries ▸ hperm, ?_, hlength, hhead, hgaps', hentries ▸ ht, hmended⟩
  have hdistinct : (Policy.alphabetical.arranged q.entries).Pairwise (fun a b => a.key ≠ b.key) :=
    List.pairwise_map.mp ((hperm.map _).nodup_iff.mpr hkeys)
  exact ((Policy.alphabetical.arranged_pairwise q.entries).and hdistinct).imp fun h => h

/-- two keyword parameters change places around a parameter with a position -/
theorem Rule.parameterOrder_exchanges_around :
    ∃ (d : Document) (params : List Nat) (sorted : List Entry) (front : Text) (gaps gaps' : List Text)
        (behind : Text), Document.read "def f(b: 1, c = 0, a: 2)\nend".toList = .ok d ∧
      sorted.Perm (d.keywordParameters params) ∧
      "def f(b: 1, c = 0, a: 2)\nend".toList
        = front ++ Text.woven gaps ((d.keywordParameters params).map (·.text)) ++ behind ∧
      "def f(a: 2, c = 0, b: 1)\nend".toList
        = front ++ Text.woven gaps' (sorted.map (·.text)) ++ behind := by
  have hfacts : (Document.read "def f(b: 1, c = 0, a: 2)\nend".toList).toOption.bind (fun d =>
      (Rule.parameterOrder.find .default d 6).bind (fun o => o.edit.bind (fun e =>
        (Edit.applyAll "def f(b: 1, c = 0, a: 2)\nend".toList [e]).toOption)))
      = some "def f(a: 2, c = 0, b: 1)\nend".toList := by
    decide +kernel
  obtain ⟨d, hd, hfacts⟩ := Option.bind_eq_some_iff.mp hfacts
  obtain ⟨o, ho, hfacts⟩ := Option.bind_eq_some_iff.mp hfacts
  obtain ⟨e, he, hmended⟩ := Option.bind_eq_some_iff.mp hfacts
  have hread := eq_ok_of_toOption hd
  obtain ⟨-, -, -, params, -, -, sorted, front, gaps, gaps', behind, hperm, -, -, -, -, ht, happly⟩ :=
    Rule.parameterOrder_exchanges _ d .default 6 o e hread ho he
  exact ⟨d, params, sorted, front, gaps, gaps', behind, hread, hperm, ht,
    Except.ok.inj ((eq_ok_of_toOption hmended).symm.trans happly)⟩

/-- Keyword parameters are declared one after the other, and a label without a value takes what follows
for its value.  A label that is moved to the end of a list without parentheses takes the `=` in front of
the body, and the text is refused.  A default value that is moved in front of the parameter it names
becomes a call. -/
theorem Rule.parameterOrder_unfaithful :
    (∃ d o e error, Document.read "def foo b:, a: 1 = 2".toList = .ok d ∧
      Rule.parameterOrder.find .default d 4 = some o ∧ o.edit = some e ∧
      Edit.applyAll "def foo b:, a: 1 = 2".toList [e] = .ok "def foo a: 1, b: = 2".toList ∧
      Document.read "def foo a: 1, b: = 2".toList = .error error) ∧
    ∃ d o e d', Document.read "def f(b: 1, a: b)\nend".toList = .ok d ∧
      Rule.parameterOrder.find .default d 4 = some o ∧ o.edit = some e ∧
      Edit.applyAll "def f(b: 1, a: b)\nend".toList [e] = .ok "def f(a: b, b: 1)\nend".toList ∧
      Document.read "def f(a: b, b: 1)\nend".toList = .ok d' ∧
      d.node 2 = .localVariable ['b'] ∧ d.node 3 = .parameter .optionalKeyword (some ['a']) (some 2) ∧
      d'.node 0 = .call none ['b'] ⟨9, 10⟩ [] ∧
      d'.node 1 = .parameter .optionalKeyword (some ['a']) (some 0) := by
  constructor
  · have hfound : (Document.read "def foo b:, a: 1 = 2".toList).toOption.bind (fun d =>
        (Rule.parameterOrder.find .default d 4).bind (fun o => o.edit.bind (fun e =>
          (Edit.applyAll "def foo b:, a: 1 = 2".toList [e]).toOption)))
        = some "def foo a: 1, b: = 2".toList := by
      decide +kernel
    have hrefused : (Document.read "def foo a: 1, b: = 2".toList).toOption = none := by
      decide +kernel
    obtain ⟨d, hd, hfound⟩ := Option.bind_eq_some_iff.mp hfound
    obtain ⟨o, ho, hfound⟩ := Option.bind_eq_some_iff.mp hfound
    obtain ⟨e, he, hmended⟩ := Option.bind_eq_some_iff.mp hfound
    obtain ⟨error, herror⟩ := exists_error_of_toOption hrefused
    exact ⟨d, o, e, error, eq_ok_of_toOption hd, ho, he, eq_ok_of_toOption hmended, herror⟩
  · have hfound : (Document.read "def f(b: 1, a: b)\nend".toList).toOption.bind (fun d =>
        (Rule.parameterOrder.find .default d 4).bind (fun o => o.edit.bind (fun e =>
          (Edit.applyAll "def f(b: 1, a: b)\nend".toList [e]).toOption.map
            (fun mended => (mended, d.node 2, d.node 3)))))
        = some ("def f(a: b, b: 1)\nend".toList, .localVariable ['b'],
          .parameter .optionalKeyword (some ['a']) (some 2)) := by
      decide +kernel
    have hread : (Document.read "def f(a: b, b: 1)\nend".toList).toOption.map
        (fun d' => (d'.node 0, d'.node 1))
        = some (.call none ['b'] ⟨9, 10⟩ [], .parameter .optionalKeyword (some ['a']) (some 0)) := by
      decide +kernel
    obtain ⟨d, hd, hfound⟩ := Option.bind_eq_some_iff.mp hfound
    obtain ⟨o, ho, hfound⟩ := Option.bind_eq_some_iff.mp hfound
    obtain ⟨e, he, hfound⟩ := Option.bind_eq_some_iff.mp hfound
    obtain ⟨mended, hmended, hfacts⟩ := Option.map_eq_some_iff.mp hfound
    obtain ⟨hwritten, hnodes⟩ := Prod.mk.inj hfacts
    obtain ⟨hvariable, hparameter⟩ := Prod.mk.inj hnodes
    rw [hwritten] at hmended
    obtain ⟨d', hd', hnodes'⟩ := Option.map_eq_some_iff.mp hread
    obtain ⟨hcall, hparameter'⟩ := Prod.mk.inj hnodes'
    exact ⟨d, o, e, d', eq_ok_of_toOption hd, ho, he, eq_ok_of_toOption hmended, eq_ok_of_toOption hd',
      hvariable, hparameter, hcall, hparameter'⟩

end Collate
