import Collate.Proofs.Rule.Found

/-!
# Pairs that repeat their key

The shorthand rule looks for a label whose value is the local variable of the same name.  The value
stands on the line of the label, so nothing but white space comes between them, and what is left of
the pair is the label.

* `Document.Repeats`          such a pair;
* `Rule.shorthand_found`      what the rule finds is one, and the edit keeps its label alone;
* `Document.Repeats.apart`    no comment touches it.
-/

namespace Collate

/-- a pair of a label and the local variable of that name -/
structure Document.Repeats (d : Document) (id : Nat) (name : Text) (key value : Nat) : Prop where
  node_eq : d.node id = .pair key (some value) true
  key_eq : d.node key = .symbol name
  value_eq : d.node value = .localVariable name

namespace Document
variable {d : Document} {id key value : Nat} {name : Text}

theorem symbolName_eq (h : d.symbolName id = some name) : d.node id = .symbol name := by
  unfold symbolName at h
  split at h
  next held hnode => rw [hnode, Option.some.inj h]
  next => exact nomatch h

theorem redundantKey_value (h : (d.redundantKey id).value = some name) :
    ∃ key value, d.Repeats id name key value := by
  unfold redundantKey at h
  split at h
  next key value hpair =>
    split at h
    next held other hkey hvalue =>
      split at h
      next heq =>
        rw [Attempt.value_bind] at h
        obtain ⟨source, -, h⟩ := Option.bind_eq_some_iff.mp h
        split at h
        next => exact nomatch h
        next =>
          obtain rfl : held = name := Option.some.inj h
          exact ⟨key, value, hpair, symbolName_eq hkey, by rw [hvalue, heq]⟩
      next => exact nomatch h
    next => exact nomatch h
  next => exact nomatch h

namespace Repeats

theorem exists_tokens (h : d.Repeats id name key value) (hd : d.Placed) :
    ∃ front label next rest, d.text.tokens = front ++ label :: next :: rest ∧
      label.kind = .label name ∧ label.span.start = (d.span id).start ∧ next.kind = .ident name ∧
      next.newlineBefore = false ∧ next.span.stop = (d.span id).stop := by
  obtain ⟨hid, hne⟩ := hd.inner (by rw [h.node_eq]; simp) (by rw [h.node_eq]; simp)
  obtain ⟨hvalue, hvne⟩ := hd.inner (by rw [h.value_eq]; simp) (by rw [h.value_eq]; simp)
  obtain ⟨-, hstop, front, label, next, rest, held, htokens, hheld, hlabel, hspan, hline, hstart⟩ :=
    hd.marked hid hne h.node_eq
  obtain ⟨token, hmem, hkind, htoken⟩ := hd.marked hvalue hvne h.value_eq
  have hkey : (d.nodes.tree key).node = .symbol name := by
    have hlt := (hd.child_ne_root hid h.node_eq List.mem_cons_self).1
    rw [NodeTable.tree_node hd.table.forest hlt]
    show (d.node key).map _ = _
    rw [h.key_eq]
    rfl
  obtain rfl : held = name := Node.symbol.inj (hheld.symm.trans hkey)
  -- the value is the token behind the label, as both begin at one offset
  obtain rfl : next = token := by
    have hnext : next ∈ d.text.tokens := by
      rw [htokens]
      simp
    refine Text.token_eq_of_start hnext hmem ?_
    rw [hstart, htoken]
    rfl
  refine ⟨front, label, next, rest, htokens, hlabel, by rw [hspan], hkind, hline, ?_⟩
  rw [htoken]
  exact hstop

/-- no comment touches the pair: none touches its tokens, and none comes between them -/
theorem apart (h : d.Repeats id name key value) (hd : d.Placed) {comment : Span}
    (hcomment : comment ∈ d.comments) :
    comment.Precedes (d.span id) ∨ (d.span id).Precedes comment := by
  obtain ⟨front, label, next, rest, htokens, -, hstart, -, hline, hstop⟩ := h.exists_tokens hd
  rw [hd.comments_eq] at hcomment
  have hne := Text.comments_nonempty hcomment
  have hfit := d.text.tokens_fit.1 next (by rw [htokens]; simp)
  rcases Text.tokens_quiet htokens hline comment hcomment with hbefore | hbehind
  · left
    show comment.stop ≤ (d.span id).start
    rwa [← hstart]
  · rcases hfit.apart comment hcomment with hvalue | hvalue
    · right
      show (d.span id).stop ≤ comment.start
      rwa [← hstop]
    · change comment.stop ≤ next.span.start at hvalue
      omega

end Repeats

end Document

variable {d : Document} {s : Settings} {id : Nat} {o : Offense}

/-- the rule finds pairs that repeat their key, and its edit keeps the label alone -/
theorem Rule.shorthand_found (hfound : Rule.shorthand.find s d id = some o) :
    ∃ name key value, d.Repeats id name key value ∧
      o.edit = some ⟨d.span id, name ++ [':']⟩ := by
  rcases find_cases hfound with ⟨q, anchor, policy, hq, -⟩ | ⟨-, name, hname, -, rfl⟩
  · exact nomatch hq
  · obtain ⟨key, value, hrepeats⟩ := Document.redundantKey_value hname
    exact ⟨name, key, value, hrepeats, rfl⟩

/-- A label whose value is dropped takes what follows for its value.  Here that is a word which cannot
be one, and the text without the value is refused. -/
theorem Rule.shorthand_unreadable :
    let t := "x = 1\nif c then foo x: x else 2 end".toList
    ∃ d id o e error, Document.read t = .ok d ∧ Rule.shorthand.find .default d id = some o ∧
      o.edit = some e ∧ Edit.applyAll t [e] = .ok "x = 1\nif c then foo x: else 2 end".toList ∧
      Document.read "x = 1\nif c then foo x: else 2 end".toList = .error error := by
  intro t
  have hfound : (Document.read t).toOption.bind (fun d => (Rule.shorthand.find .default d 5).bind
      (fun o => o.edit.bind (fun e => (Edit.applyAll t [e]).toOption)))
      = some "x = 1\nif c then foo x: else 2 end".toList := by
    decide +kernel
  have hrefused : (Document.read "x = 1\nif c then foo x: else 2 end".toList).toOption = none := by
    decide +kernel
  obtain ⟨d, hd, hfound⟩ := Option.bind_eq_some_iff.mp hfound
  obtain ⟨o, ho, hfound⟩ := Option.bind_eq_some_iff.mp hfound
  obtain ⟨e, he, hmended⟩ := Option.bind_eq_some_iff.mp hfound
  obtain ⟨error, herror⟩ := exists_error_of_toOption hrefused
  exact ⟨d, 5, o, e, error, eq_ok_of_toOption hd, ho, he, eq_ok_of_toOption hmended, herror⟩

end Collate
