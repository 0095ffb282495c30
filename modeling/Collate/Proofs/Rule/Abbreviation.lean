import Collate.Proofs.Node.Ancestors
import Collate.Proofs.Rule.Shorthand
import Collate.Proofs.Text.Edit
import Collate.Proofs.Twin.Tokens

/-!
# Abbreviated pairs

The shorthand rule takes the value of a pair away and leaves its label.  The text without the value is
read to the same tree without the value, provided that what stands behind the pair ends a label: the
end of the line, or one of the tokens that the reader knows for that.  The rule itself does not ask for
it.

* `Document.Repeats.sole`       no other label with a value begins where the pair does;
* `Text.endsLabelAt`            what stands behind an offset ends a label;
* `Rule.shorthand_abbreviates`  what the edit of the rule does to text and tree.
-/

namespace Collate

theorem Node.pair_of_map {α β : Type} {f : α → β} {node : Node α} {key value : β} {colon : Bool}
    (h : node.map f = .pair key (some value) colon) :
    ∃ k v, node = .pair k (some v) colon ∧ f k = key ∧ f v = value := by
  cases node with
  | pair k v c =>
    injection h with hkey hvalue hcolon
    obtain ⟨v, rfl, hv⟩ := Option.map_eq_some_iff.mp hvalue
    exact ⟨k, v, by rw [hcolon], hkey, hv⟩
  | _ => exact nomatch h

theorem Node.parameter_of_map {α β : Type} {f : α → β} {node : Node α} {kind : ParameterKind}
    {name : Option Text} {fallback : β} (h : node.map f = .parameter kind name (some fallback)) :
    ∃ v, node = .parameter kind name (some v) := by
  cases node with
  | parameter k n v =>
    injection h with hkind hname hfallback
    obtain ⟨v, rfl, -⟩ := Option.map_eq_some_iff.mp hfallback
    exact ⟨v, by rw [hkind, hname]⟩
  | _ => exact nomatch h

theorem NodeTable.exists_spoiled {table : NodeTable} {root : Nat} {omitted : Nat → Bool}
    (h : table.Forest [root]) {tree : Tree} (hspoiled : tree.Spoiled omitted) :
    ∀ {id : Nat}, id < table.size → table.tree id = tree → ∃ x < table.size,
      (∃ key value, table.node x = .pair key (some value) true ∧
        omitted (table.span key).start = true ∧ ∀ name, table.node value ≠ .localVariable name) ∨
      (∃ kind name fallback, table.node x = .parameter kind name (some fallback) ∧
        omitted (table.span x).start = true) := by
  induction hspoiled with
  | @pair key value span hat hvalue =>
    intro id hid htree
    have hnode := (tree_node h hid).symm.trans (congrArg Tree.node htree)
    obtain ⟨k, v, hpair, rfl, rfl⟩ := Node.pair_of_map hnode
    refine ⟨id, hid, .inl ⟨k, v, hpair, hat, fun name hname => hvalue name ?_⟩⟩
    have hlt := h.child_lt id hid v (by rw [hpair]; simp [Node.children])
    rw [tree_node h (by omega), hname]
    rfl
  | @parameter kind name fallback span hat =>
    intro id hid htree
    have hnode := (tree_node h hid).symm.trans (congrArg Tree.node htree)
    obtain ⟨v, hparameter⟩ := Node.parameter_of_map hnode
    refine ⟨id, hid, .inr ⟨kind, name, v, hparameter, ?_⟩⟩
    rw [← tree_span, htree]
    exact hat
  | @child node span child hmem hchild ih =>
    intro id hid htree
    have hnode := (tree_node h hid).symm.trans (congrArg Tree.node htree)
    obtain rfl : (table.node id).map table.tree = node := hnode
    rw [Node.children_map] at hmem
    obtain ⟨x, hx, rfl⟩ := List.mem_map.mp hmem
    have hlt := h.child_lt id hid x hx
    exact ih (by omega) rfl

/-! ## one label at an offset -/

/-- a label with a value begins with the name of the label, which has no children -/
theorem Document.Placed.label_key {d : Document} (hd : d.Placed) {x key value : Nat}
    (hnode : d.node x = .pair key (some value) true) :
    (d.span key).start = (d.span x).start ∧ (d.span key).stop ≤ (d.span value).start ∧
      (d.span key).start < (d.span key).stop ∧ (d.node key).children = [] := by
  obtain ⟨hx, hxne⟩ := hd.inner (by rw [hnode]; simp) (by rw [hnode]; simp)
  have hrow := hd.table.row x hx
  change Tree.InRow ((d.node x).inOrder.map d.nodes.tree) _ _ at hrow
  rw [hnode] at hrow
  obtain ⟨hkey, -, -, -, -, -, held, -, hheld, -⟩ := hd.marked hx hxne hnode
  obtain ⟨hordered, -⟩ := NodeTable.Placed.row_ids hrow
  obtain ⟨hlt, hne⟩ := hd.child_ne_root hx hnode List.mem_cons_self
  have hchildren := congrArg Node.children hheld
  rw [NodeTable.tree_node hd.table.forest hlt, Node.children_map] at hchildren
  exact ⟨hkey, (List.pairwise_cons.mp hordered).1 value List.mem_cons_self, hd.table.nonempty hlt hne,
    List.map_eq_nil_iff.mp hchildren⟩

namespace Document.Repeats
variable {d : Document} {id key value : Nat} {name : Text}

/-- A construct that begins where the pair does and is neither of its two names holds the pair, in a
child that begins there too. -/
theorem inside_child (h : d.Repeats id name key value) (hd : d.Placed) {x : Nat}
    (hx : x < d.nodes.size) (hxne : x ≠ d.root) (hne : x ≠ id)
    (hsymbol : ∀ name, d.node x ≠ .symbol name) (hvariable : ∀ name, d.node x ≠ .localVariable name)
    (hstart : (d.span x).start = (d.span id).start) :
    ∃ child ∈ (d.node x).children, (d.span child).start = (d.span id).start ∧
      id ∈ d.nodes.preorder child := by
  obtain ⟨hid, hidne⟩ := hd.inner (by rw [h.node_eq]; simp) (by rw [h.node_eq]; simp)
  rcases hd.table.nested_of_start hx hxne hid hidne hne hstart with hout | hin
  · obtain ⟨child, hchild, hbelow⟩ := NodeTable.below_child_of_mem_ancestors hd.table.forest.grounded id hout
    refine ⟨child, hchild, ?_, hbelow⟩
    have hlt := hd.table.forest.child_lt x hx child hchild
    have h₁ := (hd.table.contained hx hchild).1
    have h₂ := (hd.table.preorder_contained child (by omega) hbelow).1
    change (d.span x).start ≤ (d.span child).start at h₁
    change (d.span child).start ≤ (d.span id).start at h₂
    omega
  · -- the children of the pair are its two names, and nothing is below them
    obtain ⟨child, hchild, hbelow⟩ := NodeTable.below_child_of_mem_ancestors hd.table.forest.grounded x hin
    have hlt := hd.table.forest.child_lt id hid child hchild
    have hleaf (hnone : (d.node child).children = []) : x = child :=
      NodeTable.eq_of_mem_preorder_leaf hd.table.forest.grounded (by omega) hnone hbelow
    change child ∈ (d.node id).children at hchild
    rw [h.node_eq] at hchild
    rcases List.mem_cons.mp hchild with rfl | hchild
    · exact absurd (by rw [hleaf (by rw [h.key_eq]; rfl)]; exact h.key_eq) (hsymbol name)
    · obtain rfl := List.mem_singleton.mp hchild
      exact absurd (by rw [hleaf (by rw [h.value_eq]; rfl)]; exact h.value_eq) (hvariable name)

theorem sole (h : d.Repeats id name key value) (hd : d.Placed) {x key' value' : Nat}
    (hnode : d.node x = .pair key' (some value') true)
    (hstart : (d.span key').start = (d.span id).start) : x = id := by
  obtain ⟨hx, hxne⟩ := hd.inner (by rw [hnode]; simp) (by rw [hnode]; simp)
  obtain ⟨hkey, hle, hpos, hnone⟩ := hd.label_key hnode
  by_cases hne : x = id
  · exact hne
  · obtain ⟨child, hchild, hchildStart, hbelow⟩ :=
      h.inside_child hd hx hxne hne (by rw [hnode]; simp) (by rw [hnode]; simp) (by omega)
    rw [hnode] at hchild
    rcases List.mem_cons.mp hchild with rfl | hchild
    · -- below the key there is only itself, and it has no children
      have hlt := (hd.child_ne_root hx hnode List.mem_cons_self).1
      obtain rfl := NodeTable.eq_of_mem_preorder_leaf hd.table.forest.grounded hlt hnone hbelow
      rw [h.node_eq] at hnone
      exact nomatch hnone
    · -- the value begins behind the key
      obtain rfl := List.mem_singleton.mp hchild
      omega

theorem not_parameter (h : d.Repeats id name key value) (hd : d.Placed) {x fallback : Nat}
    {kind : ParameterKind} {held : Option Text}
    (hnode : d.node x = .parameter kind held (some fallback)) :
    (d.span x).start ≠ (d.span id).start := by
  obtain ⟨hx, hxne⟩ := hd.inner (by rw [hnode]; simp) (by rw [hnode]; simp)
  have hbehind : (d.span x).start < (d.span fallback).start := hd.marked hx hxne hnode
  intro hstart
  have hne : x ≠ id := by
    rintro rfl
    exact nomatch hnode.symm.trans h.node_eq
  obtain ⟨child, hchild, hchildStart, -⟩ :=
    h.inside_child hd hx hxne hne (by rw [hnode]; simp) (by rw [hnode]; simp) hstart
  rw [hnode] at hchild
  obtain rfl := List.mem_singleton.mp hchild
  omega

/-- where the pair begins, nothing is in the way of leaving its value out -/
theorem not_spoiled (h : d.Repeats id name key value) (hd : d.Placed) :
    ¬d.tree.Spoiled (· == (d.span id).start) := by
  intro hspoiled
  obtain ⟨x, -, ⟨key', value', hnode, hat, hvalue⟩ | ⟨kind, held, fallback, hnode, hat⟩⟩ :=
    NodeTable.exists_spoiled hd.table.forest hspoiled hd.table.root_lt rfl
  · obtain rfl := h.sole hd hnode (eq_of_beq hat)
    have heq := hnode.symm.trans h.node_eq
    injection heq with _ hsome
    obtain rfl := Option.some.inj hsome
    exact hvalue name h.value_eq
  · exact h.not_parameter hd hnode (eq_of_beq hat)

end Document.Repeats

/-! ## the edit -/

/-- The first token from an offset on, or else the end of the text, ends a label: it stands on a new
line, or is of one of the kinds that do. -/
def Text.endsLabelAt (t : Text) (offset : Nat) : Bool :=
  match TokenStream.read t with
  | .ok stream =>
    let token :=
      (stream.tokens.find? (fun token => decide (offset ≤ token.span.start))).getD stream.eof
    token.newlineBefore || Parse.endsLabel token.kind
  | .error _ => false

theorem find?_behind {t : Text} {front rest : List Token} {last : Token}
    (htokens : t.tokens = front ++ last :: rest) :
    t.tokens.find? (fun token => decide (last.span.stop ≤ token.span.start)) = rest.head? := by
  obtain ⟨hfit, hordered⟩ := t.tokens_fit
  rw [htokens] at hfit hordered ⊢
  obtain ⟨-, hlast, hfront⟩ := List.pairwise_append.mp hordered
  have hpos := (hfit last (by simp)).nonempty
  have hnone : front.find? (fun token => decide (last.span.stop ≤ token.span.start)) = none := by
    refine List.find?_eq_none.mpr fun token hmem => ?_
    have h₁ : token.span.stop ≤ last.span.start := hfront token hmem last List.mem_cons_self
    have h₂ := (hfit token (by simp [hmem])).nonempty
    simp only [decide_eq_true_eq]
    omega
  rw [List.find?_append, hnone, Option.none_or, List.find?_cons_of_neg (by simpa using hpos)]
  cases rest with
  | nil => rfl
  | cons next rest =>
    have hnext : last.span.stop ≤ next.span.start :=
      (List.pairwise_cons.mp hlast).1 next List.mem_cons_self
    rw [List.find?_cons_of_pos (by simpa using hnext)]
    rfl

theorem Text.endsLabelAt_eq {t : Text} {stream : TokenStream} (hread : TokenStream.read t = .ok stream)
    {front rest : List Token} {last : Token} (htokens : stream.tokens = front ++ last :: rest) :
    t.endsLabelAt last.span.stop = ((rest.headD stream.eof).newlineBefore ||
      Parse.endsLabel (rest.headD stream.eof).kind) := by
  have hstream := Text.tokens_of_read hread
  have hfind := find?_behind (hstream.trans htokens)
  rw [hstream] at hfind
  rw [endsLabelAt, hread]
  dsimp only
  rw [hfind, List.headD_eq_head?_getD]

/-- **Abbreviating a pair.**  The replacement is what the pair begins with, up to its colon.  If what
stands behind the pair ends a label, the mended text is read, to the old tree without the value of that
pair, and no other label has its value left out. -/
theorem Rule.shorthand_abbreviates (t : Text) (d : Document) (s : Settings) (id : Nat) (o : Offense)
    (hread : Document.read t = .ok d) (hfound : Rule.shorthand.find s d id = some o) :
    ∃ name front gap behind,
      t = front ++ (name ++ [':'] ++ gap ++ name) ++ behind ∧
      d.source id = .ok (name ++ [':'] ++ gap ++ name) ∧
      o.edit = some ⟨d.span id, name ++ [':']⟩ ∧
      Edit.applyAll t [⟨d.span id, name ++ [':']⟩] = .ok (front ++ (name ++ [':']) ++ behind) ∧
      (t.endsLabelAt (d.span id).stop = true →
        ∃ d', Document.read (front ++ (name ++ [':']) ++ behind) = .ok d' ∧
          d'.tree.bare = d.tree.outline (· == (d.span id).start)) ∧
      ∀ x key value, d.node x = .pair key (some value) true →
        ((d.span key).start = (d.span id).start ↔ x = id) := by
  obtain ⟨rfl, hd⟩ := Document.placed_of_read hread
  obtain ⟨comments, htree, -⟩ := Document.read_eq_ok.mp hread
  obtain ⟨stream, -, -, hstream, -⟩ := Tree.read_eq_ok.mp htree
  obtain ⟨name, key, value, hrepeats, hedit⟩ := Rule.shorthand_found hfound
  obtain ⟨front, label, next, rest, htokens, hlabel, hstart, hnext, hline, hstop⟩ :=
    hrepeats.exists_tokens hd
  have hstreamTokens := htokens
  rw [Text.tokens_of_read hstream] at hstreamTokens
  obtain ⟨head, gap, tail, ht, hhead, hcut, hmended⟩ :=
    TokenStream.read_without hstream hstreamTokens hlabel hnext hline
  have hspan : d.span id = ⟨head.size, (head ++ (name ++ [':'] ++ gap ++ name)).size⟩ := by
    rw [hhead, hcut, hstart, hstop]
  have hmendedText : Edit.applyAll d.text [⟨d.span id, name ++ [':']⟩]
      = .ok (head ++ (name ++ [':']) ++ tail) := by
    rw [ht, hspan]
    exact Edit.applyAll_single
  refine ⟨name, head, gap, tail, ht, ?_, hedit, hmendedText, fun hends => ?_, fun x key' value' hnode => ?_⟩
  · have hslice : d.text.slice? (d.span id) = some (name ++ [':'] ++ gap ++ name) :=
      Text.slice?_eq_some.mpr ⟨head, tail, ht, by rw [hspan], by rw [hspan, Text.size_append]⟩
    rw [Document.source, Text.slice, hslice]
  · -- the token behind the pair is the one behind its value
    have hsplit : stream.tokens = (front ++ [label]) ++ next :: rest := by
      rw [hstreamTokens, List.append_assoc]
      rfl
    rw [← hstop, Text.endsLabelAt_eq hstream hsplit] at hends
    obtain ⟨stream', hstream', hbeside⟩ := hmended hends
    rw [hstart] at hbeside
    rcases Tree.read_beside hstream hstream' hbeside htree with hspoiled | ⟨tree', comments', htree', hbare⟩
    · exact absurd hspoiled (hrepeats.not_spoiled hd)
    · obtain ⟨d', hd', rfl⟩ := Document.exists_read htree'
      exact ⟨d', hd', hbare⟩
  · constructor
    · exact hrepeats.sole hd hnode
    · rintro rfl
      exact (hd.label_key hnode).1

/-- a pair in front of a comma, among the arguments of a call with a block -/
theorem Rule.shorthand_abbreviates_before_comma :
    let t : Text := "x = 1\nfoo.bar(x: x, y: 2) \x7b |z| z \x7d".toList
    ∃ d id o d', Document.read t = .ok d ∧ Rule.shorthand.find .default d id = some o ∧
      Document.read "x = 1\nfoo.bar(x:, y: 2) \x7b |z| z \x7d".toList = .ok d' ∧
      d'.tree.bare = d.tree.outline (· == 14) := by
  intro t
  have hfacts : (Document.read t).toOption.bind (fun d => (Rule.shorthand.find .default d 5).bind
      (fun o => o.edit.bind (fun e => (Edit.applyAll t [e]).toOption.map
        (fun mended => (mended, (d.span 5).start, t.endsLabelAt (d.span 5).stop)))))
      = some ("x = 1\nfoo.bar(x:, y: 2) \x7b |z| z \x7d".toList, 14, true) := by
    decide +kernel
  obtain ⟨d, hd, hfacts⟩ := Option.bind_eq_some_iff.mp hfacts
  obtain ⟨o, ho, hfacts⟩ := Option.bind_eq_some_iff.mp hfacts
  obtain ⟨e, he, hfacts⟩ := Option.bind_eq_some_iff.mp hfacts
  obtain ⟨mended, hmended, hplace⟩ := Option.map_eq_some_iff.mp hfacts
  obtain ⟨hwritten, hbehind⟩ := Prod.mk.inj hplace
  obtain ⟨hstart, hends⟩ := Prod.mk.inj hbehind
  obtain ⟨name, front, gap, behind, -, -, hedit, happly, hread, -⟩ :=
    Rule.shorthand_abbreviates t d .default 5 o (eq_ok_of_toOption hd) ho
  obtain rfl : e = ⟨d.span 5, name ++ [':']⟩ := Option.some.inj (he.symm.trans hedit)
  have htext := Except.ok.inj (happly.symm.trans (eq_ok_of_toOption hmended))
  obtain ⟨d', hd', hbare⟩ := hread hends
  rw [htext, hwritten] at hd'
  rw [hstart] at hbare
  exact ⟨d, 5, o, d', eq_ok_of_toOption hd, ho, hd', hbare⟩

end Collate
