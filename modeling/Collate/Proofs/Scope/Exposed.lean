import Collate.Proofs.Scope.Sight

/-!
# Names behind a node

The judgment on trees, in the words of a document: what the names in sight before and behind a node say of
its children, and which names a node leaves in sight behind it.  These are the names that something within
the node binds outside of all scopes that are opened there.

* `Document.Placed.resolved_node`    the judgment of a node, taken apart into those of its children;
* `Document.Exposes`                 a node leaves a name in sight behind it;
* `Document.Placed.mem_after_iff`    the names behind a node are those before it and those it exposes;
* `Document.Placed.resolved_at`      every node of a document that is resolved is so itself.
-/

namespace Collate

namespace Node
variable {α β : Type}

theorem opening_map (f : α → β) (node : Node α) : (node.map f).opening = node.opening := by
  cases node <;> rfl

theorem closing_map (f : α → β) (node : Node α) : (node.map f).closing = node.closing := by
  cases node <;> rfl

theorem settled_map (t : Text) (f : α → β) (place : β → Span) (span : Span) (names : List Text)
    (node : Node α) :
    (node.map f).Settled t place span names ↔ node.Settled t (place ∘ f) span names := by
  cases node with
  | call receiver method selector args => cases receiver <;> exact Iff.rfl
  | _ => exact Iff.rfl

/-- a construct that opens a scope brings no name in sight and is no name -/
theorem quiet_of_scope? {t : Text} {place : α → Span} {span : Span} {node : Node α} {scope : Scope α}
    (h : node.scope? t place span = some scope) :
    node.opening = [] ∧ node.closing = [] ∧ ∀ names, node.Settled t place span names := by
  cases node with
  | program body => exact ⟨rfl, rfl, fun _ => trivial⟩
  | definition keyword name singleton params body => exact ⟨rfl, rfl, fun _ => trivial⟩
  | block owner params body => exact ⟨rfl, rfl, fun _ => trivial⟩
  | other children => exact ⟨rfl, rfl, fun _ => trivial⟩
  | _ => cases h

end Node

namespace Document
variable {d : Document} {id x child : Nat} {before after : List Text} {name : Text}

/-- the node brings the name in sight -/
def Declares (d : Document) (binder : Nat) (name : Text) : Prop :=
  name ∈ (d.node binder).opening ∨ name ∈ (d.node binder).closing

/-- something within the node brings the name in sight, in no scope that is opened there -/
def Exposes (d : Document) (id : Nat) (name : Text) : Prop :=
  ∃ binder, d.Within id binder ∧ d.Declares binder name ∧ ∀ scope, d.Holds scope binder → d.Holds scope id

theorem mem_afterAll_iff {ids : List Nat}
    (hall : ∀ id ∈ ids, ∀ before after, (d.nodes.tree id).Resolved d.text before after →
      (name ∈ after ↔ name ∈ before ∨ d.Exposes id name)) :
    ∀ {before}, Tree.ResolvedAll d.text before (ids.map d.nodes.tree) after →
      (name ∈ after ↔ name ∈ before ∨ ∃ id ∈ ids, d.Exposes id name) := by
  induction ids with
  | nil =>
    intro before hresolved
    cases hresolved with
    | nil => simp
  | cons id ids ih =>
    intro before hresolved
    cases hresolved with
    | cons hfirst hrest =>
      rw [ih (fun x hx => hall x (List.mem_cons_of_mem _ hx)) hrest,
        hall id List.mem_cons_self _ _ hfirst]
      simp [or_assoc]

namespace Placed
variable (h : d.Placed)
include h

/-- the judgment of a node, taken apart into those of the children outside and inside of its scope -/
theorem resolved_node (hid : id < d.nodes.size)
    (hresolved : (d.nodes.tree id).Resolved d.text before after) :
    (d.node id).Settled d.text d.span (d.span id) before ∧ ∃ names last,
      Tree.ResolvedAll d.text ((d.node id).opening ++ before) ((d.outer id).map d.nodes.tree) names ∧
      after = (d.node id).closing ++ names ∧
      Tree.ResolvedAll d.text (if d.isClosed id then [] else names) ((d.inner id).map d.nodes.tree)
        last := by
  rw [NodeTable.tree_eq h.table.forest hid] at hresolved
  have hmap := Node.scope?_map d.text d.nodes.tree Tree.span (d.nodes.span id) (d.nodes.node id)
  change _ = (d.scope? id).map _ at hmap
  cases hresolved with
  | @plain _ _ _ names hscope hsettled hchildren =>
    rw [hscope] at hmap
    have hnone : d.scope? id = none := Option.map_eq_none_iff.mp hmap.symm
    rw [Node.opening_map, Node.inOrder_map] at hchildren
    refine ⟨(Node.settled_map _ d.nodes.tree Tree.span _ _ _).mp hsettled, names,
      if d.isClosed id then [] else names, ?_, ?_, ?_⟩
    · rw [outer, hnone]
      exact hchildren
    · rw [Node.closing_map]
      rfl
    · rw [Document.inner, hnone]
      exact .nil _
  | @scope _ _ scope _ _ last hscope houtside hinside =>
    rw [hscope] at hmap
    obtain ⟨held, hheld, rfl⟩ := Option.map_eq_some_iff.mp hmap.symm
    obtain ⟨hopening, hclosing, hsettled⟩ := Node.quiet_of_scope? hheld
    refine ⟨hsettled before, after, last, ?_, ?_, ?_⟩
    · rw [hopening, outer, hheld]
      exact houtside
    · rw [hclosing]
      rfl
    · have hnames : (if d.isClosed id then [] else after) = (held.map d.nodes.tree).names after := by
        rw [isClosed, hheld]
        obtain ⟨sight, outside, inside⟩ := held
        cases sight <;> rfl
      rw [hnames, Document.inner, hheld]
      exact hinside

theorem within_child (hx : d.Within id x) : x = id ∨ ∃ child ∈ (d.node id).children, d.Within child x := by
  rcases hx with rfl | hx
  · exact .inl rfl
  · obtain ⟨child, hchild, hbelow⟩ := NodeTable.below_child_of_mem_ancestors h.table.forest.grounded x hx
    have hlt := (h.table.child_ne_root (lt_of_mem_children hchild) hchild).1
    refine .inr ⟨child, hchild, ?_⟩
    by_cases heq : x = child
    · exact .inl heq
    · exact .inr (NodeTable.mem_ancestors_of_below h.table.forest.unshared hlt x hbelow heq)

theorem within_of_child (hchild : child ∈ (d.node id).children) : d.Within id child :=
  (h.within_parent (h.parent_of_child hchild)).mpr (.inr (.inl rfl))

/-- a node exposes what it declares itself, and what the children outside of its scope expose -/
theorem exposes_iff : d.Exposes id name ↔ d.Declares id name ∨ ∃ child ∈ d.outer id, d.Exposes child name := by
  constructor
  · rintro ⟨binder, hwithin, hdeclares, hscopes⟩
    rcases h.within_child hwithin with rfl | ⟨child, hchild, hbelow⟩
    · exact .inl hdeclares
    · rcases mem_children_iff.mp hchild with houter | hinner
      · refine .inr ⟨child, houter, binder, hbelow, hdeclares, fun scope hscope => ?_⟩
        exact h.holds_mono (h.within_of_child hchild) (hscopes scope hscope)
      · exact absurd (h.lt_of_holds (hscopes id ⟨child, hinner, hbelow⟩)) (Nat.lt_irrefl id)
  · rintro (hdeclares | ⟨child, houter, binder, hwithin, hdeclares, hscopes⟩)
    · exact ⟨id, .inl rfl, hdeclares, fun _ hscope => hscope⟩
    · have hchild := mem_children_iff.mpr (.inl houter)
      refine ⟨binder, h.within_trans (h.within_of_child hchild) hwithin, hdeclares, fun scope hscope => ?_⟩
      rcases (h.holds_parent (h.parent_of_child hchild)).mp (hscopes scope hscope) with hheld | ⟨-, hinner⟩
      · exact hheld
      · exact absurd hinner (h.not_inner_of_outer houter)

/-- the names behind a node are those before it and those that it exposes -/
theorem mem_after_iff (id : Nat) : ∀ before after, id < d.nodes.size →
    (d.nodes.tree id).Resolved d.text before after →
      (name ∈ after ↔ name ∈ before ∨ d.Exposes id name) := by
  induction id using Nat.strongRecOn with
  | ind id ih =>
    intro before after hid hresolved
    obtain ⟨-, names, last, houter, rfl, -⟩ := h.resolved_node hid hresolved
    have hrow := mem_afterAll_iff (fun child hchild before after hchildResolved => by
      have hlt := h.table.forest.child_lt id hid child (mem_children_iff.mpr (.inl hchild))
      exact ih child hlt before after (by omega) hchildResolved) houter
    rw [List.mem_append, hrow, h.exposes_iff, Declares, List.mem_append]
    grind

/-- a node in a row of which the judgment holds: the names before it, and its own judgment -/
theorem resolved_in_row {front rest : List Nat} (hids : ∀ id ∈ front, id < d.nodes.size)
    (hresolved : Tree.ResolvedAll d.text before ((front ++ x :: rest).map d.nodes.tree) after) :
    ∃ names behind, (d.nodes.tree x).Resolved d.text names behind ∧
      ∀ name, name ∈ names ↔ name ∈ before ∨ ∃ id ∈ front, d.Exposes id name := by
  rw [List.map_append, List.map_cons] at hresolved
  obtain ⟨names, hfront, hrest⟩ := hresolved.split
  cases hrest with
  | @cons _ _ _ behind _ hx _ =>
    refine ⟨names, behind, hx, fun name => ?_⟩
    exact mem_afterAll_iff (fun id hid before after => h.mem_after_iff id before after (hids id hid)) hfront

theorem resolved_at (hroot : (d.nodes.tree d.root).Resolved d.text [] []) (x : Nat) :
    x < d.nodes.size → ∃ before after, (d.nodes.tree x).Resolved d.text before after := by
  refine NodeTable.parent_induction h.table.forest.grounded (P := fun x => x < d.nodes.size →
    ∃ before after, (d.nodes.tree x).Resolved d.text before after) ?_ ?_ x
  · intro x hp hx
    have hmem := (h.table.forest.root_iff x).mpr ⟨hx, hp⟩
    obtain rfl := List.mem_singleton.mp hmem
    exact ⟨[], [], hroot⟩
  · intro x parent hp ih _
    obtain ⟨hparent, hchild⟩ := (h.table.forest.parent_iff x parent).mp hp
    obtain ⟨before, after, hresolved⟩ := ih hparent
    obtain ⟨-, names, last, houter, -, hinner⟩ := h.resolved_node hparent hresolved
    have hids (ids : List Nat) (hsub : ∀ id ∈ ids, id ∈ (d.node parent).children) :
        ∀ id ∈ ids, id < d.nodes.size :=
      fun id hid => (h.table.child_ne_root hparent (hsub id hid)).1
    rcases mem_children_iff.mp hchild with hmem | hmem
    · obtain ⟨front, rest, hsplit⟩ := List.append_of_mem hmem
      rw [hsplit] at houter
      obtain ⟨names, behind, hx, -⟩ := h.resolved_in_row (hids front fun id hid =>
        mem_children_iff.mpr (.inl (by rw [hsplit]; simp [hid]))) houter
      exact ⟨names, behind, hx⟩
    · obtain ⟨front, rest, hsplit⟩ := List.append_of_mem hmem
      rw [hsplit] at hinner
      obtain ⟨names, behind, hx, -⟩ := h.resolved_in_row (hids front fun id hid =>
        mem_children_iff.mpr (.inr (by rw [hsplit]; simp [hid]))) hinner
      exact ⟨names, behind, hx⟩

end Placed

end Document

end Collate
