import Collate.Proofs.Scope.Exposed
import Collate.Proofs.Scope.Statement
import Collate.Proofs.Sequence.Safe

/-!
# Local variables and calls

An identifier that is read as an expression is a local variable exactly if a binding of its name is in
sight.  The names that the reader has in sight at a node are told from the document alone: step by step from
a parent to its children, a name is in sight because it is so at the parent, because the parent is an
assignment to it, or because a child further left exposes it.

* `Document.Placed.reaches_child`   the step from a parent to a child;
* `Document.Placed.names_at`        the names that the reader has in sight at a node;
* `Document.read_resolves`          variables and calls of a text that is read.
-/

namespace Collate

namespace Document
variable {d : Document} {id x child parent binder : Nat} {name : Text} {offset : Nat}

theorem Binds.declares (hbinds : d.Binds binder name offset) : d.Declares binder name := by
  rcases hbinds with ⟨value, hnode, -⟩ | ⟨kind, fallback, hnode, -⟩
  · left
    rw [hnode]
    exact List.mem_cons_self
  · right
    rw [hnode]
    exact List.mem_cons_self

theorem Binds.mono {offset' : Nat} (hbinds : d.Binds binder name offset) (hle : offset ≤ offset') :
    d.Binds binder name offset' := by
  rcases hbinds with ⟨value, hnode, hlt⟩ | ⟨kind, fallback, hnode, hstop⟩
  · exact .inl ⟨value, hnode, Nat.lt_of_lt_of_le hlt hle⟩
  · exact .inr ⟨kind, fallback, hnode, Nat.le_trans hstop hle⟩

theorem Declares.binds (hdeclares : d.Declares binder name)
    (hpos : (d.span binder).start < (d.span binder).stop) (hstop : (d.span binder).stop ≤ offset) :
    d.Binds binder name offset := by
  rcases hdeclares with hopening | hclosing
  · obtain ⟨value, hnode⟩ := Node.eq_assignment_of_opening hopening
    exact .inl ⟨value, hnode, Nat.lt_of_lt_of_le hpos hstop⟩
  · obtain ⟨kind, fallback, hnode⟩ := Node.eq_parameter_of_closing hclosing
    exact .inr ⟨kind, fallback, hnode, hstop⟩

namespace Placed
variable (h : d.Placed)
include h

/-! ## places of bindings -/

theorem binder_lt (hbinds : d.Declares binder name) : binder < d.nodes.size ∧ binder ≠ d.root := by
  rcases hbinds with hopening | hclosing
  · obtain ⟨value, hnode⟩ := Node.eq_assignment_of_opening hopening
    exact h.inner (by rw [hnode]; simp) (by rw [hnode]; simp)
  · obtain ⟨kind, fallback, hnode⟩ := Node.eq_parameter_of_closing hclosing
    exact h.inner (by rw [hnode]; simp) (by rw [hnode]; simp)

theorem binder_nonempty (hbinds : d.Declares binder name) :
    (d.span binder).start < (d.span binder).stop :=
  h.table.nonempty (h.binder_lt hbinds).1 (h.binder_lt hbinds).2

theorem within_contained (x : Nat) : d.Within id x →
    (d.span id).start ≤ (d.span x).start ∧ (d.span x).stop ≤ (d.span id).stop := by
  refine NodeTable.parent_induction h.table.forest.grounded (P := fun x => d.Within id x →
    (d.span id).start ≤ (d.span x).start ∧ (d.span x).stop ≤ (d.span id).stop) ?_ ?_ x
  · intro x hp hwithin
    rcases hwithin with rfl | hwithin
    · exact ⟨Nat.le_refl _, Nat.le_refl _⟩
    · rw [Document.ancestors, NodeTable.ancestors_of_no_parent hp] at hwithin
      cases hwithin
  · intro x parent hp ih hwithin
    obtain ⟨hparent, hchild⟩ := (h.table.forest.parent_iff x parent).mp hp
    rcases (h.within_parent hp).mp hwithin with rfl | hwithin
    · exact ⟨Nat.le_refl _, Nat.le_refl _⟩
    · have h₁ := ih hwithin
      have h₂ : (d.span parent).start ≤ (d.span x).start ∧ (d.span x).stop ≤ (d.span parent).stop :=
        h.table.contained hparent hchild
      omega

theorem not_binds_within (hwithin : d.Within id binder) (hle : offset ≤ (d.span id).start) :
    ¬ d.Binds binder name offset := by
  intro hbinds
  have h₁ := h.within_contained binder hwithin
  have h₂ := h.binder_nonempty hbinds.declares
  rcases hbinds with ⟨value, -, hlt⟩ | ⟨kind, fallback, -, hstop⟩
  · omega
  · omega

theorem assignment_start (hroot : (d.nodes.tree d.root).Resolved d.text [] []) {value : Nat}
    (hnode : d.node id = .assignment name value) : (d.span id).start < (d.span value).start := by
  have hid := (h.inner (by rw [hnode]; simp) (by rw [hnode]; simp)).1
  obtain ⟨before, after, hresolved⟩ := h.resolved_at hroot id hid
  have hsettled := (h.resolved_node hid hresolved).1
  rw [hnode] at hsettled
  exact hsettled

/-- a binding outside of a node that stands in front of a child stands in front of the node -/
theorem binds_parent (hroot : (d.nodes.tree d.root).Resolved d.text [] [])
    (hchild : child ∈ (d.node parent).children) (houtside : ¬ d.Within parent binder)
    (hbinds : d.Binds binder name (d.span child).start) : d.Binds binder name (d.span parent).start := by
  have hparent := lt_of_mem_children hchild
  have hbinder := h.binder_lt hbinds.declares
  have hpos := h.binder_nonempty hbinds.declares
  have hin : (d.span parent).start ≤ (d.span child).start ∧ (d.span child).stop ≤ (d.span parent).stop :=
    h.table.contained hparent hchild
  have hne := h.table.child_ne_root hparent hchild
  have hchildPos : (d.span child).start < (d.span child).stop := h.table.nonempty hne.1 hne.2
  rcases h.table.nested_or_apart_of_ne hbinder.1 hparent (fun heq => houtside (.inl heq)) with
    (haround | hbefore) | (hbelow | hbehind)
  · -- the binding is around both: an assignment, whose value they are in
    rcases h.within_child (.inr haround) with rfl | ⟨held, hheld, hwithin⟩
    · exact absurd (.inl rfl) houtside
    · rcases hbinds with ⟨value, hnode, -⟩ | ⟨kind, fallback, hnode, hstop⟩
      · refine .inl ⟨value, hnode, ?_⟩
        rw [hnode] at hheld
        obtain rfl := List.mem_singleton.mp hheld
        have h₁ := h.assignment_start hroot hnode
        have h₂ := (h.within_contained parent hwithin).1
        omega
      · have h₁ := (h.within_contained parent (.inr haround)).2
        omega
  · exact hbinds.declares.binds hpos hbefore
  · exact absurd (.inr hbelow) houtside
  · -- the binding is behind both
    have h₁ : (d.span parent).stop ≤ (d.span binder).start := hbehind
    rcases hbinds with ⟨value, -, hlt⟩ | ⟨kind, fallback, -, hstop⟩
    · omega
    · omega

/-! ## from a parent to its children -/

/-- a scope that holds a child, and a binding within its sibling, holds the sibling -/
theorem holds_sibling {sibling : Nat} (hchild : child ∈ (d.node parent).children)
    (hsibling : sibling ∈ (d.node parent).children) (hbelow : d.Within sibling binder)
    (hholds : d.Holds id binder) (hshared : d.Holds id child) : d.Holds id sibling := by
  rcases h.holds_or_within binder hbelow hholds with hheld | hopened
  · exact hheld
  · -- a scope that is opened in the sibling does not hold the child
    have h₁ := h.le_of_within hopened
    have h₂ := h.table.forest.child_lt parent (lt_of_mem_children hchild) sibling hsibling
    rcases (h.holds_parent (h.parent_of_child hchild)).mp hshared with hheld | ⟨rfl, -⟩
    · have h₃ := h.lt_of_holds hheld
      omega
    · omega

theorem reaches_of_opening (hroot : (d.nodes.tree d.root).Resolved d.text [] [])
    (hchild : child ∈ (d.node parent).children) (hopening : name ∈ (d.node parent).opening) :
    d.Reaches name child := by
  have hup {id : Nat} := @holds_parent d id child parent h (h.parent_of_child hchild)
  obtain ⟨value, hnode⟩ := Node.eq_assignment_of_opening hopening
  rw [hnode] at hchild
  obtain rfl := List.mem_singleton.mp hchild
  refine ⟨parent, .inl ⟨child, hnode, h.assignment_start hroot hnode⟩, ?_, ?_⟩
  · exact fun id hholds => hup.mpr (.inl hholds)
  · intro id _ hholds
    rcases hup.mp hholds with hheld | ⟨-, hinner⟩
    · exact hheld
    · -- an assignment opens no scope
      rw [Document.inner, scope?, hnode] at hinner
      cases hinner

/-- a child sees what its parent sees, unless it is inside of a closed scope -/
theorem reaches_of_parent (hchild : child ∈ (d.node parent).children) (hreaches : d.Reaches name parent)
    (hnot : ¬ (child ∈ d.inner parent ∧ d.isClosed parent = true)) : d.Reaches name child := by
  obtain ⟨binder, hbinds, hshared, hclosed⟩ := hreaches
  have hup {id : Nat} := @holds_parent d id child parent h (h.parent_of_child hchild)
  refine ⟨binder, hbinds.mono (h.within_contained child (h.within_of_child hchild)).1, ?_, ?_⟩
  · exact fun id hholds => hup.mpr (.inl (hshared id hholds))
  · intro id hshut hholds
    rcases hup.mp hholds with hheld | ⟨rfl, hinner⟩
    · exact hclosed id hshut hheld
    · exact absurd ⟨hinner, hshut⟩ hnot

/-- a child sees what a sibling in front of it exposes, unless a closed scope begins between them -/
theorem reaches_of_sibling {sibling : Nat} (hchild : child ∈ (d.node parent).children)
    (hsibling : sibling ∈ (d.node parent).children) (hstop : (d.span sibling).stop ≤ (d.span child).start)
    (hside : sibling ∈ d.inner parent → child ∈ d.inner parent) (hexposes : d.Exposes sibling name)
    (hnot : ¬ (sibling ∈ d.outer parent ∧ child ∈ d.inner parent ∧ d.isClosed parent = true)) :
    d.Reaches name child := by
  obtain ⟨binder, hbelow, hdeclares, hexposed⟩ := hexposes
  have hup {id : Nat} := @holds_parent d id child parent h (h.parent_of_child hchild)
  have hupSibling {id : Nat} := @holds_parent d id sibling parent h (h.parent_of_child hsibling)
  have hin := (h.within_contained binder hbelow).2
  refine ⟨binder, hdeclares.binds (h.binder_nonempty hdeclares) (by omega), ?_, ?_⟩
  · intro id hholds
    rcases hupSibling.mp (hexposed id hholds) with hheld | ⟨rfl, hinner⟩
    · exact hup.mpr (.inl hheld)
    · exact hup.mpr (.inr ⟨rfl, hside hinner⟩)
  · intro id hshut hholds
    rcases hup.mp hholds with hheld | ⟨rfl, hinner⟩
    · exact h.holds_mono hbelow (hupSibling.mpr (.inl hheld))
    · rcases mem_children_iff.mp hsibling with houter | hinside
      · exact absurd ⟨houter, hinner, hshut⟩ hnot
      · exact h.holds_mono hbelow (hupSibling.mpr (.inr ⟨rfl, hinside⟩))

/-- What is in sight of a child: what the parent brings in sight, what is in sight of the parent, and what
the children in front of it expose.  A child inside of a closed scope sees nothing from outside of it. -/
theorem reaches_child (hroot : (d.nodes.tree d.root).Resolved d.text [] []) {front : List Nat}
    (hchild : child ∈ (d.node parent).children)
    (hfront : ∀ sibling ∈ front, sibling ∈ (d.node parent).children ∧
      (d.span sibling).stop ≤ (d.span child).start ∧
      (sibling ∈ d.inner parent → child ∈ d.inner parent))
    (hrest : ∀ sibling ∈ (d.node parent).children, sibling ∉ front →
      (d.span child).start ≤ (d.span sibling).start) :
    d.Reaches name child ↔ name ∈ (d.node parent).opening ∨
      (d.Reaches name parent ∧ ¬ (child ∈ d.inner parent ∧ d.isClosed parent = true)) ∨
      ∃ sibling ∈ front, d.Exposes sibling name ∧
        ¬ (sibling ∈ d.outer parent ∧ child ∈ d.inner parent ∧ d.isClosed parent = true) := by
  have hup {id : Nat} := @holds_parent d id child parent h (h.parent_of_child hchild)
  have hparent := lt_of_mem_children hchild
  constructor
  · rintro ⟨binder, hbinds, hshared, hclosed⟩
    by_cases hwithin : d.Within parent binder
    · rcases h.within_child hwithin with rfl | ⟨sibling, hsibling, hbelow⟩
      · -- the parent itself, which no parameter can be
        rcases hbinds with ⟨value, hnode, -⟩ | ⟨kind, fallback, hnode, hstop⟩
        · left
          rw [hnode]
          exact List.mem_cons_self
        · have hin := (h.within_contained child (h.within_of_child hchild)).2
          have hne := h.table.child_ne_root hparent hchild
          have hpos : (d.span child).start < (d.span child).stop := h.table.nonempty hne.1 hne.2
          omega
      · by_cases hmem : sibling ∈ front
        · have hexposed (id : Nat) (hholds : d.Holds id binder) : d.Holds id sibling :=
            h.holds_sibling hchild hsibling hbelow hholds (hshared id hholds)
          refine .inr (.inr ⟨sibling, hmem, ⟨binder, hbelow, hbinds.declares, hexposed⟩, ?_⟩)
          rintro ⟨houter, hinner, hshut⟩
          have hheld := hexposed parent (hclosed parent hshut (hup.mpr (.inr ⟨rfl, hinner⟩)))
          rcases (h.holds_parent (h.parent_of_child hsibling)).mp hheld with hself | ⟨-, hinside⟩
          · exact Nat.lt_irrefl parent (h.lt_of_holds hself)
          · exact h.not_inner_of_outer houter hinside
        · exact absurd hbinds (h.not_binds_within hbelow (hrest sibling hsibling hmem))
    · -- from outside of the parent
      have hnot : ¬ d.Holds parent binder := fun hholds => hwithin (.inr (h.mem_ancestors_of_holds hholds))
      refine .inr (.inl ⟨⟨binder, h.binds_parent hroot hchild hwithin hbinds, ?_, ?_⟩, ?_⟩)
      · intro id hholds
        rcases hup.mp (hshared id hholds) with hheld | ⟨rfl, -⟩
        · exact hheld
        · exact absurd hholds hnot
      · exact fun id hshut hholds => hclosed id hshut (hup.mpr (.inl hholds))
      · exact fun hinside => hnot (hclosed parent hinside.2 (hup.mpr (.inr ⟨rfl, hinside.1⟩)))
  · rintro (hopening | ⟨hreaches, hnot⟩ | ⟨sibling, hmem, hexposes, hnot⟩)
    · exact h.reaches_of_opening hroot hchild hopening
    · exact h.reaches_of_parent hchild hreaches hnot
    · obtain ⟨hsibling, hstop, hside⟩ := hfront sibling hmem
      exact h.reaches_of_sibling hchild hsibling hstop hside hexposes hnot

theorem row_split (hid : id < d.nodes.size) {front rest : List Nat}
    (hsplit : (d.node id).inOrder = front ++ child :: rest) :
    (∀ sibling ∈ front, (d.span sibling).stop ≤ (d.span child).start) ∧
      ∀ sibling ∈ (d.node id).children, sibling ∉ front → (d.span child).start ≤ (d.span sibling).start := by
  have hordered := (NodeTable.Placed.row_ids (h.table.row id hid)).1
  change (d.node id).inOrder.Pairwise _ at hordered
  rw [hsplit, List.pairwise_append] at hordered
  refine ⟨fun sibling hmem => hordered.2.2 sibling hmem child List.mem_cons_self, ?_⟩
  intro sibling hmem hnot
  rw [← Node.mem_inOrder, hsplit] at hmem
  rcases List.mem_append.mp hmem with hmem | hmem
  · exact absurd hmem hnot
  · rcases List.mem_cons.mp hmem with rfl | hmem
    · exact Nat.le_refl _
    · have h₁ : (d.span child).stop ≤ (d.span sibling).start :=
        (List.pairwise_cons.mp hordered.2.1).1 sibling hmem
      have hchild : child ∈ (d.node id).children := by
        rw [← Node.mem_inOrder, hsplit]
        simp
      have hne := h.table.child_ne_root hid hchild
      have h₂ : (d.span child).start < (d.span child).stop := h.table.nonempty hne.1 hne.2
      omega

end Placed

/-! ## the names at a node -/

/-- the judgment holds of the node, and the names before it are those that reach it -/
def Known (d : Document) (x : Nat) : Prop :=
  ∃ before after, (d.nodes.tree x).Resolved d.text before after ∧
    ∀ name, name ∈ before ↔ d.Reaches name x

namespace Placed
variable (h : d.Placed)
include h

theorem not_reaches_root : ¬ d.Reaches name d.root := by
  rintro ⟨binder, hbinds, -⟩
  have hpos := h.binder_nonempty hbinds.declares
  rw [h.covers] at hbinds
  rcases hbinds with ⟨value, -, hlt⟩ | ⟨kind, fallback, -, hstop⟩
  · exact absurd hlt (Nat.not_lt_zero _)
  · change (d.span binder).stop ≤ 0 at hstop
    omega

theorem known_outer (hroot : (d.nodes.tree d.root).Resolved d.text [] []) (hknown : d.Known parent)
    (houter : child ∈ d.outer parent) : d.Known child := by
  obtain ⟨before, after, hresolved, hnames⟩ := hknown
  have hchild := mem_children_iff.mpr (.inl houter)
  have hparent := lt_of_mem_children hchild
  obtain ⟨-, names, last, hall, -, -⟩ := h.resolved_node hparent hresolved
  obtain ⟨front, rest, hsplit⟩ := List.append_of_mem houter
  have hmem (sibling : Nat) (hsibling : sibling ∈ front) : sibling ∈ d.outer parent := by
    rw [hsplit]
    exact List.mem_append_left _ hsibling
  have hinOrder : (d.node parent).inOrder = front ++ child :: (rest ++ d.inner parent) := by
    rw [inOrder_eq, hsplit, List.append_assoc]
    rfl
  obtain ⟨hstop, hstart⟩ := h.row_split hparent hinOrder
  have hsibling (sibling : Nat) (hs : sibling ∈ front) : sibling ∈ (d.node parent).children :=
    mem_children_iff.mpr (.inl (hmem sibling hs))
  rw [hsplit] at hall
  obtain ⟨known, behind, hx, hiff⟩ := h.resolved_in_row
    (fun sibling hs => (h.table.child_ne_root hparent (hsibling sibling hs)).1) hall
  refine ⟨known, behind, hx, fun name => ?_⟩
  have hreach := @reaches_child d child parent name h hroot front hchild
    (fun sibling hs => ⟨hsibling sibling hs, hstop sibling hs,
      fun hinner => absurd hinner (h.not_inner_of_outer (hmem sibling hs))⟩) hstart
  rw [hiff, List.mem_append, hnames, hreach]
  simp [h.not_inner_of_outer houter, or_assoc]

theorem known_inner (hroot : (d.nodes.tree d.root).Resolved d.text [] []) (hknown : d.Known parent)
    (hinner : child ∈ d.inner parent) : d.Known child := by
  obtain ⟨before, after, hresolved, hnames⟩ := hknown
  have hchild := mem_children_iff.mpr (.inr hinner)
  have hparent := lt_of_mem_children hchild
  obtain ⟨-, names, last, houtside, -, hall⟩ := h.resolved_node hparent hresolved
  obtain ⟨front, rest, hsplit⟩ := List.append_of_mem hinner
  have hmem (sibling : Nat) (hsibling : sibling ∈ front) : sibling ∈ d.inner parent := by
    rw [hsplit]
    exact List.mem_append_left _ hsibling
  have hinOrder : (d.node parent).inOrder = (d.outer parent ++ front) ++ child :: rest := by
    rw [inOrder_eq, hsplit, List.append_assoc]
  obtain ⟨hstop, hstart⟩ := h.row_split hparent hinOrder
  have hsibling (sibling : Nat) (hs : sibling ∈ d.outer parent ++ front) :
      sibling ∈ (d.node parent).children :=
    mem_children_iff.mpr ((List.mem_append.mp hs).imp_right (hmem sibling))
  have hlt (sibling : Nat) (hs : sibling ∈ d.outer parent ++ front) : sibling < d.nodes.size :=
    (h.table.child_ne_root hparent (hsibling sibling hs)).1
  rw [hsplit] at hall
  obtain ⟨known, behind, hx, hiff⟩ :=
    h.resolved_in_row (fun sibling hs => hlt sibling (List.mem_append_right _ hs)) hall
  refine ⟨known, behind, hx, fun name => ?_⟩
  have hreach := @reaches_child d child parent name h hroot (d.outer parent ++ front) hchild
    (fun sibling hs => ⟨hsibling sibling hs, hstop sibling hs, fun _ => hinner⟩) hstart
  rw [hiff, hreach]
  cases hclosed : d.isClosed parent with
  | false =>
    have hbehind : name ∈ names ↔ name ∈ (d.node parent).opening ++ before ∨
        ∃ id ∈ d.outer parent, d.Exposes id name :=
      mem_afterAll_iff (fun id hid before after =>
        h.mem_after_iff id before after (hlt id (List.mem_append_left _ hid))) houtside
    simp only [hbehind, hnames, List.mem_append, Bool.false_eq_true, if_false, and_false, not_false_eq_true,
      and_true, or_and_right, exists_or, or_assoc]
  | true =>
    -- the scope is closed: only what stands in it counts
    have hopening : (d.node parent).opening = [] := by
      cases hscope : d.scope? parent with
      | none =>
        rw [isClosed, hscope] at hclosed
        cases hclosed
      | some scope => exact (Node.quiet_of_scope? hscope).1
    have hnot (sibling : Nat) (hs : sibling ∈ front) : sibling ∉ d.outer parent :=
      fun houter => h.not_inner_of_outer houter (hmem sibling hs)
    simp only [if_true, List.not_mem_nil, false_or, hopening, hinner, and_true, not_true_eq_false, and_false]
    constructor
    · rintro ⟨sibling, hs, hexposes⟩
      exact ⟨sibling, List.mem_append_right _ hs, hexposes, hnot sibling hs⟩
    · rintro ⟨sibling, hs, hexposes, houter⟩
      rcases List.mem_append.mp hs with hs | hs
      · exact absurd hs houter
      · exact ⟨sibling, hs, hexposes⟩

/-- at every node the reader has the names in sight that reach the node -/
theorem names_at (hroot : (d.nodes.tree d.root).Resolved d.text [] []) (x : Nat) :
    x < d.nodes.size → d.Known x := by
  refine NodeTable.parent_induction h.table.forest.grounded (P := fun x => x < d.nodes.size → d.Known x) ?_ ?_ x
  · intro x hp hx
    have hmem := (h.table.forest.root_iff x).mpr ⟨hx, hp⟩
    obtain rfl := List.mem_singleton.mp hmem
    exact ⟨[], [], hroot, fun name => ⟨(nomatch ·), fun hreach => absurd hreach h.not_reaches_root⟩⟩
  · intro x parent hp ih _
    obtain ⟨hparent, hchild⟩ := (h.table.forest.parent_iff x parent).mp hp
    rcases mem_children_iff.mp hchild with houter | hinner
    · exact h.known_outer hroot (ih hparent) houter
    · exact h.known_inner hroot (ih hparent) hinner

/-- every node is settled for the names that are in sight of it -/
theorem settled_at (hroot : (d.nodes.tree d.root).Resolved d.text [] []) (hx : x < d.nodes.size) :
    ∃ names, (d.node x).Settled d.text d.span (d.span x) names ∧
      ∀ name, name ∈ names ↔ d.InSight name x := by
  obtain ⟨before, after, hresolved, hnames⟩ := h.names_at hroot x hx
  exact ⟨before, (h.resolved_node hx hresolved).1, fun name => (hnames name).trans h.inSight_iff.symm⟩

end Placed

/-! ## texts that are read -/

/-- a construct in a tree that stands for an identifier, as a node of the table -/
theorem exists_owner {table : NodeTable} {root : Nat} {t : Text} {place : Span}
    (h : table.Forest [root]) {tree : Tree} (howns : tree.Owns t name place) :
    ∀ {id : Nat}, id < table.size → table.tree id = tree →
      ∃ x < table.size, (table.node x).Owns t (table.span x) name place := by
  induction howns with
  | @here node span howns =>
    intro id hid htree
    have hnode : (table.node id).map table.tree = node :=
      (NodeTable.tree_node h hid).symm.trans (congrArg Tree.node htree)
    have hspan : table.span id = span := congrArg Tree.span htree
    rw [← hnode, Node.owns_map, ← hspan] at howns
    exact ⟨id, hid, howns⟩
  | @child node span child hmem hchild ih =>
    intro id hid htree
    have hnode : (table.node id).map table.tree = node :=
      (NodeTable.tree_node h hid).symm.trans (congrArg Tree.node htree)
    rw [← hnode, Node.children_map] at hmem
    obtain ⟨x, hx, rfl⟩ := List.mem_map.mp hmem
    have hlt := h.child_lt id hid x hx
    exact ih (by omega) rfl

/-- the tree of a text that is read is resolved, and stands for the identifiers of the text -/
theorem resolved_of_read {t : Text} (hread : Document.read t = .ok d) :
    d.tree.Resolved t [] [] ∧ ∀ token ∈ t.tokens, ∀ name, token.kind = .ident name →
      t.Selects token ∨ d.tree.Owns t name token.span := by
  obtain ⟨comments, htree, -⟩ := Document.read_eq_ok.mp hread
  obtain ⟨stream, body, s', hstream, hprogram, hbody, -⟩ := Tree.read_eq_ok.mp htree
  have hvalid := TokenStream.cursor_valid hstream
  obtain ⟨hscans, heof⟩ := (Parse.program_scans hvalid).of_ok hprogram
  have hs' := hscans.passes.valid hvalid
  rw [hbody]
  refine ⟨.scope rfl (.nil _) hscans.resolved, fun token hmem name hk => ?_⟩
  -- all tokens are taken, so every one begins between the two cursors
  have hnil : s'.ahead = [] := by
    cases hahead : s'.ahead with
    | nil => rfl
    | cons next rest =>
      rw [Cursor.current_cons hahead] at heof
      exact absurd heof (hs'.fits next (by rw [hahead]; exact List.mem_cons_self)).kind_ne_eof
  obtain ⟨taken, htaken, hsame⟩ := hscans.passes
  rw [hnil, List.append_nil] at htaken
  rw [Text.tokens_of_read hstream] at hmem
  have htoken : token ∈ taken := htaken ▸ hmem
  have hstop : token.span.stop ≤ s'.offset :=
    hvalid.stop_le_offset (by rw [hnil, List.append_nil]; exact htaken) hsame htoken
  have hpos := (hvalid.fits token hmem).nonempty
  have hstart : (⟨stream.tokens, stream.eof, []⟩ : Cursor).offset ≤ token.span.start := by
    obtain ⟨before, behind, hsplit⟩ := List.append_of_mem hmem
    have hpasses : Cursor.Passes ⟨stream.tokens, stream.eof, []⟩ ⟨token :: behind, stream.eof, []⟩ :=
      ⟨before, hsplit, rfl⟩
    exact hpasses.offset_le hvalid
  rcases hscans.covered token (by rw [Text.tokens_of_read hstream]; exact hmem) hstart (by omega) name hk
    with hselects | ⟨tree, htree, howns⟩
  · exact .inl hselects
  · exact .inr (.child htree howns)

/-- The identifier is read as an expression: it is no name behind a dot or a double colon, no target of an
assignment, and not the name of a parameter or definition. -/
structure IsExpression (d : Document) (token : Token) (name : Text) : Prop where
  not_selected : ¬ d.text.Selects token
  not_target : ∀ x value, d.node x = .assignment name value → (d.span x).start ≠ token.span.start
  not_parameter : ∀ x kind fallback, d.node x = .parameter kind (some name) fallback →
    (d.span x).start ≠ token.span.start ∧ (fallback = none → (d.span x).stop ≠ token.span.stop)
  not_definition : ∀ x keyword held params body, d.node x = .definition keyword held none params body →
    d.text.tokenFrom keyword.stop ≠ some token

/-- the node is the variable of that name at a place, or a call without receiver with the name there -/
def StandsFor (d : Document) (x : Nat) (name : Text) (place : Span) : Prop :=
  (d.node x = .localVariable name ∧ d.span x = place) ∨ ∃ args, d.node x = .call none name place args

theorem IsExpression.standsFor {token : Token} (hexpression : d.IsExpression token name)
    (hmem : token ∈ d.text.tokens) (howns : (d.node x).Owns d.text (d.span x) name token.span) :
    d.StandsFor x name token.span := by
  cases hnode : d.node x with
  | localVariable held =>
    rw [hnode] at howns
    obtain ⟨rfl, hspan⟩ := howns
    exact .inl ⟨hnode, hspan⟩
  | call receiver method selector args =>
    rw [hnode] at howns
    cases receiver with
    | none =>
      obtain ⟨rfl, rfl⟩ := howns
      exact .inr ⟨args, hnode⟩
    | some receiver => exact howns.elim
  | assignment target value =>
    rw [hnode] at howns
    obtain ⟨rfl, hstart⟩ := howns
    exact absurd hstart (hexpression.not_target x value hnode)
  | parameter kind held fallback =>
    rw [hnode] at howns
    cases held with
    | none => exact howns.elim
    | some held =>
      obtain ⟨rfl, hplace⟩ := howns
      obtain ⟨hstart, hstop⟩ := hexpression.not_parameter x kind fallback hnode
      rcases hplace with hplace | ⟨hnone, hplace⟩
      · exact absurd hplace hstart
      · exact absurd hplace (hstop (Option.isNone_iff_eq_none.mp hnone))
  | definition keyword held singleton params body =>
    rw [hnode] at howns
    cases singleton with
    | none =>
      obtain ⟨found, hfound, hspan⟩ := Option.map_eq_some_iff.mp howns
      have heq := Text.token_eq_of_start (List.mem_of_find?_eq_some hfound) hmem (congrArg Span.start hspan)
      exact absurd (heq ▸ hfound) (hexpression.not_definition x keyword held params body hnode)
    | some singleton => exact howns.elim
  | _ =>
    rw [hnode] at howns
    exact howns.elim

/-- **An identifier is a local variable exactly if a binding of its name is in sight.**  Every identifier
that is read as an expression has a node that stands for it and starts with it.  If no parenthesis touches
the identifier, that node is a local variable if the name is in sight of it, and else a call without
receiver.  A binding in sight belongs to all closed scopes around the node, and none of its scopes ends
before the node. -/
theorem read_resolves (t : Text) (d : Document) (hread : Document.read t = .ok d) :
    (∀ token ∈ t.tokens, ∀ name, token.kind = .ident name →
      (d.IsExpression token name → ∃ x < d.nodes.size, d.StandsFor x name token.span) ∧
      ∀ x, d.StandsFor x name token.span → (d.span x).start = token.span.start ∧
        (t.parenTouches token.span.stop = false →
          (d.node x = .localVariable name ↔ d.InSight name x) ∧
          (¬ d.InSight name x → ∃ args, d.node x = .call none name token.span args))) ∧
    (∀ x name, d.node x = .localVariable name → d.InSight name x ∧
      ∃ token ∈ t.tokens, token.kind = .ident name ∧ token.span = d.span x ∧
        t.parenTouches token.span.stop = false) ∧
    ∀ x name, d.InSight name x → ∃ binder, d.Binds binder name (d.span x).start ∧
      (∀ id, d.Holds id binder → d.Holds id x) ∧
      ∀ id, d.isClosed id = true → d.Holds id x → d.Holds id binder := by
  obtain ⟨rfl, h⟩ := placed_of_read hread
  obtain ⟨hroot, howned⟩ := resolved_of_read hread
  -- a local variable is in sight, and no parenthesis touches it
  have hvariable {x : Nat} {name : Text} (hnode : d.node x = .localVariable name) :
      d.InSight name x ∧ d.text.parenTouches (d.span x).stop = false := by
    have hx := (h.inner (by rw [hnode]; simp) (by rw [hnode]; simp)).1
    obtain ⟨names, hsettled, hnames⟩ := h.settled_at hroot hx
    rw [hnode] at hsettled
    exact ⟨(hnames name).mp hsettled.1, hsettled.2⟩
  refine ⟨fun token hmem name hk => ⟨fun hexpression => ?_, fun x hstands => ?_⟩,
    fun x name hnode => ?_, fun x name hsight => h.inSight_iff.mp hsight⟩
  · rcases howned token hmem name hk with hselects | howns
    · exact absurd hselects hexpression.not_selected
    · obtain ⟨x, hx, howns⟩ := exists_owner h.table.forest howns h.table.root_lt rfl
      exact ⟨x, hx, hexpression.standsFor hmem howns⟩
  · rcases hstands with ⟨hnode, hspan⟩ | ⟨args, hnode⟩
    · have hsight := (hvariable hnode).1
      exact ⟨congrArg Span.start hspan, fun _ => ⟨iff_of_true hnode hsight, fun hnot => absurd hsight hnot⟩⟩
    · have hx := (h.inner (by rw [hnode]; simp) (by rw [hnode]; simp)).1
      obtain ⟨names, hsettled, hnames⟩ := h.settled_at hroot hx
      rw [hnode] at hsettled
      obtain ⟨hstart, hcall⟩ := hsettled
      refine ⟨hstart, fun hparen => ?_⟩
      have hnot : ¬ d.InSight name x := fun hsight =>
        hcall token (Text.tokenFrom_start hmem) hk hparen ((hnames name).mpr hsight)
      exact ⟨iff_of_false (by rw [hnode]; simp) hnot, fun _ => ⟨args, hnode⟩⟩
  · obtain ⟨hsight, hparen⟩ := hvariable hnode
    have hx := h.inner (by rw [hnode]; simp) (by rw [hnode]; simp)
    obtain ⟨token, hmem, hk, hspan⟩ : ∃ token ∈ d.text.tokens, token.kind = .ident name ∧
      token.span = d.span x := h.marked hx.1 hx.2 hnode
    exact ⟨hsight, token, hmem, hk, hspan, by rw [hspan]; exact hparen⟩

/-- a block sees the names around it and a definition does not, and the parameter of the block is not seen
behind it -/
theorem read_resolves_block :
    let t : Text := "a = 1\nb \x7b |c| a \x7d\ndef m\n  a\nend\nc".toList
    ∃ d, Document.read t = .ok d ∧ (∃ x, d.node x = .localVariable ['a'] ∧ d.InSight ['a'] x) ∧
      (∃ y, d.node y = .call none ['a'] ⟨26, 27⟩ [] ∧ ¬ d.InSight ['a'] y) ∧
      ∃ z, d.node z = .call none ['c'] ⟨32, 33⟩ [] ∧ ¬ d.InSight ['c'] z := by
  intro t
  have hnodes : (Document.read t).toOption.map (fun d => (d.node 4, d.node 6, d.node 8))
      = some (.localVariable ['a'], .call none ['a'] ⟨26, 27⟩ [], .call none ['c'] ⟨32, 33⟩ []) := by
    decide +kernel
  have ha : (⟨.ident ['a'], ['a'], ⟨26, 27⟩, true, true⟩ : Token) ∈ t.tokens := by decide +kernel
  have hc : (⟨.ident ['c'], ['c'], ⟨32, 33⟩, true, true⟩ : Token) ∈ t.tokens := by decide +kernel
  have hparens : t.parenTouches 27 = false ∧ t.parenTouches 33 = false := by decide +kernel
  obtain ⟨d, hd, hnodes⟩ := Option.map_eq_some_iff.mp hnodes
  obtain ⟨hx, hnodes⟩ := Prod.mk.inj hnodes
  obtain ⟨hy, hz⟩ := Prod.mk.inj hnodes
  have hread := eq_ok_of_toOption hd
  obtain ⟨htokens, hvariables, -⟩ := read_resolves t d hread
  have hcall {x : Nat} {name : Text} {place : Span} (hnode : d.node x = .call none name place []) :
      d.node x ≠ .localVariable name := by
    rw [hnode]
    simp
  refine ⟨d, hread, ⟨4, hx, (hvariables 4 _ hx).1⟩, ⟨6, hy, fun hsight => hcall hy ?_⟩,
    ⟨8, hz, fun hsight => hcall hz ?_⟩⟩
  · exact (((htokens _ ha _ rfl).2 6 (.inr ⟨[], hy⟩)).2 hparens.1).1.mpr hsight
  · exact (((htokens _ hc _ rfl).2 8 (.inr ⟨[], hz⟩)).2 hparens.2).1.mpr hsight

end Document

end Collate
