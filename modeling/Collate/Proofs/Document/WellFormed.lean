import Collate.Proofs.Document.Copies
import Collate.Proofs.Document.Placed

/-!
# Well-formed documents

What rules may rely on when they look at a document that was read: who is whose parent, in which
order the nodes are visited, where their spans lie, and where the braces of literals and the names
of calls stand.
-/

namespace Collate

namespace Document

/-- the nodes of a document, their parents, their spans and their marks -/
structure WellFormed (d : Document) : Prop where
  /-- the root is a program that covers the text, and nobody names it -/
  root_lt : d.root < d.nodes.size
  root_program : ∃ body, d.node d.root = .program body
  root_span : d.span d.root = ⟨0, d.text.size⟩
  root_parent : d.parent d.root = none
  /-- all other nodes are named once, by their parent alone -/
  parent_unique : ∀ id < d.nodes.size, id ≠ d.root → ∃ parent < d.nodes.size,
    d.parent id = some parent ∧ (d.node parent).children.count id = 1 ∧
      ∀ other < d.nodes.size, other ≠ parent → id ∉ (d.node other).children
  /-- the walk meets every node once, parents before children, and never goes back -/
  preorder_perm : d.preorder.Perm (List.range d.nodes.size)
  preorder_parents : ∀ id parent, d.parent id = some parent →
    d.preorder.idxOf parent < d.preorder.idxOf id
  preorder_starts : d.preorder.Pairwise (fun a b => (d.span a).start ≤ (d.span b).start)
  /-- spans hold at least one character, end on boundaries and lie inside that of the parent -/
  span_nonempty : ∀ id < d.nodes.size, id ≠ d.root → (d.span id).start < (d.span id).stop
  span_boundary : ∀ id < d.nodes.size, id ≠ d.root →
    d.text.isBoundary (d.span id).start = true ∧ d.text.isBoundary (d.span id).stop = true
  span_contained : ∀ id parent, d.parent id = some parent →
    (d.span parent).contains (d.span id) = true
  siblings_apart : ∀ id < d.nodes.size, ∀ a ∈ (d.node id).children, ∀ b ∈ (d.node id).children,
    a ≠ b → (d.span a).Precedes (d.span b) ∨ (d.span b).Precedes (d.span a)
  /-- the braces of a literal bound it, and its elements follow each other between them -/
  braces_bound : ∀ id < d.nodes.size, ∀ braces elements,
    d.node id = .literal (some braces) elements →
      d.text.slice? braces.opening = some ['{'] ∧ d.text.slice? braces.closing = some ['}'] ∧
      braces.opening.start = (d.span id).start ∧ braces.closing.stop = (d.span id).stop ∧
      elements.Pairwise (fun a b => (d.span a).Precedes (d.span b)) ∧
      ∀ element ∈ elements, braces.opening.Precedes (d.span element) ∧
        (d.span element).Precedes braces.closing
  /-- the receiver of a call stands before its name, and the arguments follow behind it -/
  call_ordered : ∀ id < d.nodes.size, ∀ receiver method selector args,
    d.node id = .call receiver method selector args →
      (∀ r ∈ receiver, (d.span r).Precedes selector) ∧
      (∀ arg ∈ args, selector.Precedes (d.span arg)) ∧
      args.Pairwise (fun a b => (d.span a).Precedes (d.span b))

end Document

namespace NodeTable.Placed
variable {t : Text} {table : NodeTable} {root : Nat}

/-- a child stands once among the children of its parent, and nowhere else -/
theorem parent_unique (h : Placed t table root) {id : Nat} (hid : id < table.size)
    (hne : id ≠ root) : ∃ parent < table.size, table.parent id = some parent ∧
      (table.node parent).children.count id = 1 ∧
      ∀ other < table.size, other ≠ parent → id ∉ (table.node other).children := by
  obtain ⟨parent, hp⟩ := exists_parent h.forest hid hne
  obtain ⟨hparent, hmem⟩ := (h.forest.parent_iff id parent).mp hp
  refine ⟨parent, hparent, hp, ?_, ?_⟩
  · exact (h.forest.children_nodup parent hparent).count.trans (if_pos hmem)
  · intro other hother hneq hmem'
    have hp' := (h.forest.parent_iff id other).mpr ⟨hother, hmem'⟩
    rw [hp] at hp'
    exact hneq (Option.some.inj hp').symm

theorem preorder_perm (h : Placed t table root) :
    (table.preorder root).Perm (List.range table.size) := by
  refine (List.perm_ext_iff_of_nodup (preorder_nodup h.forest.unshared h.root_lt) List.nodup_range).mpr ?_
  intro id
  rw [List.mem_range]
  constructor
  · intro hmem
    have hle := le_of_mem_preorder h.forest.grounded root h.root_lt hmem
    exact Nat.lt_of_le_of_lt hle h.root_lt
  · intro hid
    exact mem_preorder_root h.forest _ id hid (Nat.le_refl _)

theorem idxOf_parent_lt (h : Placed t table root) {id parent : Nat}
    (hp : table.parent id = some parent) :
    (table.preorder root).idxOf parent < (table.preorder root).idxOf id := by
  have hlt := h.forest.grounded.child_lt_size hp
  have hid := mem_preorder_root h.forest _ id (by omega) (Nat.le_refl _)
  have hparent := mem_preorder_root h.forest _ parent hlt.2 (Nat.le_refl _)
  have hfirst := List.pairwise_iff_getElem.mp (preorder_parents_first h.forest.unshared h.root_lt)
  rcases Nat.lt_trichotomy ((table.preorder root).idxOf parent) ((table.preorder root).idxOf id)
    with hlt' | heq | hgt
  · exact hlt'
  · have h₁ := List.getElem_idxOf (List.idxOf_lt_length_of_mem hid)
    have h₂ := List.getElem_idxOf (List.idxOf_lt_length_of_mem hparent)
    simp only [heq] at h₂
    omega
  · have h₁ := List.idxOf_lt_length_of_mem hid
    have h₂ := List.idxOf_lt_length_of_mem hparent
    have hno := hfirst _ _ h₁ h₂ hgt
    rw [List.getElem_idxOf h₁, List.getElem_idxOf h₂] at hno
    exact absurd hp hno

end NodeTable.Placed

namespace Document

/-- **A document that the program read is well formed**, if its nodes have numbers of their own. -/
theorem build_wellFormed (profile : Profile) (t : Text) (d : Document) (h : build profile t = .ok d)
    (hcounts : profile.Counts d.nodes) : d.text = t ∧ d.WellFormed := by
  obtain ⟨rfl, hplaced, ⟨body, hbody⟩, hspan⟩ := placed_of_read (read_of_build h hcounts)
  have hforest := hplaced.forest
  have hnot {id : Nat} {node : Node Nat} (hnode : d.node id = node)
      (hne : ∀ body, node ≠ .program body) : id ≠ d.root := by
    rintro rfl
    exact hne body (hnode.symm.trans hbody)
  refine ⟨rfl, ?_⟩
  constructor
  case root_lt => exact hplaced.root_lt
  case root_program => exact ⟨body, hbody⟩
  case root_span => exact hspan
  case root_parent => exact hforest.parent_of_root (List.mem_singleton.mpr rfl)
  case parent_unique => exact fun id hid hne => hplaced.parent_unique hid hne
  case preorder_perm => exact hplaced.preorder_perm
  case preorder_parents => exact fun id parent hp => hplaced.idxOf_parent_lt hp
  case preorder_starts => exact hplaced.preorder_starts hplaced.root_lt
  case span_nonempty => exact fun id hid hne => hplaced.nonempty hid hne
  case span_boundary => exact fun id hid hne => (hplaced.placed id hid hne).boundary
  case span_contained =>
    intro id parent hp
    obtain ⟨hparent, hmem⟩ := (hforest.parent_iff id parent).mp hp
    have hcontained := hplaced.contained hparent hmem
    rw [Span.contains, Bool.and_eq_true, decide_eq_true_eq, decide_eq_true_eq]
    exact hcontained
  case siblings_apart => exact fun id hid a ha b hb hab => hplaced.apart hid ha hb hab
  case braces_bound =>
    intro id hid braces elements hnode
    have hmarked := hplaced.marked hid (hnot hnode (by simp))
    change ((d.node id).map d.nodes.tree).Marked d.text (d.span id) at hmarked
    rw [hnode] at hmarked
    obtain ⟨hopening, hclosing, hstart, hstop, hrow⟩ := hmarked
    obtain ⟨hordered, hbetween⟩ := NodeTable.Placed.row_ids hrow
    exact ⟨hopening, hclosing, hstart, hstop, hordered, hbetween⟩
  case call_ordered =>
    intro id hid receiver method selector args hnode
    have hmarked := hplaced.marked hid (hnot hnode (by simp))
    change ((d.node id).map d.nodes.tree).Marked d.text (d.span id) at hmarked
    rw [hnode] at hmarked
    obtain ⟨-, -, -, -, hreceiver, hargs⟩ := hmarked
    rw [Node.toList_map_option] at hreceiver
    obtain ⟨-, hbefore⟩ := NodeTable.Placed.row_ids hreceiver
    obtain ⟨hordered, hbehind⟩ := NodeTable.Placed.row_ids hargs
    refine ⟨fun r hr => (hbefore r (Option.mem_toList.mpr hr)).2, fun arg harg => (hbehind arg harg).1,
      hordered⟩

/-- a call on a call, a literal with and one without braces, and a condition that trails it all -/
theorem build_wellFormed_trailing_condition :
    ∃ d, build .strict "a.b({ é: 1 }, c: 2) if d".toList = .ok d ∧
      d.nodes.size = 13 ∧ d.preorder = [12, 11, 9, 0, 4, 3, 1, 2, 8, 7, 5, 6, 10] ∧ d.WellFormed := by
  have hshape : (build .strict "a.b({ é: 1 }, c: 2) if d".toList).toOption.map
      (fun d => (d.nodes.size, d.preorder)) = some (13, [12, 11, 9, 0, 4, 3, 1, 2, 8, 7, 5, 6, 10]) := by
    decide +kernel
  cases h : build .strict "a.b({ é: 1 }, c: 2) if d".toList with
  | error stop =>
    rw [h] at hshape
    exact nomatch hshape
  | ok d =>
    rw [h] at hshape
    obtain ⟨hsize, hpreorder⟩ := Prod.mk.inj (Option.some.inj hshape)
    have hcounts : Profile.strict.Counts d.nodes := fun _ => by
      rw [hsize]
      decide
    exact ⟨d, rfl, hsize, hpreorder, (build_wellFormed .strict _ d h hcounts).2⟩

/-- 4 Gi statements leave no number for the root, which gets that of the first statement -/
theorem build_rootless :
    ∃ d, build .strict (Text.copies 4294967296) = .ok d ∧ d.node d.root = .other [] ∧ ¬d.WellFormed := by
  obtain ⟨d, hd, hroot, hnode⟩ := build_copies .strict (n := 4294967296) (by decide)
    (fun _ => Nat.le_refl _)
  have hfirst : d.node d.root = .other [] := by
    rw [hroot]
    exact hnode
  refine ⟨d, hd, hfirst, fun hformed => ?_⟩
  obtain ⟨body, hbody⟩ := hformed.root_program
  exact nomatch hfirst.symm.trans hbody

end Document

end Collate
