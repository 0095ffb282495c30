import Mathlib.Data.List.Induction
import Mathlib.Data.List.Nodup
import Collate.Proofs.Node.Walk

/-!
# Tables built by hand

A table is the result of a sequence of pushes.  A push gives its number as parent to every node it
names, whatever parent they had before, so the last push that names a node is its parent.  As long as
every push names earlier nodes only, nothing else is needed for the ways up and down to end: a node
may be named by several pushes, or several times by one.

* `NodeTable.built`       the table after some pushes;
* `NodeTable.builtAs`     the same where numbers may be short;
* `NodeTable.Earlier`     every push names earlier nodes only;
* `NodeTable.NamedBy`     a push names a node;
* `NodeTable.parent_built`   the parent of a node is the last push that names it;
* `NodeTable.Linked`, `NodeTable.builtAs_linked`   the ways up and down in such a table.
-/

namespace Collate

theorem getElem?_concat_eq_some {α : Type} {xs : List α} {x y : α} {i : Nat} :
    (xs ++ [x])[i]? = some y ↔ xs[i]? = some y ∨ i = xs.length ∧ x = y := by
  rcases Nat.lt_trichotomy i xs.length with hlt | rfl | hgt
  · rw [List.getElem?_append_left hlt]
    simp only [Nat.ne_of_lt hlt, false_and, or_false]
  · rw [List.getElem?_concat_length, List.getElem?_eq_none (Nat.le_refl _)]
    simp only [Option.some.injEq, reduceCtorEq, true_and, false_or]
  · have hlength : (xs ++ [x]).length ≤ i := by
      rw [List.length_append, List.length_singleton]
      exact hgt
    rw [List.getElem?_eq_none hlength, List.getElem?_eq_none (Nat.le_of_lt hgt)]
    simp only [reduceCtorEq, Nat.ne_of_gt hgt, false_and, or_false]

namespace NodeTable

def built (pushes : List (Node Nat × Span)) : NodeTable :=
  pushes.foldl (fun table (push : Node Nat × Span) => table.push push.1 push.2) empty

/-- the table after some pushes where numbers may be short -/
def builtAs (numbering : Numbering) (pushes : List (Node Nat × Span)) : NodeTable :=
  pushes.foldl (fun table (push : Node Nat × Span) => table.pushAs numbering push.1 push.2) empty

def Earlier (pushes : List (Node Nat × Span)) : Prop :=
  ∀ (number : Nat) (push : Node Nat × Span), pushes[number]? = some push →
    ∀ child ∈ push.1.children, child < number

theorem earlier_iff (pushes : List (Node Nat × Span)) : Earlier pushes ↔
    ∀ number < pushes.length, ∀ push ∈ pushes[number]?, ∀ child ∈ push.1.children, child < number := by
  constructor
  · exact fun h number _ => h number
  · exact fun h number push hpush => h number (List.getElem?_eq_some_iff.mp hpush).1 push hpush

instance (pushes : List (Node Nat × Span)) : Decidable (Earlier pushes) :=
  decidable_of_iff' _ (earlier_iff pushes)

/-- the push of this number names the node -/
def NamedBy (pushes : List (Node Nat × Span)) (number id : Nat) : Prop :=
  ∃ push, pushes[number]? = some push ∧ id ∈ push.1.children

/-- no push names a node that another one names, and none names a node twice -/
def NamedOnce (pushes : List (Node Nat × Span)) : Prop :=
  (pushes.flatMap fun (push : Node Nat × Span) => push.1.children).Nodup

instance (pushes : List (Node Nat × Span)) : Decidable (NamedOnce pushes) :=
  List.nodupDecidable _

section
variable {pushes : List (Node Nat × Span)} {push : Node Nat × Span}

theorem built_concat (pushes : List (Node Nat × Span)) (push : Node Nat × Span) :
    built (pushes ++ [push]) = (built pushes).push push.1 push.2 := by
  rw [built, List.foldl_append]
  rfl

theorem size_built (pushes : List (Node Nat × Span)) : (built pushes).size = pushes.length := by
  induction pushes using List.reverseRecOn with
  | nil => rfl
  | append_singleton pushes push ih =>
    rw [built_concat, size_push, ih, List.length_append, List.length_singleton]

theorem builtAs_concat (numbering : Numbering) (pushes : List (Node Nat × Span)) (push : Node Nat × Span) :
    builtAs numbering (pushes ++ [push]) = (builtAs numbering pushes).pushAs numbering push.1 push.2 := by
  rw [builtAs, List.foldl_append]
  rfl

theorem builtAs_eq {numbering : Numbering} (h : numbering.Counts pushes.length) :
    builtAs numbering pushes = built pushes := by
  induction pushes using List.reverseRecOn with
  | nil => rfl
  | append_singleton pushes push ih =>
    rw [List.length_append, List.length_singleton] at h
    have hfewer : numbering.Counts pushes.length := fun hn => Nat.le_trans (Nat.le_succ _) (h hn)
    rw [builtAs_concat, built_concat, ih hfewer]
    exact pushAs_eq_push _ _ (by rwa [size_built])

theorem Earlier.of_concat (h : Earlier (pushes ++ [push])) : Earlier pushes :=
  fun number earlier hearlier => h number earlier (getElem?_concat_eq_some.mpr (.inl hearlier))

theorem row_built {number : Nat} (h : pushes[number]? = some push) :
    (built pushes).node number = push.1 ∧ (built pushes).span number = push.2 := by
  induction pushes using List.reverseRecOn with
  | nil => cases h
  | append_singleton pushes last ih =>
    rw [built_concat]
    rcases getElem?_concat_eq_some.mp h with hold | ⟨rfl, rfl⟩
    · have hext : (built pushes).Extends ((built pushes).push last.1 last.2) := extends_push last.1 last.2
      have hsize : number < (built pushes).size := by
        rw [size_built]
        exact (List.getElem?_eq_some_iff.mp hold).1
      rw [hext.node_eq number hsize, hext.span_eq number hsize]
      exact ih hold
    · rw [← size_built, node_push_size, span_push_size]
      exact ⟨rfl, rfl⟩

/-! ## parents -/

theorem NamedBy.lt_length {number id : Nat} (h : NamedBy pushes number id) : number < pushes.length := by
  obtain ⟨push, hpush, -⟩ := h
  exact (List.getElem?_eq_some_iff.mp hpush).1

theorem NamedBy.lt {number id : Nat} (h : NamedBy pushes number id) (hearlier : Earlier pushes) :
    id < number := by
  obtain ⟨push, hpush, hmem⟩ := h
  exact hearlier number push hpush id hmem

theorem namedBy_concat {number id : Nat} : NamedBy (pushes ++ [push]) number id ↔
    NamedBy pushes number id ∨ number = pushes.length ∧ id ∈ push.1.children := by
  constructor
  · rintro ⟨named, hnamed, hmem⟩
    rcases getElem?_concat_eq_some.mp hnamed with hold | ⟨hnumber, rfl⟩
    · exact .inl ⟨named, hold, hmem⟩
    · exact .inr ⟨hnumber, hmem⟩
  · rintro (⟨named, hnamed, hmem⟩ | ⟨hnumber, hmem⟩)
    · exact ⟨named, getElem?_concat_eq_some.mpr (.inl hnamed), hmem⟩
    · exact ⟨push, getElem?_concat_eq_some.mpr (.inr ⟨hnumber, rfl⟩), hmem⟩

theorem names_built {number id : Nat} : (built pushes).Names number id ↔ NamedBy pushes number id := by
  constructor
  · intro hmem
    rcases Nat.lt_or_ge number pushes.length with hlt | hge
    · have hpush := List.getElem?_eq_getElem hlt
      rw [Names, (row_built hpush).1] at hmem
      exact ⟨_, hpush, hmem⟩
    · -- a number without a row names nothing
      rw [Names, node, row_of_size_le (by rwa [size_built])] at hmem
      cases hmem
  · rintro ⟨push, hpush, hmem⟩
    rw [Names, (row_built hpush).1]
    exact hmem

theorem parent_built (h : Earlier pushes) (id parent : Nat) :
    (built pushes).parent id = some parent ↔
      NamedBy pushes parent id ∧ ∀ later, parent < later → ¬ NamedBy pushes later id := by
  induction pushes using List.reverseRecOn with
  | nil =>
    constructor
    · intro hp
      cases hp
    · rintro ⟨⟨push, hpush, -⟩, -⟩
      cases hpush
  | append_singleton pushes push ih =>
    specialize ih h.of_concat
    rw [built_concat]
    rcases Nat.lt_or_ge id pushes.length with hlt | hge
    · rw [parent_push_of_lt push.1 push.2 (by rwa [size_built]), size_built]
      split
      next hmem =>
        -- the last push names the node, so it takes over
        constructor
        · intro hp
          obtain rfl := Option.some.inj hp
          refine ⟨namedBy_concat.mpr (.inr ⟨rfl, hmem⟩), fun later hlater hnamed => ?_⟩
          have hlength := hnamed.lt_length
          rw [List.length_append, List.length_singleton] at hlength
          omega
        · rintro ⟨hnamed, hlast⟩
          rcases namedBy_concat.mp hnamed with hold | ⟨rfl, -⟩
          · exact absurd (namedBy_concat.mpr (.inr ⟨rfl, hmem⟩)) (hlast _ hold.lt_length)
          · rfl
      next hmem =>
        have hsame (number : Nat) : NamedBy (pushes ++ [push]) number id ↔ NamedBy pushes number id := by
          rw [namedBy_concat]
          exact or_iff_left fun hnew => hmem hnew.2
        simp only [hsame]
        exact ih
    · rw [parent_push_of_le push.1 push.2 (by rwa [size_built])]
      constructor
      · intro hp
        cases hp
      · rintro ⟨hnamed, -⟩
        have hlt := hnamed.lt h
        have hlength := hnamed.lt_length
        rw [List.length_append, List.length_singleton] at hlength
        omega

theorem NamedBy.exists_last {number id : Nat} (h : NamedBy pushes number id) :
    ∃ last, NamedBy pushes last id ∧ ∀ later, last < later → ¬ NamedBy pushes later id := by
  generalize hn : pushes.length - number = n
  induction n using Nat.strongRecOn generalizing number with
  | ind n ih =>
    by_cases hmore : ∃ later, number < later ∧ NamedBy pushes later id
    · obtain ⟨later, hlt, hlater⟩ := hmore
      have hlength := hlater.lt_length
      exact ih (pushes.length - later) (by omega) hlater rfl
    · exact ⟨number, h, fun later hlt hlater => hmore ⟨later, hlt, hlater⟩⟩

theorem parent_built_eq_none (h : Earlier pushes) (id : Nat) :
    (built pushes).parent id = none ↔ ∀ number, ¬ NamedBy pushes number id := by
  constructor
  · intro hnone number hnamed
    obtain ⟨last, hlast⟩ := hnamed.exists_last
    rw [(parent_built h id last).mpr hlast] at hnone
    cases hnone
  · intro hnever
    cases hp : (built pushes).parent id with
    | none => rfl
    | some parent => exact absurd ((parent_built h id parent).mp hp).1 (hnever parent)

/-! ## the ways through the table -/

theorem grounded_built (h : Earlier pushes) : Grounded (built pushes) where
  child_lt id _ child hmem := (names_built.mp hmem).lt h
  child_of_parent child parent hp := by
    have hnamed := ((parent_built h child parent).mp hp).1
    exact ⟨by rw [size_built]; exact hnamed.lt_length, names_built.mpr hnamed⟩

theorem unshared_built (h : Earlier pushes) (honce : NamedOnce pushes) : Unshared (built pushes) := by
  obtain ⟨hnodup, hapart⟩ := List.nodup_flatMap.mp honce
  refine { grounded_built h with parent_of_child := ?_, children_nodup := ?_ }
  · intro parent _ child hmem
    have hnamed : NamedBy pushes parent child := names_built.mp hmem
    refine (parent_built h child parent).mpr ⟨hnamed, fun later hlt hlater => ?_⟩
    obtain ⟨push, hpush, hmem⟩ := hnamed
    obtain ⟨push', hpush', hmem'⟩ := hlater
    obtain ⟨hlength, rfl⟩ := List.getElem?_eq_some_iff.mp hpush
    obtain ⟨hlength', rfl⟩ := List.getElem?_eq_some_iff.mp hpush'
    exact List.pairwise_iff_getElem.mp hapart parent later hlength hlength' hlt hmem hmem'
  · intro id hid
    rw [size_built] at hid
    rw [(row_built (List.getElem?_eq_getElem hid)).1]
    exact hnodup _ (List.getElem_mem hid)

end

/-- the ways up and down in a table that was built by some pushes -/
structure Linked (pushes : List (Node Nat × Span)) (table : NodeTable) : Prop where
  /-- the construct and the span of every push stand under its number -/
  row : ∀ number push, pushes[number]? = some push → table.node number = push.1 ∧ table.span number = push.2
  /-- the parent is the last push that names the node, and there is none when nobody names it -/
  parent : ∀ id parent, table.parent id = some parent ↔
    NamedBy pushes parent id ∧ ∀ later, parent < later → ¬ NamedBy pushes later id
  no_parent : ∀ id, table.parent id = none ↔ ∀ number, ¬ NamedBy pushes number id
  parent_gt : ∀ id parent, table.parent id = some parent → id < parent
  /-- the way up takes one parent after the other until there is none, and its numbers go up -/
  climbs : ∀ id, Climbs table (table.parent id) (table.ancestors id)
  increase : ∀ id, (id :: table.ancestors id).Pairwise (· < ·)
  /-- the walk down lists the first nodes of the preorder in as many rounds, and ends with the last -/
  rounds : ∀ root < pushes.length, ∀ rounds,
    (Walk.run table root rounds).listed = (table.preorder root).take rounds ∧
      ((Walk.run table root rounds).waiting = [] ↔ (table.preorder root).length ≤ rounds)
  /-- it starts with the root and lists what is reached from there -/
  first : ∀ root < pushes.length, (table.preorder root).head? = some root
  reached : ∀ root < pushes.length, ∀ x,
    x ∈ table.preorder root ↔ Relation.ReflTransGen (NamedBy pushes) root x
  /-- all that is below a node is one block -/
  block : ∀ root < pushes.length, ∀ x ∈ table.preorder root, table.preorder x <:+: table.preorder root
  /-- when no node is named twice, every node is listed once and behind its parent -/
  once : NamedOnce pushes → ∀ root < pushes.length, (table.preorder root).Nodup
  behind_parent : NamedOnce pushes → ∀ root < pushes.length, ∀ x ∈ table.preorder root, x ≠ root →
    ∃ parent, table.parent x = some parent ∧ [parent, x].Sublist (table.preorder root)
  /-- siblings are listed in the order of their starts, those that start together as they are named -/
  siblings : NamedOnce pushes → ∀ root < pushes.length, ∀ id ∈ table.preorder root,
    (table.node id).children.Pairwise fun a b =>
      if (table.span a).start ≤ (table.span b).start then [a, b].Sublist (table.preorder root)
      else [b, a].Sublist (table.preorder root)

/-- **Pushes that name earlier nodes only build a table with a way up and a way down**, as long as their
nodes have numbers of their own. -/
theorem builtAs_linked (numbering : Numbering) (pushes : List (Node Nat × Span)) (h : Earlier pushes)
    (hcounts : numbering.Counts pushes.length) : Linked pushes (builtAs numbering pushes) := by
  rw [builtAs_eq hcounts]
  have hg := grounded_built h
  have hnames : (built pushes).Names = NamedBy pushes := by
    funext number id
    exact propext names_built
  constructor
  case row => exact fun number push => row_built
  case parent => exact parent_built h
  case no_parent => exact parent_built_eq_none h
  case parent_gt => exact fun id parent hp => (hg.child_lt_size hp).1
  case climbs => exact ancestors_climbs hg
  case increase => exact ancestors_increase hg
  all_goals rw [← size_built]
  case rounds =>
    exact fun root hroot rounds => ⟨(Walk.run_listed hg hroot rounds).1, Walk.run_ends hg hroot rounds⟩
  case first =>
    intro root hroot
    rw [preorder_eq hg hroot]
    rfl
  case reached =>
    intro root hroot x
    rw [← hnames]
    exact mem_preorder_iff_reachable hg hroot
  case block => exact fun root hroot x hx => preorder_block hg root hroot hx
  case once => exact fun honce root hroot => preorder_nodup (unshared_built h honce) hroot
  case behind_parent =>
    exact fun honce root hroot x hx hne => parent_before (unshared_built h honce) hroot hx hne
  case siblings => exact fun honce root hroot id hid => siblings_ordered (unshared_built h honce) hroot hid

/-- two nodes that are named against the order of their starts -/
theorem builtAs_linked_swapped :
    Earlier [(.symbol ['b'], ⟨1, 2⟩), (.other [], ⟨4, 5⟩), (.other [1, 0], ⟨1, 5⟩), (.other [2], ⟨0, 6⟩)] ∧
    Numbering.short.Counts 4 ∧ ∃ table : NodeTable, table.parent 1 = some 2 ∧ table.ancestors 1 = [2, 3] ∧
      table.preorder 3 = [3, 2, 0, 1] ∧ (table.preorder 3).Nodup ∧
      [0, 1].Sublist (table.preorder 3) := by
  have hearlier : Earlier [(.symbol ['b'], ⟨1, 2⟩), (.other [], ⟨4, 5⟩), (.other [1, 0], ⟨1, 5⟩),
      (.other [2], ⟨0, 6⟩)] := by decide
  have hcounts : Numbering.short.Counts 4 := fun _ => by decide
  have hlinked := builtAs_linked .short _ hearlier hcounts
  have honce : NamedOnce [(.symbol ['b'], ⟨1, 2⟩), (.other [], ⟨4, 5⟩), (.other [1, 0], ⟨1, 5⟩),
      (.other [2], ⟨0, 6⟩)] := by decide
  refine ⟨hearlier, hcounts, _, by decide, by decide, by decide, hlinked.once honce 3 (by decide), ?_⟩
  have hsiblings := hlinked.siblings honce 3 (by decide) 2 (by decide)
  have hpair := (List.pairwise_cons.mp hsiblings).1 0 (by decide)
  rwa [if_neg (by decide)] at hpair

/-- The node behind 4 Gi others has the number of the first one again.  It names that one and makes it its own
parent. -/
theorem built_not_climbing :
    Earlier (List.replicate 4294967296 (.other [], ⟨0, 0⟩) ++ [(.other [0], ⟨0, 0⟩)]) ∧
    (builtAs .short (List.replicate 4294967296 (.other [], ⟨0, 0⟩) ++ [(.other [0], ⟨0, 0⟩)])).parent 0
      = some 0 ∧
    ¬ Linked (List.replicate 4294967296 (.other [], ⟨0, 0⟩) ++ [(.other [0], ⟨0, 0⟩)])
        (builtAs .short (List.replicate 4294967296 (.other [], ⟨0, 0⟩) ++ [(.other [0], ⟨0, 0⟩)])) := by
  have hlength : (List.replicate 4294967296 ((.other [], ⟨0, 0⟩) : Node Nat × Span)).length = numberLimit :=
    List.length_replicate
  have hparent : (builtAs .short (List.replicate 4294967296 (.other [], ⟨0, 0⟩)
      ++ [(.other [0], ⟨0, 0⟩)])).parent 0 = some 0 := by
    rw [builtAs_concat, builtAs_eq fun _ => Nat.le_of_eq hlength, NodeTable.parent, row_pushAs_of_lt]
    · rw [size_built, hlength]
      rfl
    · rw [size_built, hlength]
      decide
  refine ⟨fun number push hpush child hchild => ?_, hparent, fun hlinked => ?_⟩
  · rcases getElem?_concat_eq_some.mp hpush with hold | ⟨hnumber, hlast⟩
    · rw [List.eq_of_mem_replicate (List.mem_of_getElem? hold)] at hchild
      cases hchild
    · rw [← hlast] at hchild
      rw [List.mem_singleton.mp hchild, hnumber, hlength]
      decide
  · exact Nat.lt_irrefl 0 (hlinked.parent_gt 0 0 hparent)

/-- a node that two pushes name is listed below both, and its parent is the later one -/
example : (built [(.other [], ⟨1, 2⟩), (.other [0], ⟨1, 2⟩), (.other [1, 0], ⟨0, 3⟩)]).parent 0 = some 2 ∧
    (built [(.other [], ⟨1, 2⟩), (.other [0], ⟨1, 2⟩), (.other [1, 0], ⟨0, 3⟩)]).preorder 2 = [2, 1, 0, 0] := by
  decide

end NodeTable

end Collate
