import Mathlib.Data.List.Forall2
import Collate.Proofs.Build.Follows

/-!
# Trees in the table of the program

What the program has in its table when the grammar has read a tree: the table holds the tree as if it had
been pushed whole, and the number the program goes on with is that of its top.

* `NodeTable.Stands`     a number has the span of a tree;
* `NodeTable.Opens`      trees stand at the front of a list, whatever is pushed behind them;
* `Build.Pushed`         a tree was pushed;
* `Build.PushedAll`      a list of trees was pushed;
* `Build.Descent.Follows`   every phrase of the program follows the phrase of the grammar.
-/

namespace Collate

namespace NodeTable
variable {table table' table'' : NodeTable}

/-- a number has the span of a tree -/
structure Stands (table : NodeTable) (id : Nat) (tree : Tree) : Prop where
  lt_size : id < table.size
  span_eq : table.span id = tree.span

theorem Stands.extends {id : Nat} {tree : Tree} (h : table.Stands id tree) (hext : table.Extends table') :
    table'.Stands id tree :=
  ⟨Nat.lt_of_lt_of_le h.lt_size hext.size_le, by rw [hext.span_eq id h.lt_size, h.span_eq]⟩

theorem stands_push (table : NodeTable) (node : Node Nat) (node' : Node Tree) (span : Span) :
    (table.push node span).Stands table.size ⟨node', span⟩ :=
  ⟨by rw [size_push]; exact Nat.lt_succ_self _, span_push_size node span⟩

theorem Stands.forall_extends {ids : List Nat} {trees : List Tree}
    (h : List.Forall₂ table.Stands ids trees) (hext : table.Extends table') :
    List.Forall₂ table'.Stands ids trees :=
  h.imp fun _ _ hstands => hstands.extends hext

theorem Stands.lt_of_mem {ids : List Nat} {trees : List Tree} (h : List.Forall₂ table.Stands ids trees)
    {id : Nat} (hid : id ∈ ids) : id < table.size := by
  induction h with
  | nil => cases hid
  | cons hstands _ ih =>
    rcases List.mem_cons.mp hid with rfl | hid
    · exact hstands.lt_size
    · exact ih hid

theorem pushTree_mk {node : Node Tree} {node' : Node Nat} (h : table.pushNode node = (table', node'))
    (span : Span) : table.pushTree ⟨node, span⟩ = (table'.push node' span, table'.size) := by
  rw [pushTree, h]

theorem pushTree_symbol (table : NodeTable) (name : Text) (span : Span) :
    table.pushTree ⟨.symbol name, span⟩ = (table.push (.symbol name) span, table.size) :=
  pushTree_mk rfl span

theorem pushTree_leaf (table : NodeTable) (span : Span) :
    table.pushTree (.leaf span) = (table.push (.other []) span, table.size) :=
  pushTree_mk rfl span

theorem pushAll_single {tree : Tree} {id : Nat} (h : table.pushTree tree = (table', id)) :
    table.pushAll [tree] = (table', [id]) := by
  rw [pushAll_cons table (.inr rfl), h]
  rfl

theorem pushAll_cons_eq {tree : Tree} {trees : List Tree} {id : Nat} {ids : List Nat}
    (hrun : tree.isRun = false) (h : table.pushTree tree = (table', id))
    (h' : table'.pushAll trees = (table'', ids)) : table.pushAll (tree :: trees) = (table'', id :: ids) := by
  rw [pushAll_cons table (.inl hrun), h]
  dsimp only
  rw [h']

/-- trees stand at the front of a list, whatever is pushed behind them -/
def Opens (table : NodeTable) (trees : List Tree) (ids : List Nat) (table' : NodeTable) : Prop :=
  ∀ rest ids' table'', table'.pushAll rest = (table'', ids') →
    table.pushAll (trees ++ rest) = (table'', ids ++ ids')

namespace Opens
variable {trees more : List Tree} {ids ids' : List Nat} {tree : Tree} {id : Nat}

theorem nil (table : NodeTable) : Opens table [] [] table :=
  fun _ _ _ h => h

theorem trans (h : Opens table trees ids table') (h' : Opens table' more ids' table'') :
    Opens table (trees ++ more) (ids ++ ids') table'' := by
  intro rest ids'' table''' hrest
  rw [List.append_assoc, List.append_assoc]
  exact h _ _ _ (h' rest ids'' table''' hrest)

/-- a tree that is no run of pairs stands before all that is pushed behind it -/
theorem single (hrun : tree.isRun = false) (h : table.pushTree tree = (table', id)) :
    Opens table [tree] [id] table' :=
  fun _ _ _ hrest => pushAll_cons_eq hrun h hrest

theorem run {elements : List Tree} {span : Span} (h : table.pushAll elements = (table', ids))
    (h' : table'.pushTree tree = (table'', id)) :
    Opens table [⟨.literal none elements, span⟩, tree] [table''.size, id]
      (table''.push (.literal none ids) span) := by
  intro rest ids' table''' hrest
  show table.pushAll (⟨.literal none elements, span⟩ :: tree :: rest) = _
  rw [pushAll, h]
  dsimp only
  rw [h']
  dsimp only
  rw [hrest]
  rfl

theorem pushAll_eq (h : Opens table trees ids table') : table.pushAll trees = (table', ids) := by
  have := h [] [] table' rfl
  rwa [List.append_nil, List.append_nil] at this

end Opens

end NodeTable

namespace Build
open Cursor NodeTable
variable {α γ δ : Type} {t : Text} {base table table' : NodeTable} {s s' : Cursor}
  {Q : δ → Cursor → γ → NodeTable → Prop}

/-! ## pushing a node -/

theorem Follows.spanOf {f : Span → Build γ} {p : Parse δ} {id : Nat} {tree : Tree}
    (hid : table.Stands id tree) (h : Follows t table (f tree.span) p s Q) :
    Follows t table (Build.spanOf id >>= f) p s Q := by
  refine Follows.lookUp (fun profile => ?_) h
  have hrow : (s.builder profile t table).nodes.rows[id]? = some (table.row id) := by
    rw [builder, row, Array.getD_eq_getD_getElem?, Array.getElem?_eq_getElem hid.lt_size]
    rfl
  rw [Build.spanOf, exec_state_bind, hrow, ← hid.span_eq]
  rfl

/-- a node over nodes of the table is pushed, and its number is that of the old size -/
theorem push_eq {node : Node Nat} (span : Span) (hchildren : ∀ child ∈ node.children, child < table.size)
    (profile : Profile) : (Build.push node span).exec (s.builder profile t table)
      = (.ok (profile.numbering.number table.size),
          s.builder profile t (table.pushAs profile.numbering node span)) := by
  have hnone : node.children.find?
      (fun child => decide ((s.builder profile t table).nodes.size ≤ child)) = none := by
    refine List.find?_eq_none.mpr fun child hchild => ?_
    rw [decide_eq_true_eq]
    exact Nat.not_le_of_lt (hchildren child hchild)
  rw [Build.push, exec_state_bind, hnone]
  rfl

theorem Follows.push {f : Nat → Build γ} {p : Parse δ} {node : Node Nat} {span : Span}
    (hchildren : ∀ child ∈ node.children, child < table.size)
    (h : Follows t (table.push node span) (f table.size) p s Q) :
    Follows t table (Build.push node span >>= f) p s Q := by
  refine Follows.step (Passes.refl s) (extends_push node span) (fun profile => ?_) rfl h
  rw [push_eq span hchildren]
  refine ⟨fun hcounts => ?_, fun hshort hcounts => hshort ?_⟩
  · rw [Profile.Counts, size_push] at hcounts
    rw [number_size hcounts, pushAs_eq_push node span hcounts]
  · change profile.numbering.Counts (table.pushAs profile.numbering node span).size at hcounts
    rwa [Profile.Counts, size_push, ← table.size_pushAs profile.numbering node span]

theorem Follows.push_last {b : δ} {node : Node Nat} {span : Span} {Q : δ → Cursor → Nat → NodeTable → Prop}
    (hchildren : ∀ child ∈ node.children, child < table.size)
    (h : Q b s table.size (table.push node span)) :
    Follows t table (Build.push node span) (Pure.pure b) s Q := by
  rw [← bind_pure (Build.push node span)]
  exact Follows.push hchildren (Follows.pure h)

theorem pushFrom_eq {node : Node Nat} {start stop : Nat} (h : start ≤ stop) :
    Build.pushFrom node start stop = Build.push node ⟨start, stop⟩ := by
  rw [Build.pushFrom, Span.ofBounds, if_pos h]
  rfl

/-! ## trees that were pushed -/

/-- a tree was pushed, which lies between an offset and a cursor -/
structure Pushed (base : NodeTable) (start : Nat) (tree : Tree) (s : Cursor) (id : Nat)
    (table : NodeTable) : Prop where
  push : base.pushTree tree = (table, id)
  isRun : tree.isRun = false
  start_le : start ≤ tree.span.stop
  le_offset : tree.span.start ≤ s.offset

structure PushedAll (base : NodeTable) (start : Nat) (trees : List Tree) (ids : List Nat)
    (table : NodeTable) : Prop where
  push : base.pushAll trees = (table, ids)
  stands : List.Forall₂ table.Stands ids trees
  start_le : ∀ tree ∈ trees, start ≤ tree.span.stop

section
variable {start start' : Nat} {tree : Tree} {trees : List Tree} {id : Nat} {ids : List Nat}

theorem Pushed.stands (h : Pushed base start tree s id table) : table.Stands id tree := by
  obtain ⟨node, span⟩ := tree
  have hpush := h.push
  rw [pushTree] at hpush
  obtain ⟨rfl, rfl⟩ := Prod.mk.inj hpush
  exact stands_push _ _ node span

theorem PushedAll.nil (base : NodeTable) (start : Nat) : PushedAll base start [] [] base :=
  ⟨rfl, .nil, fun _ hmem => nomatch hmem⟩

theorem PushedAll.cons (h : Pushed base start tree s id table) (h' : PushedAll table start' trees ids table')
    (hext : table.Extends table') (hstart : start ≤ start') :
    PushedAll base start (tree :: trees) (id :: ids) table' := by
  refine ⟨pushAll_cons_eq h.isRun h.push h'.push, .cons (h.stands.extends hext) h'.stands, ?_⟩
  intro x hx
  rcases List.mem_cons.mp hx with rfl | hx
  · exact h.start_le
  · exact Nat.le_trans hstart (h'.start_le x hx)

theorem PushedAll.single (h : Pushed base start tree s id table) :
    PushedAll base start [tree] [id] table :=
  PushedAll.cons h (PushedAll.nil table start) (Extends.refl table) (Nat.le_refl _)

theorem Pushed.mk' {node : Node Tree} {node' : Node Nat} {span : Span}
    (h : base.pushNode node = (table, node')) (hrun : Tree.isRun ⟨node, span⟩ = false)
    (hspan : start ≤ span.stop ∧ span.start ≤ s.offset) :
    Pushed base start ⟨node, span⟩ s table.size (table.push node' span) :=
  ⟨pushTree_mk h span, hrun, hspan.1, hspan.2⟩

theorem Pushed.join (h : Pushed base start tree s id table) (hs : s.Ready t) (hpasses : s.Passes s')
    (span : Span) : start ≤ (tree.span.join span).stop ∧ (tree.span.join span).start ≤ s'.offset :=
  ⟨Nat.le_trans h.start_le (Nat.le_max_left _ _),
    Nat.le_trans (Nat.min_le_left _ _) (Nat.le_trans h.le_offset (hpasses.offset_le hs.toValid))⟩

theorem join_current (hs : s.Ready t) (hpasses : s.Passes s') (span : Span) :
    s.offset ≤ (s.current.span.join span).stop ∧ (s.current.span.join span).start ≤ s'.offset :=
  ⟨Nat.le_trans hs.start_le_stop (Nat.le_max_left _ _),
    Nat.le_trans (Nat.min_le_left _ _) (hpasses.offset_le hs.toValid)⟩

end

def Descent.Follows (t : Text) (build : Build.Descent) (descend : Collate.Descent) : Prop :=
  ∀ phrase place (s : Cursor) (table : NodeTable), s.Ready t →
    Build.Follows t table (build phrase place) (descend phrase place) s (Pushed table s.offset)

end Build

end Collate
