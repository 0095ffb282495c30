import Collate.Proofs.Grammar.Progress

/-!
# Loops over tokens

What the loops of the reader give, from what one round of them gives: items between commas,
constructs that further tokens extend, and statements.  A round takes a token at least, so none of
them uses up its rounds.

* `Parse.ReadsTree`   a reader gives a placed tree over the tokens it takes, or a proper error;
* `Descent.Sound`     all phrases do so, as long as their depth is above the number of tokens;
* `Cursor.Lists`      placed trees that follow each other between two cursors.
-/

namespace Collate

def Parse.ReadsTree (t : Text) (p : Parse Tree) (s : Cursor) : Prop :=
  Outcome p s (Tree.ReadFrom t s) (ReadError.Proper t)

/-- every phrase gives a placed tree while there are fewer tokens ahead than its depth; a branch
is only read where its reserved word stands -/
def Descent.Sound (t : Text) (depth : Nat) (descend : Descent) : Prop :=
  ∀ phrase place s, s.Valid t → s.ahead.length < depth →
    (phrase = .branch → s.current.kind ≠ .eof) → Parse.ReadsTree t (descend phrase place) s

def Tree.lastStop? (trees : List Tree) : Option Nat :=
  trees.getLast?.map (·.span.stop)

theorem Tree.lastStop?_cons (tree : Tree) (trees : List Tree) :
    lastStop? (tree :: trees) = some ((lastStop? trees).getD tree.span.stop) := by
  rw [lastStop?, lastStop?, List.getLast?_cons]
  cases trees.getLast? <;> rfl

/-- placed trees that follow each other between two cursors -/
structure Cursor.Lists (t : Text) (s : Cursor) (trees : List Tree) (s' : Cursor) : Prop where
  passes : s.Passes s'
  placed : ∀ tree ∈ trees, tree.Placed t
  row : Tree.InRow trees s.offset s'.offset

namespace Cursor
variable {t : Text} {s s' s'' : Cursor} {tree : Tree} {trees : List Tree}

theorem Lists.nil (s : Cursor) : Lists t s [] s :=
  ⟨Passes.refl s, by simp, Tree.InRow.nil _ _⟩

theorem Lists.passes_left (h' : Lists t s' trees s'') (h : s.Passes s') (hs : s.Valid t) :
    Lists t s trees s'' :=
  ⟨h.trans h'.passes, h'.placed, h'.row.widen (h.offset_le hs) (Nat.le_refl _)⟩

theorem Lists.passes_right (h : Lists t s trees s') (hs : s.Valid t) (h' : s'.Passes s'') :
    Lists t s trees s'' :=
  ⟨h.passes.trans h', h.placed,
    h.row.widen (Nat.le_refl _) (h'.offset_le (h.passes.valid hs))⟩

theorem Lists.single (hs : s.Valid t) (h : tree.ReadFrom t s s') : Lists t s [tree] s' := by
  refine ⟨h.takes.passes, by simpa using h.placed, Tree.InRow.single ?_ (h.takes.stop_le hs)⟩
  exact Nat.le_of_eq h.takes.start_eq.symm

theorem Lists.cons (hs : s.Valid t) (h : tree.ReadFrom t s s') (h' : Lists t s' trees s'') :
    Lists t s (tree :: trees) s'' := by
  have hstop := h.takes.stop_le hs
  have hle := h'.passes.offset_le (h.takes.valid hs)
  refine ⟨h.takes.passes.trans h'.passes, ?_, ?_⟩
  · intro x hx
    rcases List.mem_cons.mp hx with rfl | hx
    · exact h.placed
    · exact h'.placed x hx
  · exact Tree.InRow.cons (Nat.le_of_eq h.takes.start_eq.symm) (Nat.le_of_lt h.placed.nonempty)
      hstop (by omega) h'.row

theorem Lists.append {a b : List Tree} (hs : s.Valid t) (h : Lists t s a s')
    (h' : Lists t s' b s'') : Lists t s (a ++ b) s'' := by
  have hle := h.passes.offset_le hs
  have hle' := h'.passes.offset_le (h.passes.valid hs)
  refine ⟨h.passes.trans h'.passes, ?_, h.row.append h'.row (Nat.le_refl _) hle hle'⟩
  intro x hx
  rcases List.mem_append.mp hx with hx | hx
  · exact h.placed x hx
  · exact h'.placed x hx

theorem Lists.enclosed {node : Node Tree} (h : Lists t s.advance node.inOrder s') (hs : s.Valid t)
    (hk : s.current.kind ≠ .eof) (hk' : s'.current.kind ≠ .eof)
    (hmarked : node.Marked t ⟨s.current.span.start, s'.current.span.stop⟩) :
    Tree.ReadFrom t s ⟨node, s.current.span.join s'.current.span⟩ s'.advance := by
  have ht := takes_advance hs hk
  have hs' := ht.valid hs
  have hs'' := h.passes.valid hs'
  have ht' := takes_advance hs'' hk'
  have h₁ := ht.nonempty hs
  have h₂ := ht'.nonempty hs''
  have h₃ := ht.stop_le hs
  rw [ht.join_eq hs h.passes ht']
  refine Tree.readFrom_mk hs (ht.passes_takes h.passes ht') ?_ ?_ hmarked
  · intro child hchild
    exact h.placed child (Node.mem_inOrder.mpr hchild)
  · refine h.row.widen ?_ (Nat.le_of_lt h₂)
    show s.current.span.start ≤ s.advance.offset
    omega

theorem Lists.upTo {node : Node Tree} {front : List Tree} {last : Tree}
    (h : Lists t s.advance front s') (hs : s.Valid t) (hk : s.current.kind ≠ .eof)
    (hlast : last.ReadFrom t s' s'') (hnode : node.inOrder = front ++ [last])
    (hmarked : Tree.InRow (front ++ [last]) s.current.span.stop last.span.stop →
      node.Marked t ⟨s.current.span.start, last.span.stop⟩) :
    Tree.ReadFrom t s ⟨node, s.current.span.join last.span⟩ s'' := by
  have ht := takes_advance hs hk
  have hs' := ht.valid hs
  have hs'' := h.passes.valid hs'
  have h₁ := ht.nonempty hs
  have h₂ := ht.stop_le hs
  have h₃ := h.passes.offset_le hs'
  have h₄ := hlast.takes.start_eq
  have h₅ := hlast.placed.nonempty
  have hall := Lists.append hs' h (Lists.single hs'' hlast)
  have hrow : Tree.InRow (front ++ [last]) s.current.span.stop last.span.stop := by
    refine (h.row.widen h₂ (Nat.le_refl _)).append (Tree.InRow.single (Nat.le_refl _) (Nat.le_refl _))
      ?_ ?_ ?_
    · omega
    · omega
    · omega
  rw [ht.join_eq hs h.passes hlast.takes]
  refine Tree.readFrom_mk hs (ht.passes_takes h.passes hlast.takes) ?_ ?_ (hmarked hrow)
  · intro child hchild
    refine hall.placed child ?_
    rw [← hnode]
    exact Node.mem_inOrder.mpr hchild
  · rw [hnode]
    exact hrow.widen (Nat.le_of_lt h₁) (Nat.le_refl _)

end Cursor

namespace Parse
open Cursor
variable {t : Text} {s s₀ : Cursor}

/-! ## errors -/

theorem proper_here (hs : s.Valid t) {cause : ReadCause} (h : cause ≠ .outOfSteps) :
    ReadError.Proper t ⟨cause, s.current.span.start⟩ :=
  ⟨hs.offset_boundary, h⟩

/-! ## items between commas -/

/-- One round reads an item whose tree is placed over the tokens it takes.  With no closing token
to look for, the list ends where its last item does. -/
theorem separatedIn_lists {α : Type} {item : Parse α} (tree : α → Tree)
    {closer : Option Token.Kind} {depth : Nat}
    (hitem : ∀ s, s.Valid t → s.ahead.length < depth →
      Outcome item s (fun a => (tree a).ReadFrom t s) (ReadError.Proper t)) (n : Nat) :
    ∀ s, s.Valid t → s.ahead.length < depth → s.ahead.length < n →
      Outcome (separatedIn item closer n) s
        (fun items s' => Lists t s (items.map tree) s' ∧
          (closer = none → ∃ stop, Tree.lastStop? (items.map tree) = some stop ∧
            s.Takes s' ⟨s.offset, stop⟩))
        (ReadError.Proper t) := by
  induction n with
  | zero => intro s hs hdepth hn; omega
  | succ n ih =>
    intro s hs hdepth hn
    unfold separatedIn
    refine (hitem s hs hdepth).bind ?_
    intro a s' ha
    have hs' := ha.takes.valid hs
    have hlt := ha.takes.length_lt
    have htakes : s.Takes s' ⟨s.offset, (tree a).span.stop⟩ := by
      rw [← ha.takes.start_eq]
      exact ha.takes
    rw [outcome_bind, outcome_eat]
    split
    next hcomma =>
      have hc := takes_advance hs' (by rw [hcomma]; simp)
      have hs'' := hc.valid hs'
      have hlt' := hc.length_lt
      have hrest := ih s'.advance hs'' (by omega) (by omega)
      have hcons : Outcome (do return a :: (← separatedIn item closer n)) s'.advance
          (fun items s'' => Lists t s (items.map tree) s'' ∧
            (closer = none → ∃ stop, Tree.lastStop? (items.map tree) = some stop ∧
              s.Takes s'' ⟨s.offset, stop⟩)) (ReadError.Proper t) := by
        refine hrest.bind ?_
        intro items s'' h
        refine ⟨Lists.cons hs ha (h.1.passes_left hc.passes hs'), fun hnone => ?_⟩
        obtain ⟨stop, hstop, htail⟩ := h.2 hnone
        have hall : Tree.lastStop? ((a :: items).map tree) = some stop := by
          rw [List.map_cons, Tree.lastStop?_cons, hstop]
          rfl
        exact ⟨stop, hall, htakes.passes_takes hc.passes htail⟩
      cases closer with
      | none =>
        rw [if_pos rfl, outcome_bind, outcome_closes_none]
        exact hcons
      | some kind =>
        rw [if_pos rfl, outcome_bind, outcome_closes_some]
        split
        next => exact ⟨(Lists.single hs ha).passes_right hs hc.passes, fun h => nomatch h⟩
        next => exact hcons
    next hcomma => exact ⟨Lists.single hs ha, fun _ => ⟨_, rfl, htakes⟩⟩

theorem separated_lists {α : Type} {item : Parse α} (tree : α → Tree)
    {closer : Option Token.Kind} {depth : Nat}
    (hitem : ∀ s, s.Valid t → s.ahead.length < depth →
      Outcome item s (fun a => (tree a).ReadFrom t s) (ReadError.Proper t))
    (hs : s.Valid t) (hdepth : s.ahead.length < depth) :
    Outcome (separated item closer) s
      (fun items s' => Lists t s (items.map tree) s' ∧
        (closer = none → ∃ stop, Tree.lastStop? (items.map tree) = some stop ∧
          s.Takes s' ⟨s.offset, stop⟩))
      (ReadError.Proper t) := by
  unfold separated
  rw [outcome_bind, outcome_rounds]
  exact separatedIn_lists tree hitem _ s hs hdepth (Nat.lt_succ_self _)

/-! ## constructs that further tokens extend -/

/-- a step leaves all as it is, or gives a longer tree over further tokens -/
def Extended (t : Text) (s₀ s : Cursor) (longer : Option Tree) (s' : Cursor) : Prop :=
  match longer with
  | none => s' = s
  | some tree => tree.ReadFrom t s₀ s' ∧ s'.ahead.length < s.ahead.length

theorem chainedIn_reads {extend : Tree → Parse (Option Tree)}
    (hext : ∀ tree s, tree.ReadFrom t s₀ s →
      Outcome (extend tree) s (Extended t s₀ s) (ReadError.Proper t)) (n : Nat) :
    ∀ tree s, tree.ReadFrom t s₀ s → s.ahead.length < n →
      Outcome (chainedIn extend n tree) s (Tree.ReadFrom t s₀) (ReadError.Proper t) := by
  induction n with
  | zero => intro tree s h hn; omega
  | succ n ih =>
    intro tree s h hn
    unfold chainedIn
    refine (hext tree s h).bind ?_
    intro longer s' h'
    cases longer with
    | none =>
      rw [Extended] at h'
      rw [h']
      exact h
    | some longer => exact ih longer s' h'.1 (by have := h'.2; omega)

theorem chained_reads {p : Parse Tree} {extend : Tree → Parse (Option Tree)}
    (hp : ReadsTree t p s)
    (hext : ∀ tree s', tree.ReadFrom t s s' →
      Outcome (extend tree) s' (Extended t s s') (ReadError.Proper t)) :
    ReadsTree t (do chained extend (← p)) s := by
  refine hp.bind ?_
  intro tree s' h
  unfold chained
  rw [outcome_bind, outcome_rounds]
  exact chainedIn_reads hext _ tree s' h (Nat.lt_succ_self _)

/-- a step leaves all as it is, or gives a longer tree with a property -/
def Longer (P : Tree → Cursor → Prop) (s : Cursor) (longer : Option Tree) (s' : Cursor) : Prop :=
  match longer with
  | none => s' = s
  | some tree => P tree s'

theorem chainedIn_keeps {extend : Tree → Parse (Option Tree)} {P : Tree → Cursor → Prop}
    (hext : ∀ tree s, P tree s → Outcome (extend tree) s (Longer P s) ReadError.Any) (n : Nat) :
    ∀ tree s, P tree s → Outcome (chainedIn extend n tree) s P ReadError.Any := by
  induction n with
  | zero => intro tree s h; trivial
  | succ n ih =>
    intro tree s h
    unfold chainedIn
    refine (hext tree s h).bind ?_
    intro longer s' h'
    cases longer with
    | none =>
      rw [Longer] at h'
      rw [h']
      exact h
    | some longer => exact ih longer s' h'

/-- what a construct and every step that extends it keep, holds at the end -/
theorem chained_keeps {p : Parse Tree} {extend : Tree → Parse (Option Tree)}
    {P : Tree → Cursor → Prop} (hp : Outcome p s P ReadError.Any)
    (hext : ∀ tree s', P tree s' → Outcome (extend tree) s' (Longer P s') ReadError.Any) :
    Outcome (do chained extend (← p)) s P ReadError.Any := by
  refine hp.bind ?_
  intro tree s' h
  unfold chained
  rw [outcome_bind, outcome_rounds]
  exact chainedIn_keeps hext _ tree s' h

/-! ## statements -/

theorem passes_skipSemicolons (s : Cursor) :
    s.Passes { s with ahead := s.ahead.dropWhile (fun t => decide (t.kind = .semicolon)) } :=
  ⟨_, (List.takeWhile_append_dropWhile).symm, rfl⟩

theorem statementsIn_lists {descend : Descent} {depth : Nat} (hd : descend.Sound t depth)
    (place : Place) (stop : Token.Kind → Bool) (n : Nat) :
    ∀ s, s.Valid t → s.ahead.length < depth → s.ahead.length < n →
      Outcome (statementsIn descend place stop n) s (Lists t s) (ReadError.Proper t) := by
  induction n with
  | zero => intro s hs hdepth hn; omega
  | succ n ih =>
    intro s hs hdepth hn
    unfold statementsIn skipSemicolons
    rw [outcome_bind, outcome_modify, outcome_bind, outcome_finished]
    have hskip := passes_skipSemicolons s
    have hs' := hskip.valid hs
    have hle := hskip.length_le
    generalize ({ s with ahead := s.ahead.dropWhile (fun t => decide (t.kind = .semicolon)) } : Cursor)
      = s' at hskip hs' hle
    split
    next => exact (Lists.nil s').passes_left hskip hs
    next =>
      refine (hd .statement place s' hs' (by omega) (by simp)).bind ?_
      intro first s'' hfirst
      have hs'' := hfirst.takes.valid hs'
      have hlt := hfirst.takes.length_lt
      simp only [outcome_bind, outcome_finished, outcome_sees, outcome_sameLine]
      split
      next =>
        refine (ih s'' hs'' (by omega) (by omega)).bind ?_
        intro rest s''' hrest
        exact (Lists.cons hs' hfirst hrest).passes_left hskip hs
      next => exact proper_here hs'' (by simp)

theorem statements_lists {descend : Descent} {depth : Nat} (hd : descend.Sound t depth)
    (place : Place) (stop : Token.Kind → Bool) (hs : s.Valid t) (hdepth : s.ahead.length < depth) :
    Outcome (statements descend place stop) s (Lists t s) (ReadError.Proper t) := by
  unfold statements
  rw [outcome_bind, outcome_rounds]
  exact statementsIn_lists hd place stop _ s hs hdepth (Nat.lt_succ_self _)

end Parse

end Collate
