import Collate.Proofs.Build.Body

/-!
# Statements follow the grammar

From atoms up to statements, and all phrases down to a depth.

* `Build.atom_follows`, `Build.access_follows`, `Build.binary_follows`   atoms and what extends them;
* `Build.phrase_follows`   all phrases, by induction on the depth.
-/

namespace Collate

namespace Build
open Cursor NodeTable
variable {t : Text} {base table table' : NodeTable} {s s' : Cursor} {start : Nat}
  {build : Build.Descent} {descend : Collate.Descent}

/-! ## atoms and terms -/

theorem named_follows (hd : Descent.Follows t build descend) (place : Place) {name : Text} (hs : s.Ready t)
    (hk : s.current.kind ≠ .eof) :
    Follows t table (Build.call build place none name s.current.span)
      (Parse.call descend place none name s.current.span) s.advance (Pushed table s.offset) :=
  call_follows hd place hs.advance (PushedOption.none table) (hs.stop_le_advance hk) hs.start_le_stop
    hs.start_le_stop

theorem leaf_follows {node : Node Nat} {node' : Node Tree} (hs : s.Ready t)
    (hnode : ∀ table : NodeTable, table.pushNode node' = (table, node)) (hchildren : node.children = [])
    (hrun : ∀ span, Tree.isRun ⟨node', span⟩ = false) :
    Follows t table (Build.push node s.current.span) (pure ⟨node', s.current.span⟩) s.advance
      (Pushed table s.offset) :=
  Follows.push_last (fun _ hmem => by rw [hchildren] at hmem; cases hmem)
    (Pushed.mk' (hnode table) (hrun _) ⟨hs.start_le_stop, hs.offset_le_advance⟩)

theorem name_follows (hd : Descent.Follows t build descend) (place : Place) {name : Text} (hs : s.Ready t)
    (hk : s.current.kind ≠ .eof) :
    Follows t table (Build.name build place name) (Parse.name descend place name) s
      (Pushed table s.offset) := by
  rw [Build.name, Parse.name]
  refine Follows.advance hs (Follows.isLocal (Follows.tightParen hs.advance ?_))
  split
  next => exact leaf_follows hs (fun _ => rfl) rfl (fun _ => rfl)
  next => exact named_follows hd place hs hk

theorem constant_follows (hd : Descent.Follows t build descend) (place : Place) {name : Text}
    (hs : s.Ready t) (hk : s.current.kind ≠ .eof) :
    Follows t table (Build.constant build place name) (Parse.constant descend place name) s
      (Pushed table s.offset) := by
  rw [Build.constant, Parse.constant]
  refine Follows.advance hs (Follows.tightParen hs.advance ?_)
  split
  next => exact named_follows hd place hs hk
  next => exact leaf_follows hs (fun _ => rfl) rfl (fun _ => rfl)

theorem single_follows {node : Node Nat} {node' : Node Tree} (hs : s.Ready t)
    (hnode : ∀ table : NodeTable, table.pushNode node' = (table, node)) (hchildren : node.children = [])
    (hrun : ∀ span, Tree.isRun ⟨node', span⟩ = false) :
    Follows t table (Build.single node) (Parse.single node') s (Pushed table s.offset) :=
  Follows.advance hs (leaf_follows hs hnode hchildren hrun)

theorem array_follows (hd : Descent.Follows t build descend) (hs : s.Ready t) :
    Follows t table (Build.array build) (Parse.array descend) s (Pushed table s.offset) := by
  rw [Build.array, Parse.array]
  refine Follows.advance hs ?_
  refine (arguments_follows hd .free _ hs.advance).bind fun items s' ids table' hpasses _ hids => ?_
  refine Follows.expect (hpasses.ready hs.advance) fun _ => Follows.push_last
    (fun _ => Stands.lt_of_mem hids.stands) (Pushed.mk' ?_ rfl
      (join_current hs ((passes_advance s).trans (hpasses.trans (passes_advance s'))) _))
  simp only [pushNode, hids.push]

theorem parenthesized_follows (hd : Descent.Follows t build descend) (hs : s.Ready t) :
    Follows t table (Build.parenthesized build) (Parse.parenthesized descend) s
      (Pushed table s.offset) := by
  rw [Build.parenthesized, Parse.parenthesized]
  refine Follows.advance hs ?_
  refine (hd .statement .free _ _ hs.advance).bind fun inner s' id table' hpasses _ hid => ?_
  refine Follows.expect (hpasses.ready hs.advance) fun _ => Follows.push_last
    (fun _ => Stands.lt_of_mem (PushedAll.single hid).stands) (Pushed.mk' ?_ rfl
      (join_current hs ((passes_advance s).trans (hpasses.trans (passes_advance s'))) _))
  simp only [pushNode, pushAll_single hid.push]

theorem atom_follows (hd : Descent.Follows t build descend) (place : Place) (hs : s.Ready t) :
    Follows t table (Build.atom build place) (Parse.atom descend place) s (Pushed table s.offset) := by
  have hleaf : Follows t table (Build.single (.other [])) (Parse.single (.other [])) s
      (Pushed table s.offset) := single_follows hs (fun _ => rfl) rfl (fun _ => rfl)
  rw [Build.atom, Parse.atom]
  refine Follows.peek hs ?_
  split
  next hk => simpa only [hk] using name_follows hd place hs (by rw [hk]; simp)
  next hk => simpa only [hk] using constant_follows hd place hs (by rw [hk]; simp)
  next hk => simpa only [hk] using hleaf
  next hk => simpa only [hk] using hleaf
  next hk => simpa only [hk] using hleaf
  next hk => simpa only [hk] using hleaf
  next hk => simpa only [hk] using hleaf
  next hk => simpa only [hk] using hleaf
  next hk => simpa only [hk] using single_follows hs (fun _ => rfl) rfl (fun _ => rfl)
  next hk => simpa only [hk] using single_follows hs (fun _ => rfl) rfl (fun _ => rfl)
  next hk => simpa only [hk] using definition_follows hd place hs
  next hk => simpa only [hk] using branch_follows hd place hs
  next hk => simpa only [hk] using branch_follows hd place hs
  next hk => simpa only [hk] using repetition_follows hd hs
  next hk => simpa only [hk] using repetition_follows hd hs
  next hk => simpa only [hk] using namespaced_follows hd place hs
  next hk => simpa only [hk] using namespaced_follows hd place hs
  next hk => simpa only [hk] using jump_follows hd hs (by rw [hk]; simp)
  next hk => simpa only [hk] using jump_follows hd hs (by rw [hk]; simp)
  next hk => simpa only [hk] using array_follows hd hs
  next hk => simpa only [hk] using braced_follows hd hs
  next hk => simpa only [hk] using parenthesized_follows hd hs
  next hk => simpa only [hk] using Follows.refuseHere hs (fun _ => .misplacedLabel)
  next =>
    try simp only
    exact Follows.unexpected hs

theorem methodName_follows (hs : s.Ready t) :
    Follows t table Build.methodName Parse.methodName s
      (fun name s' name' table' => name' = name ∧ table' = table ∧ name.2 = s.current.span ∧
        s' = s.advance ∧ s.current.kind ≠ .eof) := by
  rw [Build.methodName, Parse.methodName]
  refine Follows.advance hs ?_
  split
  next hk =>
    try rw [hk]
    exact Follows.pure ⟨rfl, rfl, rfl, rfl, by simp⟩
  next hk =>
    try rw [hk]
    exact Follows.pure ⟨rfl, rfl, rfl, rfl, by simp⟩
  next hk =>
    try rw [hk]
    exact Follows.pure ⟨rfl, rfl, rfl, rfl, by simp⟩
  next hident hconst hkeyword =>
    try simp only
    exact Follows.refuse hs.current_slice

theorem method_follows (hd : Descent.Follows t build descend) (place : Place) {tree : Tree} {id : Nat}
    (hs : s.Ready t) (hle : start ≤ s.offset) (h : Pushed base start tree s id table) :
    Follows t table
      (do let _ ← Build.advance
          let (method, selector) ← Build.methodName
          return some (← Build.call build place (some id) method selector))
      (do let _ ← Parse.advance
          let (method, selector) ← Parse.methodName
          return some (← Parse.call descend place (some tree) method selector)) s
      (Lengthened base start tree id) := by
  have hs' := hs.advance
  refine Follows.advance hs ?_
  refine (methodName_follows hs').bind fun name s₁ name' table₁ _ _ hname => ?_
  obtain ⟨rfl, rfl, hselector, rfl, hk⟩ := hname
  have hbefore : s.offset ≤ name'.2.stop := by
    rw [hselector]
    exact Nat.le_trans hs.offset_le_advance hs'.start_le_stop
  refine (call_follows hd place hs'.advance (PushedOption.some h) ?_ (Nat.le_trans h.le_offset hbefore)
    (Nat.le_trans hle hbefore)).bind fun longer s₂ longerId table₂ _ _ hlonger => ?_
  · rw [hselector]
    exact hs'.stop_le_advance hk
  · exact Follows.pure (Lengthened.some hlonger)

theorem access_follows (hd : Descent.Follows t build descend) (place : Place) :
    Extending t base start (Build.access build place) (Parse.access descend place) := by
  intro tree id s table hs hle hbase h
  rw [Build.access, Parse.access]
  refine Follows.current hs ?_
  split
  next hk =>
    try rw [hk]
    exact method_follows hd place hs hle h
  next hk =>
    try rw [hk]
    exact method_follows hd place hs hle h
  next hk =>
    try rw [hk]
    refine Follows.advance hs (Follows.advance hs.advance ?_)
    have hname : Follows t table
        (do return some (← Build.push (.other [id]) ((← Build.spanOf id).join s.advance.current.span)))
        (pure (some ⟨.other [tree], tree.span.join s.advance.current.span⟩)) s.advance.advance
        (Lengthened base start tree id) := by
      refine Follows.spanOf h.stands (Follows.push (by simp [Node.children, h.stands.lt_size]) (Follows.pure
        (Lengthened.some (Pushed.mk' ?_ rfl (h.join hs ((passes_advance s).trans (passes_advance _)) _)))))
      simp only [pushNode, pushAll_single h.push]
    split
    next hname' => simpa only [hname'] using hname
    next hname' => simpa only [hname'] using hname
    next hconst hident =>
      try simp only
      exact Follows.refuse hs.advance.current_slice
  next hk hspace =>
    try rw [hk, hspace]
    refine Follows.advance hs ?_
    refine (arguments_follows hd .free _ hs.advance).bind fun items s' ids table' hpasses hext hids => ?_
    have hstands := h.stands.extends hext
    refine Follows.expect (hpasses.ready hs.advance) fun _ => Follows.spanOf hstands (Follows.push ?_
      (Follows.pure (Lengthened.some (Pushed.mk' ?_ rfl (h.join hs
        ((passes_advance s).trans (hpasses.trans (passes_advance s'))) _)))))
    · exact fun _ => Stands.lt_of_mem (.cons hstands hids.stands)
    · simp only [pushNode, pushAll_cons_eq h.isRun h.push hids.push]
  next hdot hsafe hscope hbracket =>
    try simp only
    exact Follows.pure (Lengthened.none h)

theorem term_follows (hd : Descent.Follows t build descend) (place : Place) (hs : s.Ready t) :
    Follows t table (Build.term build place) (Parse.term descend place) s (Pushed table s.offset) :=
  chained_follows hs (atom_follows hd place hs) (access_follows hd place)

/-! ## operators -/

theorem operand_follows (hd : Descent.Follows t build descend) (place : Place) (hs : s.Ready t) :
    Follows t table (Build.operand build place) (Parse.operand descend place) s (Pushed table s.offset) := by
  rw [Build.operand, Parse.operand]
  refine Follows.peek hs ?_
  split
  next =>
    refine Follows.advance hs ?_
    refine (hd .operand place _ _ hs.advance).bind fun inner s' id table' hpasses _ hid => ?_
    refine Follows.spanOf hid.stands (Follows.push_last (by simp [Node.children, hid.stands.lt_size])
      (Pushed.mk' ?_ rfl (join_current hs ((passes_advance s).trans hpasses) _)))
    simp only [pushNode, pushAll_single hid.push]
  next => exact term_follows hd place hs

theorem binary_follows (hd : Descent.Follows t build descend) (place : Place) :
    Extending t base start (Build.binary build place) (Parse.binary descend place) := by
  intro tree id s table hs hle hbase h
  rw [Build.binary, Parse.binary]
  refine Follows.current hs ?_
  split
  next =>
    refine Follows.advance hs ?_
    refine (operand_follows hd place hs.advance).bind fun right s' rightId table' hpasses hext hright => ?_
    have hstands := h.stands.extends hext
    refine Follows.spanOf hstands (Follows.spanOf hright.stands (Follows.push ?_ (Follows.pure
      (Lengthened.some (Pushed.mk' ?_ rfl (h.join hs ((passes_advance s).trans hpasses) _))))))
    · simp [Node.children, hstands.lt_size, hright.stands.lt_size]
    · simp only [pushNode, pushAll_cons_eq h.isRun h.push (pushAll_single hright.push)]
  next => exact Follows.pure (Lengthened.none h)

theorem expression_follows (hd : Descent.Follows t build descend) (place : Place) (hs : s.Ready t) :
    Follows t table (Build.expression build place) (Parse.expression descend place) s
      (Pushed table s.offset) :=
  chained_follows hs (operand_follows hd place hs) (binary_follows hd place)

/-! ## statements -/

theorem assignment_follows (hd : Descent.Follows t build descend) (place : Place) (hs : s.Ready t) :
    Follows t table (Build.assignment build place) (Parse.assignment descend place) s
      (Pushed table s.offset) := by
  -- the value and the node over it, whatever names are in sight
  have hvalue {node : Nat → Node Nat} {node' : Tree → Node Tree} {locals : List Text}
      (hnode : Single node' node) :
      Follows t table
        (do let value ← build .assignment place
            Build.push (node value) (s.current.span.join (← Build.spanOf value)))
        (do let value ← descend .assignment place
            return ⟨node' value, s.current.span.join value.span⟩)
        { s.advance.advance with locals := locals } (Pushed table s.offset) := by
    have hs₂ := hs.advance.advance
    refine (hd .assignment place _ _ (hs₂.locals locals)).bind fun value s' id table' hpasses _ hid => ?_
    have hpasses' : s.advance.advance.Passes s' := hpasses
    refine Follows.spanOf hid.stands (Follows.push_last (by simp [hnode.children_eq, hid.stands.lt_size])
      (Pushed.mk' (hnode.pushNode_eq hid.push) (hnode.isRun_eq _ _)
        (join_current hs ((passes_advance s).trans ((passes_advance _).trans hpasses')) _)))
  rw [Build.assignment, Parse.assignment]
  refine Follows.lookUp (current_eq hs) (Follows.lookUp (second_eq hs) (Follows.state ?_))
  split
  next name hk hassign =>
    try rw [hk, hassign]
    exact Follows.advance hs (Follows.advance hs.advance (Follows.declare (hvalue
      ⟨fun h => by simp only [pushNode, h], fun _ => rfl, fun _ _ => rfl⟩)))
  next hk hassign =>
    try rw [hk, hassign]
    exact Follows.advance hs (Follows.advance hs.advance (hvalue single_other))
  next hk hassign =>
    try rw [hk, hassign]
    exact Follows.advance hs (Follows.advance hs.advance (hvalue single_other))
  next hident hivar hconst =>
    try simp only
    exact expression_follows hd place hs

theorem statement_follows (hd : Descent.Follows t build descend) (place : Place) (hs : s.Ready t) :
    Follows t table (Build.statement build place) (Parse.statement descend place) s
      (Pushed table s.offset) :=
  chained_follows hs (assignment_follows hd place hs) (modifier_follows hd place)

/-! ## all phrases -/

theorem level_follows (hd : Descent.Follows t build descend) :
    Descent.Follows t (Build.level build) (Parse.level descend) := by
  intro phrase place s table hs
  cases phrase with
  | statement => exact statement_follows hd place hs
  | assignment => exact assignment_follows hd place hs
  | expression => exact expression_follows hd place hs
  | operand => exact operand_follows hd place hs
  | term => exact term_follows hd place hs
  | branch => exact branch_follows hd place hs

/-- every phrase of the program follows the phrase of the grammar, at every depth -/
theorem phrase_follows (t : Text) (depth : Nat) :
    Descent.Follows t (Build.phrase depth) (Parse.phrase depth) := by
  induction depth with
  | zero => exact fun phrase place s table hs => Follows.outOfSteps hs
  | succ depth ih => exact level_follows ih

end Build

end Collate
