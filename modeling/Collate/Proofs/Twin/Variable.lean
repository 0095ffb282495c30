import Collate.Grammar.Statement
import Collate.Proofs.Twin.Basic

/-!
# Local variables stand alone

An expression whose tree is a local variable was read from that name alone: whatever extends a name, be
it an argument, a block, an index or an operator, gives a tree of another kind.
-/

namespace Collate

def Tree.Compound (tree : Tree) : Prop :=
  ∀ name, tree.node ≠ .localVariable name

namespace Parse
variable {descend : Descent} {place : Place} {s : Cursor}

/-! ## constructs that are no variables -/

theorem blockRest_compound {closer : Token.Kind} {wanted : String} {owner : Tree} :
    Returns (blockRest descend closer wanted owner) Tree.Compound := by
  refine Returns.bind fun _ => Returns.withinScope (Returns.bind fun pipe => ?_)
  have hrest {params : List Tree} : Returns
      (do let body ← statements descend .free (fun kind => decide (kind = closer))
          let closing ← expect closer wanted
          return ⟨.block owner params body, owner.span.join closing.span⟩) Tree.Compound :=
    Returns.bind fun _ => Returns.bind fun _ => Returns.pure (fun _ => by simp [Tree.node])
  exact Returns.ite (Returns.bind fun params => Returns.bind fun _ => hrest) hrest

theorem call_compound {receiver : Option Tree} {method : Text} {selector : Span} :
    Returns (call descend place receiver method selector) Tree.Compound := by
  refine Returns.bind fun r => Returns.bind fun token => Returns.ite ?_ ?_
  · exact Returns.pure (fun _ => by simp [Tree.node])
  · split
    · exact blockRest_compound
    · exact blockRest_compound
    · exact Returns.pure (fun _ => by simp [Tree.node])

theorem definition_compound : Returns (definition descend place) Tree.Compound := by
  refine Returns.bind fun keyword => Returns.bind fun receiver => Returns.bind fun name => ?_
  refine Returns.withinScope (Returns.bind fun params => Returns.bind fun assign => Returns.ite ?_ ?_)
  · exact Returns.bind fun body => Returns.pure (fun _ => by simp [Tree.node])
  · exact Returns.bind fun body => Returns.bind fun closing =>
      Returns.pure (fun _ => by simp [Tree.node])

theorem namespaced_compound : Returns (namespaced descend place) Tree.Compound :=
  Returns.bind fun _ => Returns.bind fun _ => Returns.bind fun _ => Returns.bind fun _ =>
    Returns.bind fun _ => Returns.pure (fun _ => by simp [Tree.node])

theorem branch_compound : Returns (branch descend place) Tree.Compound :=
  Returns.bind fun _ => Returns.bind fun _ => Returns.bind fun _ => Returns.bind fun _ =>
    Returns.bind fun _ => Returns.pure (fun _ => by simp [Tree.node])

theorem repetition_compound : Returns (repetition descend) Tree.Compound :=
  Returns.bind fun _ => Returns.bind fun _ => Returns.bind fun _ => Returns.bind fun _ =>
    Returns.bind fun _ => Returns.pure (fun _ => by simp [Tree.node])

theorem jump_compound : Returns (jump descend) Tree.Compound :=
  Returns.bind fun _ => Returns.bind fun _ => Returns.pure (fun _ => by simp [Tree.node])

theorem array_compound : Returns (array descend) Tree.Compound :=
  Returns.bind fun _ => Returns.bind fun _ => Returns.bind fun _ =>
    Returns.pure (fun _ => by simp [Tree.node])

theorem parenthesized_compound : Returns (parenthesized descend) Tree.Compound :=
  Returns.bind fun _ => Returns.bind fun _ => Returns.bind fun _ =>
    Returns.pure (fun _ => by simp [Tree.node])

theorem braced_compound : Returns (braced descend) Tree.Compound := by
  refine Returns.bind fun opening => Returns.bind fun empty => Returns.ite ?_ ?_
  · exact Returns.bind fun _ => Returns.bind fun _ => Returns.pure (fun _ => by simp [Tree.node])
  · exact Returns.bind fun _ => Returns.bind fun _ => Returns.pure (fun _ => by simp [Tree.node])

theorem constant_compound {text : Text} : Returns (constant descend place text) Tree.Compound :=
  Returns.bind fun _ => Returns.bind fun _ =>
    Returns.ite call_compound (Returns.pure (fun _ => by simp [Tree.leaf, Tree.node]))

theorem single_compound {node : Node Tree} (h : ∀ name, node ≠ .localVariable name) :
    Returns (single node) Tree.Compound :=
  Returns.bind fun _ => Returns.pure h

/-! ## names alone -/

/-- if the reader gives a local variable, it took one token -/
def Alone (p : Parse Tree) (s : Cursor) : Prop :=
  ∀ tree s₁ name, p s = .ok (tree, s₁) → tree.node = .localVariable name → s₁ = s.advance

theorem Alone.of_compound {p : Parse Tree} (h : Returns p Tree.Compound) : Alone p s :=
  fun tree s₁ name hrun hname => absurd hname (h s tree s₁ hrun name)

theorem Alone.look {α : Type} {p : Parse α} {f : α → Parse Tree} {a : α} (hp : p s = .ok (a, s))
    (h : Alone (f a) s) : Alone (p >>= f) s := by
  intro tree s₂ name hrun hname
  obtain ⟨b, s₁, hb, hf⟩ := bind_eq_ok_iff.mp hrun
  obtain ⟨rfl, rfl⟩ := Prod.mk.inj (Except.ok.inj (hp.symm.trans hb))
  exact h tree s₂ name hf hname

theorem name_alone (text : Text) : Alone (Parse.name descend place text) s := by
  intro tree s₁ name hrun hname
  change (if _ then _ else _ : Parse Tree) s.advance = _ at hrun
  split at hrun
  · rw [← (Prod.mk.inj (Except.ok.inj hrun)).2]
  · exact absurd hname (call_compound _ _ _ hrun name)

theorem atom_alone : Alone (atom descend place) s := by
  unfold atom
  refine Alone.look rfl ?_
  split
  · exact name_alone _
  · exact .of_compound constant_compound
  · exact .of_compound (single_compound (by simp))
  · exact .of_compound (single_compound (by simp))
  · exact .of_compound (single_compound (by simp))
  · exact .of_compound (single_compound (by simp))
  · exact .of_compound (single_compound (by simp))
  · exact .of_compound (single_compound (by simp))
  · exact .of_compound (single_compound (by simp))
  · exact .of_compound (single_compound (by simp))
  · exact .of_compound definition_compound
  · exact .of_compound branch_compound
  · exact .of_compound branch_compound
  · exact .of_compound repetition_compound
  · exact .of_compound repetition_compound
  · exact .of_compound namespaced_compound
  · exact .of_compound namespaced_compound
  · exact .of_compound jump_compound
  · exact .of_compound jump_compound
  · exact .of_compound array_compound
  · exact .of_compound braced_compound
  · exact .of_compound parenthesized_compound
  · exact .of_compound Returns.failHere
  · exact .of_compound Returns.failHere

/-! ## what extends a tree -/

/-- Nothing extends the tree and no token is taken, or what extends it is no local variable. -/
def Extending (p : Parse (Option Tree)) (s : Cursor) : Prop :=
  ∀ r s₁, p s = .ok (r, s₁) → (r = none ∧ s₁ = s) ∨ ∃ longer, r = some longer ∧ longer.Compound

theorem Extending.look {α : Type} {p : Parse α} {f : α → Parse (Option Tree)} {a : α}
    (hp : p s = .ok (a, s)) (h : Extending (f a) s) : Extending (p >>= f) s := by
  intro r s₂ hrun
  obtain ⟨b, s₁, hb, hf⟩ := bind_eq_ok_iff.mp hrun
  obtain ⟨rfl, rfl⟩ := Prod.mk.inj (Except.ok.inj (hp.symm.trans hb))
  exact h r s₂ hf

theorem Extending.nothing : Extending (pure none) s := by
  intro r s₁ hrun
  obtain ⟨rfl, rfl⟩ := Prod.mk.inj (Except.ok.inj hrun)
  exact .inl ⟨rfl, rfl⟩

theorem Extending.of_longer {p : Parse (Option Tree)}
    (h : Returns p (fun r => ∃ longer, r = some longer ∧ longer.Compound)) : Extending p s :=
  fun r s₁ hrun => .inr (h s r s₁ hrun)

theorem chainedIn_alone {extend : Tree → Parse (Option Tree)}
    (h : ∀ tree s, Extending (extend tree) s) (n : Nat) :
    ∀ {tree tree' : Tree} {s s₁ : Cursor} {name : Text}, chainedIn extend n tree s = .ok (tree', s₁) →
      tree'.node = .localVariable name → tree' = tree ∧ s₁ = s := by
  induction n with
  | zero =>
    intro tree tree' s s₁ name hrun
    exact nomatch hrun
  | succ n ih =>
    intro tree tree' s s₂ name hrun hname
    unfold chainedIn at hrun
    obtain ⟨r, s₁, hextend, hrest⟩ := bind_eq_ok_iff.mp hrun
    rcases h tree s r s₁ hextend with ⟨rfl, rfl⟩ | ⟨longer, rfl, hlonger⟩
    · obtain ⟨rfl, rfl⟩ := Prod.mk.inj (Except.ok.inj hrest)
      exact ⟨rfl, rfl⟩
    · obtain ⟨rfl, -⟩ := ih hrest hname
      exact absurd hname (hlonger name)

theorem chained_alone {p : Parse Tree} {extend : Tree → Parse (Option Tree)} (hp : Alone p s)
    (h : ∀ tree s, Extending (extend tree) s) : Alone (do chained extend (← p)) s := by
  intro tree s₂ name hrun hname
  obtain ⟨first, s₁, hfirst, hrest⟩ := bind_eq_ok_iff.mp hrun
  obtain ⟨rfl, rfl⟩ := chainedIn_alone h _ (show chainedIn extend _ first s₁ = _ from hrest) hname
  exact hp _ _ name hfirst hname

theorem Returns.longer {p : Parse Tree} (h : Returns p Tree.Compound) :
    Returns (do return some (← p)) (fun r => ∃ longer, r = some longer ∧ longer.Compound) := by
  intro s r s₂ hrun
  obtain ⟨tree, s₁, hp, hrest⟩ := bind_eq_ok_iff.mp hrun
  obtain ⟨rfl, -⟩ := Prod.mk.inj (Except.ok.inj hrest)
  exact ⟨tree, rfl, h s tree s₁ hp⟩

theorem other_compound (children : List Tree) (span : Span) :
    ∃ longer : Tree, some (⟨.other children, span⟩ : Tree) = some longer ∧ longer.Compound :=
  ⟨_, rfl, fun _ => by simp [Tree.node]⟩

theorem access_extending (tree : Tree) : Extending (access descend place tree) s := by
  unfold access
  refine Extending.look rfl ?_
  split
  · exact .of_longer (Returns.bind fun _ => Returns.bind fun _ => Returns.longer call_compound)
  · exact .of_longer (Returns.bind fun _ => Returns.bind fun _ => Returns.longer call_compound)
  · refine .of_longer (Returns.bind fun _ => Returns.bind fun name => ?_)
    split
    · exact Returns.pure (other_compound _ _)
    · exact Returns.pure (other_compound _ _)
    · exact Returns.throw
  · refine .of_longer (Returns.bind fun _ => Returns.bind fun items => Returns.bind fun closing => ?_)
    exact Returns.pure (other_compound _ _)
  · exact Extending.nothing

theorem binary_extending (tree : Tree) : Extending (binary descend place tree) s := by
  unfold binary
  refine Extending.look rfl ?_
  split
  · refine .of_longer (Returns.bind fun _ => Returns.bind fun right => ?_)
    exact Returns.pure (other_compound _ _)
  · exact Extending.nothing

theorem operand_alone : Alone (operand descend place) s := by
  unfold operand
  refine Alone.look rfl ?_
  split
  · exact .of_compound (Returns.bind fun _ => Returns.bind fun _ =>
      Returns.pure (fun _ => by simp [Tree.node]))
  · exact chained_alone atom_alone (fun tree _ => access_extending tree)

theorem expression_alone : Alone (expression descend place) s :=
  chained_alone operand_alone (fun tree _ => binary_extending tree)

end Parse

end Collate
