import Collate.Proofs.Grammar.Statement
import Collate.Proofs.Twin.Body
import Collate.Proofs.Twin.Variable

/-!
# Expressions and statements of two runs

From atoms up to whole files.  The depth of the second run is bounded by the tokens it has ahead, and
that of the first one is left open: if it is used up, the first run fails and nothing is to be shown.
-/

namespace Collate

namespace Parse
open Cursor
variable {omitted : Nat → Bool} {descend descend' : Descent} {depth : Nat} {s s' : Cursor}

/-! ## atoms -/

theorem name_twin (hd : descend.Twins omitted depth descend') (place : Place) {name : Text}
    (hb : s.Beside omitted s') (hk : s.current.kind = .ident name) (hdepth : s'.ahead.length ≤ depth) :
    TreeTwin omitted s'.ahead.length (Parse.name descend place name) (Parse.name descend' place name)
      s s' := by
  have hb₁ := hb.advance (by rw [hk]; simp)
  have hlen := hb.length_advance (by rw [hk]; simp)
  unfold TreeTwin Parse.name
  refine Twin.step rfl rfl (Twin.step rfl rfl (Twin.step rfl rfl ?_))
  rw [hb₁.kind_eq, hb₁.spaceBefore_eq, ← hb₁.locals name]
  refine Twin.ite (fun _ => Twin.pure hb₁ ⟨by simp, hlen⟩) (fun _ => ?_)
  exact (call_twin hd place rfl hb₁ (by omega)).mono (fun _ _ _ h => ⟨h.1, by omega⟩)

theorem constant_twin (hd : descend.Twins omitted depth descend') (place : Place) {name : Text}
    (hb : s.Beside omitted s') (hk : s.current.kind = .const name) (hdepth : s'.ahead.length ≤ depth) :
    TreeTwin omitted s'.ahead.length (constant descend place name) (constant descend' place name)
      s s' := by
  have hb₁ := hb.advance (by rw [hk]; simp)
  have hlen := hb.length_advance (by rw [hk]; simp)
  unfold TreeTwin constant
  refine Twin.step rfl rfl (Twin.step rfl rfl ?_)
  rw [hb₁.kind_eq, hb₁.spaceBefore_eq]
  refine Twin.ite (fun _ => ?_) (fun _ => Twin.pure hb₁ ⟨by simp [Tree.leaf], hlen⟩)
  exact (call_twin hd place rfl hb₁ (by omega)).mono (fun _ _ _ h => ⟨h.1, by omega⟩)

theorem single_twin {node : Node Tree}
    (hnode : node.outline omitted = node.outline (fun _ => false)) (hb : s.Beside omitted s')
    (hk : s.current.kind ≠ .eof) (hlabel : ∀ name, s.current.kind ≠ .label name) :
    TreeTwin omitted s'.ahead.length (single node) (single node) s s' :=
  Twin.step rfl rfl (Twin.pure (hb.advance hlabel) ⟨by simp [hnode], hb.length_advance hk⟩)

theorem array_twin (hd : descend.Twins omitted depth descend') (hb : s.Beside omitted s')
    (hk : s.current.kind ≠ .eof) (hlabel : ∀ name, s.current.kind ≠ .label name)
    (hdepth : s'.ahead.length ≤ depth) :
    TreeTwin omitted s'.ahead.length (array descend) (array descend') s s' := by
  have hlen := hb.length_advance hk
  unfold TreeTwin array
  refine Twin.step rfl rfl (Twin.bind (arguments_twin hd .free _ (hb.advance hlabel) (by omega)) ?_ ?_)
  · exact fun items hspoiled => Returns.bind fun _ => Returns.pure (hspoiled.parent (List.Subset.refl _))
  · rintro items items' s₁ s₁' hb₁ ⟨hitems, hlen₁⟩
    refine Twin.expect hb₁ fun hclose => ?_
    have hlen₂ := hb₁.length_advance (by rw [hclose]; simp)
    exact Twin.pure (hb₁.advance (by rw [hclose]; simp)) ⟨by simp [hitems], by omega⟩

theorem parenthesized_twin (hd : descend.Twins omitted depth descend') (hb : s.Beside omitted s')
    (hk : s.current.kind ≠ .eof) (hlabel : ∀ name, s.current.kind ≠ .label name)
    (hdepth : s'.ahead.length ≤ depth) :
    TreeTwin omitted s'.ahead.length (parenthesized descend) (parenthesized descend') s s' := by
  have hlen := hb.length_advance hk
  unfold TreeTwin parenthesized
  refine Twin.step rfl rfl
    (Twin.bind (hd.reads .statement .free _ _ (hb.advance hlabel) (by omega) (by simp)) ?_ ?_)
  · exact fun inner hspoiled => Returns.bind fun _ =>
      Returns.pure (.child (List.mem_singleton_self _) hspoiled)
  · rintro inner inner' s₁ s₁' hb₁ ⟨hinner, hlen₁⟩
    refine Twin.expect hb₁ fun hclose => ?_
    have hlen₂ := hb₁.length_advance (by rw [hclose]; simp)
    exact Twin.pure (hb₁.advance (by rw [hclose]; simp)) ⟨by simp [hinner], by omega⟩

theorem atom_twin (hd : descend.Twins omitted depth descend') (place : Place)
    (hb : s.Beside omitted s') (hdepth : s'.ahead.length ≤ depth) :
    TreeTwin omitted s'.ahead.length (atom descend place) (atom descend' place) s s' := by
  unfold TreeTwin atom
  refine Twin.step rfl rfl ?_
  rw [hb.kind_eq]
  split
  next hk => exact name_twin hd place hb hk hdepth
  next hk => exact constant_twin hd place hb hk hdepth
  next hk => exact single_twin rfl hb (by rw [hk]; simp) (by rw [hk]; simp)
  next hk => exact single_twin rfl hb (by rw [hk]; simp) (by rw [hk]; simp)
  next hk => exact single_twin rfl hb (by rw [hk]; simp) (by rw [hk]; simp)
  next hk => exact single_twin rfl hb (by rw [hk]; simp) (by rw [hk]; simp)
  next hk => exact single_twin rfl hb (by rw [hk]; simp) (by rw [hk]; simp)
  next hk => exact single_twin rfl hb (by rw [hk]; simp) (by rw [hk]; simp)
  next hk => exact single_twin rfl hb (by rw [hk]; simp) (by rw [hk]; simp)
  next hk => exact single_twin rfl hb (by rw [hk]; simp) (by rw [hk]; simp)
  next hk => exact definition_twin hd place hb (by rw [hk]; simp) (by rw [hk]; simp) hdepth
  next hk => exact branch_twin hd place hb (by rw [hk]; simp) (by rw [hk]; simp) hdepth
  next hk => exact branch_twin hd place hb (by rw [hk]; simp) (by rw [hk]; simp) hdepth
  next hk => exact repetition_twin hd hb (by rw [hk]; simp) (by rw [hk]; simp) hdepth
  next hk => exact repetition_twin hd hb (by rw [hk]; simp) (by rw [hk]; simp) hdepth
  next hk => exact namespaced_twin hd place hb (by rw [hk]; simp) (by rw [hk]; simp) hdepth
  next hk => exact namespaced_twin hd place hb (by rw [hk]; simp) (by rw [hk]; simp) hdepth
  next hk => exact jump_twin hd hb (by rw [hk]; simp) (by rw [hk]; simp) hdepth
  next hk => exact jump_twin hd hb (by rw [hk]; simp) (by rw [hk]; simp) hdepth
  next hk => exact array_twin hd hb (by rw [hk]; simp) (by rw [hk]; simp) hdepth
  next hk => exact braced_twin hd hb hk hdepth
  next hk => exact parenthesized_twin hd hb (by rw [hk]; simp) (by rw [hk]; simp) hdepth
  next => exact Twin.failHere
  next => exact Twin.failHere

/-! ## terms -/

theorem methodName_twin (hb : s.Beside omitted s') :
    Twin omitted (fun _ => False) (fun a b s₁' => a.1 = b.1 ∧ s₁'.ahead.length < s'.ahead.length)
      methodName methodName s s' := by
  unfold methodName
  refine Twin.step rfl rfl ?_
  rw [hb.kind_eq]
  split
  next hk => exact Twin.pure (hb.advance (by rw [hk]; simp)) ⟨rfl, hb.length_advance (by rw [hk]; simp)⟩
  next hk => exact Twin.pure (hb.advance (by rw [hk]; simp)) ⟨rfl, hb.length_advance (by rw [hk]; simp)⟩
  next hk => exact Twin.pure (hb.advance (by rw [hk]; simp)) ⟨rfl, hb.length_advance (by rw [hk]; simp)⟩
  next => exact Twin.throw

theorem dotCall_twin (hd : descend.Twins omitted depth descend') (place : Place) {tree tree' : Tree}
    (htree : tree.outline omitted = tree'.bare) (hb : s.Beside omitted s')
    (hk : s.current.kind ≠ .eof) (hlabel : ∀ name, s.current.kind ≠ .label name)
    (hdepth : s'.ahead.length ≤ depth) :
    ExtendTwin omitted
      (do let _ ← advance
          let (method, selector) ← methodName
          return some (← call descend place (some tree) method selector))
      (do let _ ← advance
          let (method, selector) ← methodName
          return some (← call descend' place (some tree') method selector)) s s' := by
  have hlen := hb.length_advance hk
  refine Twin.step rfl rfl (Twin.bind (methodName_twin (hb.advance hlabel)) (by simp) ?_)
  rintro ⟨method, selector⟩ ⟨method', selector'⟩ s₁ s₁' hb₁ ⟨hmethod, hlen₁⟩
  obtain rfl : method = method' := hmethod
  refine Twin.bind (call_twin hd place (by simp [htree]) hb₁ (by omega)) ?_ ?_
  · exact fun longer hspoiled => Returns.pure ⟨longer, rfl, hspoiled⟩
  · rintro longer longer' s₂ s₂' hb₂ ⟨hlonger, hlen₂⟩
    exact Twin.pure hb₂ ⟨by simp [hlonger], by intro; omega, by omega⟩

theorem index_twin (hd : descend.Twins omitted depth descend') {tree tree' : Tree}
    (htree : tree.outline omitted = tree'.bare) (hb : s.Beside omitted s')
    (hk : s.current.kind ≠ .eof) (hlabel : ∀ name, s.current.kind ≠ .label name)
    (hdepth : s'.ahead.length ≤ depth) :
    ExtendTwin omitted
      (do let _ ← advance
          let items ← arguments descend .free (some .rightBracket)
          let closing ← expect .rightBracket "`]`"
          return some ⟨.other (tree :: items), tree.span.join closing.span⟩)
      (do let _ ← advance
          let items ← arguments descend' .free (some .rightBracket)
          let closing ← expect .rightBracket "`]`"
          return some ⟨.other (tree' :: items), tree'.span.join closing.span⟩) s s' := by
  have hlen := hb.length_advance hk
  refine Twin.step rfl rfl (Twin.bind (arguments_twin hd .free _ (hb.advance hlabel) (by omega)) ?_ ?_)
  · exact fun items hspoiled => Returns.bind fun _ =>
      Returns.pure ⟨_, rfl, hspoiled.parent (List.subset_cons_self _ _)⟩
  · rintro items items' s₁ s₁' hb₁ ⟨hitems, hlen₁⟩
    refine Twin.expect hb₁ fun hclose => ?_
    have hlen₂ := hb₁.length_advance (by rw [hclose]; simp)
    exact Twin.pure (hb₁.advance (by rw [hclose]; simp))
      ⟨by simp [htree, hitems], by intro; omega, by omega⟩

theorem access_twin (hd : descend.Twins omitted depth descend') (place : Place) {tree tree' : Tree}
    (htree : tree.outline omitted = tree'.bare) (hb : s.Beside omitted s')
    (hdepth : s'.ahead.length ≤ depth) :
    ExtendTwin omitted (access descend place tree) (access descend' place tree') s s' := by
  unfold ExtendTwin access
  refine Twin.step rfl rfl ?_
  rw [hb.kind_eq, hb.spaceBefore_eq]
  split
  next hk => exact dotCall_twin hd place htree hb (by rw [hk]; simp) (by rw [hk]; simp) hdepth
  next hk => exact dotCall_twin hd place htree hb (by rw [hk]; simp) (by rw [hk]; simp) hdepth
  next hk =>
    have hb₁ := hb.advance (by rw [hk]; simp)
    have hlen := hb.length_advance (by rw [hk]; simp)
    refine Twin.step rfl rfl (Twin.step rfl rfl ?_)
    rw [hb₁.kind_eq]
    have hlen₂ := s'.advance.length_advance_le
    split
    next hname =>
      exact Twin.pure (hb₁.advance (by rw [hname]; simp)) ⟨by simp [htree], by intro; omega, by omega⟩
    next hname =>
      exact Twin.pure (hb₁.advance (by rw [hname]; simp)) ⟨by simp [htree], by intro; omega, by omega⟩
    next => exact Twin.throw
  next hk _ => exact index_twin hd htree hb (by rw [hk]; simp) (by rw [hk]; simp) hdepth
  next => exact Twin.pure hb ⟨rfl, by simp, Nat.le_refl _⟩

theorem longer_spoiled {tree : Tree} {children : List Tree} {span : Span} (hmem : tree ∈ children)
    (h : tree.Spoiled omitted) :
    ∀ longer, some (⟨.other children, span⟩ : Tree) = some longer → longer.Spoiled omitted := by
  intro longer hlonger
  rw [← Option.some.inj hlonger]
  exact .child hmem h

theorem access_keeps (place : Place) : KeepsSpoiled omitted (access descend place) := by
  intro tree hspoiled
  have hcall : Returns (do
      let _ ← advance
      let (method, selector) ← methodName
      return some (← call descend place (some tree) method selector))
      (fun r => ∀ longer, r = some longer → longer.Spoiled omitted) := by
    refine Returns.bind fun _ => Returns.bind fun r => ?_
    intro s₁ r' s₃ hrun longer hlonger
    obtain ⟨whole, s₂, hwhole, hrest⟩ := bind_eq_ok_iff.mp hrun
    obtain ⟨rfl, -⟩ := Prod.mk.inj (Except.ok.inj hrest)
    rw [← Option.some.inj hlonger]
    exact call_spoiled place hspoiled s₁ whole s₂ hwhole
  refine Returns.bind fun token => ?_
  split
  · exact hcall
  · exact hcall
  · refine Returns.bind fun _ => Returns.bind fun name => ?_
    split
    · exact Returns.pure (longer_spoiled List.mem_cons_self hspoiled)
    · exact Returns.pure (longer_spoiled List.mem_cons_self hspoiled)
    · exact Returns.throw
  · exact Returns.bind fun _ => Returns.bind fun items => Returns.bind fun closing =>
      Returns.pure (longer_spoiled List.mem_cons_self hspoiled)
  · exact Returns.pure (fun longer h => nomatch h)

theorem term_twin (hd : descend.Twins omitted depth descend') (place : Place)
    (hb : s.Beside omitted s') (hdepth : s'.ahead.length ≤ depth) :
    TreeTwin omitted s'.ahead.length (term descend place) (term descend' place) s s' := by
  refine chained_twin (atom_twin hd place hb hdepth) (access_keeps place) ?_
  intro tree tree' s₁ s₁' htree hb₁ hlen
  exact access_twin hd place htree hb₁ (by omega)

/-! ## operators -/

theorem isLeading_ne_label {kind : Token.Kind} (h : isLeading kind = true) (name : Text) :
    kind ≠ .label name := by
  rintro rfl
  exact absurd h (by simp [isLeading])

theorem isBinary_ne_label {token : Token} (h : isBinary token = true) (name : Text) :
    token.kind ≠ .label name := by
  intro hk
  unfold isBinary at h
  rw [hk] at h
  exact absurd h (by simp)

theorem isBinary_eq (hb : s.Beside omitted s') : isBinary s'.current = isBinary s.current := by
  unfold isBinary
  rw [hb.kind_eq, hb.newlineBefore_eq]

theorem isAssigning_ne_label {kind : Token.Kind} (h : isAssigning kind = true) (name : Text) :
    kind ≠ .label name := by
  rintro rfl
  exact absurd h (by simp [isAssigning])

theorem operand_twin (hd : descend.Twins omitted depth descend') (place : Place)
    (hb : s.Beside omitted s') (hdepth : s'.ahead.length ≤ depth) :
    TreeTwin omitted s'.ahead.length (operand descend place) (operand descend' place) s s' := by
  unfold TreeTwin operand
  refine Twin.step rfl rfl ?_
  rw [hb.kind_eq]
  refine Twin.ite (fun h => ?_) (fun _ => term_twin hd place hb hdepth)
  have hb₁ := hb.advance (isLeading_ne_label h)
  have hlen := hb.length_advance (isLeading_ne_eof h)
  refine Twin.step rfl rfl (Twin.bind (hd.reads .operand place _ _ hb₁ (by omega) (by simp)) ?_ ?_)
  · exact fun inner hspoiled => Returns.pure (.child (List.mem_singleton_self _) hspoiled)
  · rintro inner inner' s₂ s₂' hb₂ ⟨hinner, hlen₂⟩
    exact Twin.pure hb₂ ⟨by simp [hinner], by omega⟩

theorem binary_twin (hd : descend.Twins omitted depth descend') (place : Place) {tree tree' : Tree}
    (htree : tree.outline omitted = tree'.bare) (hb : s.Beside omitted s')
    (hdepth : s'.ahead.length ≤ depth) :
    ExtendTwin omitted (binary descend place tree) (binary descend' place tree') s s' := by
  unfold ExtendTwin binary
  refine Twin.step rfl rfl ?_
  rw [isBinary_eq hb]
  refine Twin.ite (fun h => ?_) (fun _ => Twin.pure hb ⟨rfl, by simp, Nat.le_refl _⟩)
  have hb₁ := hb.advance (isBinary_ne_label h)
  have hlen := hb.length_advance (isBinary_ne_eof h)
  refine Twin.step rfl rfl (Twin.bind (operand_twin hd place hb₁ (by omega)) ?_ ?_)
  · exact fun right hspoiled => Returns.pure ⟨_, rfl, .child (by simp [Node.children]) hspoiled⟩
  · rintro right right' s₂ s₂' hb₂ ⟨hright, hlen₂⟩
    exact Twin.pure hb₂ ⟨by simp [htree, hright], by intro; omega, by omega⟩

theorem binary_keeps (place : Place) : KeepsSpoiled omitted (binary descend place) := by
  intro tree hspoiled
  refine Returns.bind fun token => Returns.ite ?_ (Returns.pure (fun longer h => nomatch h))
  exact Returns.bind fun _ => Returns.bind fun right =>
    Returns.pure (longer_spoiled List.mem_cons_self hspoiled)

theorem expression_twin (hd : descend.Twins omitted depth descend') (place : Place)
    (hb : s.Beside omitted s') (hdepth : s'.ahead.length ≤ depth) :
    TreeTwin omitted s'.ahead.length (expression descend place) (expression descend' place) s s' := by
  refine chained_twin (operand_twin hd place hb hdepth) (binary_keeps place) ?_
  intro tree tree' s₁ s₁' htree hb₁ hlen
  exact binary_twin hd place htree hb₁ (by omega)

/-! ## statements -/

theorem assigned_twin (hd : descend.Twins omitted depth descend') (place : Place)
    {build : Tree → Node Tree} {target target' : Span} {n : Nat}
    (hchildren : ∀ tree, (build tree).children = [tree])
    (hbuild : ∀ tree tree' : Tree, tree.outline omitted = tree'.bare →
      (build tree).outline omitted = (build tree').outline (fun _ => false))
    (hb : s.Beside omitted s') (hdepth : s'.ahead.length < depth) (hn : s'.ahead.length < n) :
    TreeTwin omitted n
      (do let value ← descend .assignment place
          return ⟨build value, target.join value.span⟩)
      (do let value ← descend' .assignment place
          return ⟨build value, target'.join value.span⟩) s s' := by
  refine Twin.bind (hd.reads .assignment place s s' hb hdepth (by simp)) ?_ ?_
  · exact fun value hspoiled => Returns.pure (.child (by rw [hchildren]; simp) hspoiled)
  · rintro value value' s₁ s₁' hb₁ ⟨hvalue, hlen⟩
    exact Twin.pure hb₁ ⟨by simp [hbuild value value' hvalue], by omega⟩

/-- an assignment begins at both cursors or at neither; the token behind a label does not matter -/
theorem assigns_eq (hb : s.Beside omitted s') :
    (∃ name, s.current.kind = .label name) ∨
      isAssigning s'.second.kind = isAssigning s.second.kind := by
  by_cases hlabel : ∃ name, s.current.kind = .label name
  · exact .inl hlabel
  · exact .inr (by rw [(hb.second_like (fun name hk => hlabel ⟨name, hk⟩)).kind])

theorem assignment_twin (hd : descend.Twins omitted depth descend') (place : Place)
    (hb : s.Beside omitted s') (hdepth : s'.ahead.length ≤ depth) :
    TreeTwin omitted s'.ahead.length (assignment descend place) (assignment descend' place) s s' := by
  have hexpression := expression_twin hd place hb hdepth
  unfold TreeTwin assignment
  refine Twin.step rfl rfl ?_
  rw [hb.kind_eq]
  rcases assigns_eq hb with ⟨name, hk⟩ | hassigns
  · rw [hk]
    exact hexpression
  · rw [hassigns]
    split
    next name hk hassign =>
      have hb₁ := hb.advance (by rw [hk]; simp)
      have hlen := hb.length_advance (by rw [hk]; simp)
      have hb₂ := hb₁.advance (isAssigning_ne_label hassign)
      have hlen₂ := s'.advance.length_advance_le
      refine Twin.step rfl rfl (Twin.step rfl rfl (Twin.step (declare_run name _) (declare_run name _) ?_))
      refine assigned_twin hd place (fun _ => rfl) (by intros; simp [*]) (hb₂.declare name) ?_ ?_
      · show s'.advance.advance.ahead.length < depth
        omega
      · show s'.advance.advance.ahead.length < s'.ahead.length
        omega
    next hk hassign =>
      have hb₁ := hb.advance (by rw [hk]; simp)
      have hlen := hb.length_advance (by rw [hk]; simp)
      have hb₂ := hb₁.advance (isAssigning_ne_label hassign)
      have hlen₂ := s'.advance.length_advance_le
      exact Twin.step rfl rfl (Twin.step rfl rfl
        (assigned_twin hd place (fun _ => rfl) (by intros; simp [*]) hb₂ (by omega) (by omega)))
    next hk hassign =>
      have hb₁ := hb.advance (by rw [hk]; simp)
      have hlen := hb.length_advance (by rw [hk]; simp)
      have hb₂ := hb₁.advance (isAssigning_ne_label hassign)
      have hlen₂ := s'.advance.length_advance_le
      exact Twin.step rfl rfl (Twin.step rfl rfl
        (assigned_twin hd place (fun _ => rfl) (by intros; simp [*]) hb₂ (by omega) (by omega)))
    next => exact hexpression

theorem statement_twin (hd : descend.Twins omitted depth descend') (place : Place)
    (hb : s.Beside omitted s') (hdepth : s'.ahead.length ≤ depth) :
    TreeTwin omitted s'.ahead.length (statement descend place) (statement descend' place) s s' := by
  refine chained_twin (assignment_twin hd place hb hdepth) (modifier_keeps place) ?_
  intro tree tree' s₁ s₁' htree hb₁ hlen
  exact modifier_twin hd place htree hb₁ (by omega)

/-! ## all phrases -/

theorem level_twins (hd : descend.Twins omitted depth descend') :
    (level descend).Twins omitted (depth + 1) (level descend') where
  reads := by
    intro phrase place s s' hb hlen hbranch
    have hdepth : s'.ahead.length ≤ depth := by omega
    cases phrase with
    | statement => exact statement_twin hd place hb hdepth
    | assignment => exact assignment_twin hd place hb hdepth
    | expression => exact expression_twin hd place hb hdepth
    | operand => exact operand_twin hd place hb hdepth
    | term => exact term_twin hd place hb hdepth
    | branch =>
      obtain ⟨word, hk⟩ := hbranch rfl
      exact branch_twin hd place hb (by rw [hk]; simp) (by rw [hk]; simp) hdepth
  variable_alone := fun place s tree s₁ name hrun hname => expression_alone tree s₁ name hrun hname

theorem phrase_twins (n : Nat) : ∀ depth, (phrase n).Twins omitted depth (phrase depth) := by
  induction n with
  | zero =>
    intro depth
    refine ⟨fun phrase place s s' _ _ _ => Twin.outOfSteps, ?_⟩
    intro place s tree s₁ name hrun
    exact nomatch hrun
  | succ n ih =>
    intro depth
    cases depth with
    | zero =>
      refine ⟨fun phrase place s s' _ hlen _ => absurd hlen (Nat.not_lt_zero _), ?_⟩
      exact fun place s tree s₁ name hrun hname => expression_alone tree s₁ name hrun hname
    | succ depth => exact level_twins (ih depth)

/-- The second text is read when the first one is, to statements of the same outlines. -/
theorem program_twin (hb : s.Beside omitted s') :
    ListTwin omitted (s'.ahead.length + 1) program program s s' := by
  unfold ListTwin program
  refine Twin.step rfl rfl
    (Twin.bind (statements_twin (phrase_twins _ _) .free _ hb (Nat.lt_succ_self _)) ?_ ?_)
  · exact fun body hspoiled => Returns.bind fun kind => Returns.ite (Returns.pure hspoiled) Returns.failHere
  · rintro body body' s₁ s₁' hb₁ hbody
    refine Twin.step rfl rfl ?_
    rw [hb₁.kind_eq]
    exact Twin.ite (fun _ => Twin.pure hb₁ hbody) (fun _ => Twin.failHere)

end Parse

end Collate
