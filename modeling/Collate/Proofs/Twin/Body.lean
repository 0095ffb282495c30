import Collate.Grammar.Control
import Collate.Grammar.Definition
import Collate.Proofs.Grammar.Body
import Collate.Proofs.Twin.Call

/-!
# Constructs with bodies of two runs

Definitions, classes, conditionals and loops.  Their reserved words are no labels, so that both runs
take the same tokens outside of the phrases inside.
-/

namespace Collate

namespace Parse
open Cursor
variable {omitted : Nat → Bool} {descend descend' : Descent} {depth : Nat} {s s' : Cursor}

/-! ## definitions -/

theorem singleton_twin (hb : s.Beside omitted s') :
    Twin omitted (fun _ => False)
      (fun r r' s₁' => r.map (Tree.outline omitted) = r'.map Tree.bare ∧
        s₁'.ahead.length ≤ s'.ahead.length) singleton singleton s s' := by
  unfold singleton
  refine Twin.step rfl rfl ?_
  rw [hb.kind_eq]
  by_cases hself : s.current.kind = .keyword .self_
  · rw [← (hb.second_like (by rw [hself]; simp)).kind]
    refine Twin.ite (fun h => ?_) (fun _ => Twin.pure hb ⟨rfl, Nat.le_refl _⟩)
    have hdot : s.advance.current.kind = .dot := h.2
    have hb₁ := hb.advance (by rw [hself]; simp)
    have hb₂ := hb₁.advance (by rw [hdot]; simp)
    have hlen := s'.length_advance_le
    have hlen₂ := s'.advance.length_advance_le
    exact Twin.step rfl rfl (Twin.step rfl rfl (Twin.pure hb₂ ⟨by simp [Tree.leaf], by omega⟩))
  · rw [if_neg (fun h => hself h.1), if_neg (fun h => hself h.1)]
    exact Twin.pure hb ⟨rfl, Nat.le_refl _⟩

theorem definedNameRest_twin (name : Text) {n : Nat} (hb : s.Beside omitted s')
    (hn : s'.ahead.length < n) :
    Twin omitted (fun _ => False) (fun a b s₁' => a = b ∧ s₁'.ahead.length < n)
      (do let s ← get
          if s.current.kind = .assign ∧ s.current.spaceBefore = false ∧ s.second.kind = .leftParen then
            let _ ← advance
            return name ++ ['=']
          else
            return name)
      (do let s ← get
          if s.current.kind = .assign ∧ s.current.spaceBefore = false ∧ s.second.kind = .leftParen then
            let _ ← advance
            return name ++ ['=']
          else
            return name) s s' := by
  refine Twin.step rfl rfl ?_
  rw [hb.kind_eq, hb.spaceBefore_eq]
  by_cases hassign : s.current.kind = .assign
  · have hlen := hb.length_advance (by rw [hassign]; simp)
    rw [← (hb.second_like (by rw [hassign]; simp)).kind]
    refine Twin.ite (fun _ => ?_) (fun _ => Twin.pure hb ⟨rfl, hn⟩)
    exact Twin.step rfl rfl (Twin.pure (hb.advance (by rw [hassign]; simp)) ⟨rfl, by omega⟩)
  · rw [if_neg (fun h => hassign h.1), if_neg (fun h => hassign h.1)]
    exact Twin.pure hb ⟨rfl, hn⟩

theorem definedName_twin (hb : s.Beside omitted s') :
    Twin omitted (fun _ => False) (fun a b s₁' => a = b ∧ s₁'.ahead.length < s'.ahead.length)
      definedName definedName s s' := by
  unfold definedName
  refine Twin.step rfl rfl ?_
  rw [hb.kind_eq]
  dsimp only
  have hrest (name : Text) (hk : s.current.kind ≠ .eof) (hlabel : ∀ name, s.current.kind ≠ .label name) :=
    definedNameRest_twin name (hb.advance hlabel) (hb.length_advance hk)
  split
  next hk => exact hrest _ (by rw [hk]; simp) (by rw [hk]; simp)
  next hk => exact hrest _ (by rw [hk]; simp) (by rw [hk]; simp)
  next hk => exact hrest _ (by rw [hk]; simp) (by rw [hk]; simp)
  next hk => exact hrest _ (by rw [hk]; simp) (by rw [hk]; simp)
  next =>
    intro a s₁ hrun
    exact nomatch hrun

theorem signature_twin (hd : descend.Twins omitted depth descend') (place : Place)
    (hb : s.Beside omitted s') (hdepth : s'.ahead.length < depth) :
    ListTwin omitted (s'.ahead.length + 1) (signature descend place) (signature descend' place) s s' := by
  unfold ListTwin signature
  refine Twin.step rfl rfl ?_
  rw [hb.kind_eq]
  refine Twin.ite (fun hparen => ?_) (fun _ => ?_)
  · have hk := of_decide_eq_true hparen
    have hb₁ := hb.advance (by rw [hk]; simp)
    have hlen := hb.length_advance (by rw [hk]; simp)
    refine Twin.step rfl rfl (Twin.bind (parameters_twin hd .free _ hb₁ (by omega)) ?_ ?_)
    · exact fun params hspoiled => Returns.bind fun _ => Returns.pure hspoiled
    · rintro params params' s₂ s₂' hb₂ ⟨hparams, hlen₂⟩
      refine Twin.expect hb₂ fun hclose => ?_
      have hlen₃ := hb₂.length_advance (by rw [hclose]; simp)
      exact Twin.pure (hb₂.advance (by rw [hclose]; simp)) ⟨hparams, by omega⟩
  · refine Twin.step rfl rfl (Twin.step rfl rfl ?_)
    rw [hb.kind_eq, hb.newlineBefore_eq]
    exact Twin.ite (fun _ => parameters_twin hd place none hb hdepth)
      (fun _ => Twin.pure hb ⟨rfl, by omega⟩)

/-- a definition behind its parameters: a body of one kind or the other -/
theorem definedBody_twin (hd : descend.Twins omitted depth descend') (place : Place) {name : Text}
    {receiver receiver' : Option Tree} {params params' : List Tree} {keyword keyword' : Span} {n : Nat}
    (hb : s.Beside omitted s') (hdepth : s'.ahead.length < depth) (hn : s'.ahead.length < n) :
    Twin omitted (Tree.Spoiled omitted)
      (fun a b s₁' => (∃ body body', a.node = .definition keyword name receiver params body ∧
        b.node = .definition keyword' name receiver' params' body' ∧
        body.map (Tree.outline omitted) = body'.map Tree.bare) ∧ s₁'.ahead.length < n)
      (do if ← eat .assign then
            let body ← descend .statement place
            return ⟨.definition keyword name receiver params [body], keyword.join body.span⟩
          else
            let body ← statements descend .free isEnd
            let closing ← expectWord .end_
            return ⟨.definition keyword name receiver params body, keyword.join closing.span⟩ : Parse Tree)
      (do if ← eat .assign then
            let body ← descend' .statement place
            return ⟨.definition keyword' name receiver' params' [body], keyword'.join body.span⟩
          else
            let body ← statements descend' .free isEnd
            let closing ← expectWord .end_
            return ⟨.definition keyword' name receiver' params' body, keyword'.join closing.span⟩ : Parse Tree)
      s s' := by
  refine Twin.eat hb (fun hassign => ?_) (fun _ => ?_)
  · have hb₁ := hb.advance (by rw [hassign]; simp)
    have hlen := hb.length_advance (by rw [hassign]; simp)
    refine Twin.bind (hd.reads .statement place _ _ hb₁ (by omega) (by simp)) ?_ ?_
    · exact fun body hspoiled => Returns.pure (.child (by simp [Node.children]) hspoiled)
    · rintro body body' s₂ s₂' hb₂ ⟨hbody, hlen₂⟩
      exact Twin.pure hb₂ ⟨⟨_, _, rfl, rfl, by simp [hbody]⟩, by omega⟩
  · refine Twin.bind (statements_twin hd .free isEnd hb (by omega)) ?_ ?_
    · exact fun body hspoiled => Returns.bind fun closing =>
        Returns.pure (hspoiled.parent (by simp [Node.children]))
    · rintro body body' s₂ s₂' hb₂ ⟨hbody, hlen₂⟩
      refine Twin.expect hb₂ fun hclose => ?_
      have hlen₃ := hb₂.length_advance (by rw [hclose]; simp)
      exact Twin.pure (hb₂.advance (by rw [hclose]; simp)) ⟨⟨_, _, rfl, rfl, hbody⟩, by omega⟩

/-- a definition behind its name: the parameters and the body -/
theorem definitionRest_twin (hd : descend.Twins omitted depth descend') (place : Place) {name : Text}
    {receiver receiver' : Option Tree} {keyword keyword' : Span} {n : Nat}
    (hreceiver : receiver.map (Tree.outline omitted) = receiver'.map Tree.bare)
    (hb : s.Beside omitted s') (hdepth : s'.ahead.length < depth) (hn : s'.ahead.length < n) :
    TreeTwin omitted n
      (do let params ← signature descend place
          if ← eat .assign then
            let body ← descend .statement place
            return ⟨.definition keyword name receiver params [body], keyword.join body.span⟩
          else
            let body ← statements descend .free isEnd
            let closing ← expectWord .end_
            return ⟨.definition keyword name receiver params body, keyword.join closing.span⟩)
      (do let params ← signature descend' place
          if ← eat .assign then
            let body ← descend' .statement place
            return ⟨.definition keyword' name receiver' params [body], keyword'.join body.span⟩
          else
            let body ← statements descend' .free isEnd
            let closing ← expectWord .end_
            return ⟨.definition keyword' name receiver' params body, keyword'.join closing.span⟩)
      s s' := by
  refine Twin.bind (signature_twin hd place hb hdepth) ?_ ?_
  · intro params hspoiled
    refine Returns.bind fun assign => Returns.ite ?_ ?_
    · exact Returns.bind fun body => Returns.pure (hspoiled.parent (by simp [Node.children]))
    · exact Returns.bind fun body => Returns.bind fun closing =>
        Returns.pure (hspoiled.parent (by simp [Node.children]))
  · rintro params params' s₁ s₁' hb₁ ⟨hparams, hlen⟩
    refine (definedBody_twin hd place hb₁ (by omega) (Nat.lt_succ_self _)).mono ?_
    rintro ⟨node, span⟩ ⟨node', span'⟩ s₂' ⟨⟨body, body', rfl, rfl, hbody⟩, hlen₂⟩
    exact ⟨by simp [hreceiver, hparams, hbody], by omega⟩

theorem definition_twin (hd : descend.Twins omitted depth descend') (place : Place)
    (hb : s.Beside omitted s') (hk : s.current.kind ≠ .eof)
    (hlabel : ∀ name, s.current.kind ≠ .label name) (hdepth : s'.ahead.length ≤ depth) :
    TreeTwin omitted s'.ahead.length (definition descend place) (definition descend' place) s s' := by
  have hb₁ := hb.advance hlabel
  have hlen := hb.length_advance hk
  unfold TreeTwin definition
  refine Twin.step rfl rfl (Twin.bind (singleton_twin hb₁) (by simp) ?_)
  rintro receiver receiver' s₂ s₂' hb₂ ⟨hreceiver, hlen₂⟩
  refine Twin.bind (definedName_twin hb₂) (by simp) ?_
  rintro name name' s₃ s₃' hb₃ ⟨rfl, hlen₃⟩
  refine Twin.withinScope hb₃.locals (fun _ _ _ _ h => h) ?_
  rw [if_pos rfl, if_pos rfl]
  have hdepth₃ : ({ s₃' with locals := [] } : Cursor).ahead.length < depth := by
    show s₃'.ahead.length < depth
    omega
  exact definitionRest_twin hd place hreceiver (hb₃.withLocals fun _ => rfl) hdepth₃
    (by show s₃'.ahead.length < s'.ahead.length; omega)

/-! ## classes and modules -/

theorem superclass_twin (hd : descend.Twins omitted depth descend') (place : Place)
    {keyword keyword' : Token} (hkeyword : keyword'.kind = keyword.kind) (hb : s.Beside omitted s')
    (hdepth : s'.ahead.length < depth) :
    ListTwin omitted (s'.ahead.length + 1) (superclass descend place keyword)
      (superclass descend' place keyword') s s' := by
  unfold ListTwin superclass
  refine Twin.step rfl rfl ?_
  rw [hb.kind_eq, hkeyword]
  refine Twin.ite (fun h => ?_) (fun _ => Twin.pure hb ⟨rfl, by omega⟩)
  have hb₁ := hb.advance (by rw [h.2]; simp)
  have hlen := hb.length_advance (by rw [h.2]; simp)
  refine Twin.step rfl rfl (Twin.bind (hd.reads .expression place _ _ hb₁ (by omega) (by simp)) ?_ ?_)
  · exact fun parent hspoiled => Returns.pure ⟨parent, List.mem_singleton_self _, hspoiled⟩
  · rintro parent parent' s₂ s₂' hb₂ ⟨hparent, hlen₂⟩
    exact Twin.pure hb₂ ⟨by simp [hparent], by omega⟩

theorem closedStatements_twin (hd : descend.Twins omitted depth descend') (stop : Token.Kind → Bool)
    (hb : s.Beside omitted s') (hdepth : s'.ahead.length < depth) :
    ListTwin omitted (s'.ahead.length + 1) (withinScope .closed (statements descend .free stop))
      (withinScope .closed (statements descend' .free stop)) s s' := by
  refine Twin.withinScope hb.locals (fun _ _ _ _ h => h) ?_
  rw [if_pos rfl, if_pos rfl]
  exact statements_twin hd .free stop (hb.withLocals fun _ => rfl) hdepth

theorem namespaced_twin (hd : descend.Twins omitted depth descend') (place : Place)
    (hb : s.Beside omitted s') (hk : s.current.kind ≠ .eof)
    (hlabel : ∀ name, s.current.kind ≠ .label name) (hdepth : s'.ahead.length ≤ depth) :
    TreeTwin omitted s'.ahead.length (namespaced descend place) (namespaced descend' place) s s' := by
  have hb₁ := hb.advance hlabel
  have hlen := hb.length_advance hk
  unfold TreeTwin namespaced
  refine Twin.step rfl rfl (Twin.bind (hd.reads .term place _ _ hb₁ (by omega) (by simp)) ?_ ?_)
  · exact fun name hspoiled => Returns.bind fun _ => Returns.bind fun _ => Returns.bind fun _ =>
      Returns.pure (.child List.mem_cons_self hspoiled)
  rintro name name' s₂ s₂' hb₂ ⟨hname, hlen₂⟩
  refine Twin.bind (superclass_twin hd place hb.kind_eq hb₂ (by omega)) ?_ ?_
  · exact fun parents hspoiled => Returns.bind fun _ => Returns.bind fun _ =>
      Returns.pure (hspoiled.parent (by simp [Node.children]))
  rintro parents parents' s₃ s₃' hb₃ ⟨hparents, hlen₃⟩
  refine Twin.bind (closedStatements_twin hd isEnd hb₃ (by omega)) ?_ ?_
  · exact fun body hspoiled => Returns.bind fun _ =>
      Returns.pure (hspoiled.parent (by simp [Node.children]))
  rintro body body' s₄ s₄' hb₄ ⟨hbody, hlen₄⟩
  refine Twin.expect hb₄ fun hclose => ?_
  have hlen₅ := hb₄.length_advance (by rw [hclose]; simp)
  exact Twin.pure (hb₄.advance (by rw [hclose]; simp)) ⟨by simp [hname, hparents, hbody], by omega⟩

/-! ## conditionals -/

theorem alternativeRest_twin {body body' : List Tree} {n : Nat}
    (hbody : body.map (Tree.outline omitted) = body'.map Tree.bare) (hb : s.Beside omitted s')
    (hn : s'.ahead.length < n) :
    SuppliedTwin omitted n
      (do let closing ← expectWord .end_
          return (body, closing.span.stop))
      (do let closing ← expectWord .end_
          return (body', closing.span.stop)) s s' := by
  refine Twin.expect hb fun hclose => ?_
  have hlen := hb.length_advance (by rw [hclose]; simp)
  exact Twin.pure (hb.advance (by rw [hclose]; simp)) ⟨hbody, by omega⟩

theorem alternative_twin (hd : descend.Twins omitted depth descend') (place : Place)
    (hb : s.Beside omitted s') (hdepth : s'.ahead.length < depth) :
    SuppliedTwin omitted (s'.ahead.length + 1) (alternative descend place) (alternative descend' place)
      s s' := by
  unfold SuppliedTwin alternative
  refine Twin.step rfl rfl ?_
  rw [hb.kind_eq]
  refine Twin.ite (fun helsif => ?_) (fun _ => ?_)
  · have hk := of_decide_eq_true helsif
    refine Twin.bind (hd.reads .branch place s s' hb hdepth (fun _ => ⟨_, hk⟩)) ?_ ?_
    · exact fun nested hspoiled => Returns.pure ⟨nested, List.mem_singleton_self _, hspoiled⟩
    · rintro nested nested' s₁ s₁' hb₁ ⟨hnested, hlen⟩
      exact Twin.pure hb₁ ⟨by simp [hnested], by omega⟩
  · refine Twin.eat hb (fun helse => ?_) (fun _ => ?_)
    · have hb₁ := hb.advance (by rw [helse]; simp)
      have hlen := hb.length_advance (by rw [helse]; simp)
      refine Twin.bind (statements_twin hd .free isEnd hb₁ (by omega)) ?_ ?_
      · exact fun body hspoiled => Returns.bind fun _ => Returns.pure hspoiled
      · rintro body body' s₂ s₂' hb₂ ⟨hbody, hlen₂⟩
        exact alternativeRest_twin hbody hb₂ (by omega)
    · exact alternativeRest_twin rfl hb (by omega)

theorem guarded_twin (hd : descend.Twins omitted depth descend') (place : Place) (separator : Keyword)
    (stop : Token.Kind → Bool) {n : Nat} {rest rest' : Tree → List Tree → Parse Tree}
    (hb : s.Beside omitted s') (hdepth : s'.ahead.length < depth)
    (hlost : ∀ condition body, Tree.AnySpoiled omitted (condition :: body) →
      Returns (rest condition body) (Tree.Spoiled omitted))
    (hrest : ∀ condition condition' body body' s₁ s₁', condition.outline omitted = condition'.bare →
      body.map (Tree.outline omitted) = body'.map Tree.bare → s₁.Beside omitted s₁' →
      s₁'.ahead.length < s'.ahead.length →
      TreeTwin omitted n (rest condition body) (rest' condition' body') s₁ s₁') :
    TreeTwin omitted n
      (do let condition ← descend .expression place
          let _ ← eat (.keyword separator)
          let body ← statements descend .free stop
          rest condition body)
      (do let condition ← descend' .expression place
          let _ ← eat (.keyword separator)
          let body ← statements descend' .free stop
          rest' condition body) s s' := by
  refine Twin.bind (hd.reads .expression place s s' hb hdepth (by simp)) ?_ ?_
  · exact fun condition hspoiled => Returns.bind fun _ => Returns.bind fun body =>
      hlost condition body ⟨condition, List.mem_cons_self, hspoiled⟩
  rintro condition condition' s₁ s₁' hb₁ ⟨hcondition, hlen⟩
  have hbody {s₂ s₂' : Cursor} (hb₂ : s₂.Beside omitted s₂') (hlen₂ : s₂'.ahead.length < s'.ahead.length) :
      TreeTwin omitted n (do let body ← statements descend .free stop; rest condition body)
        (do let body ← statements descend' .free stop; rest' condition' body) s₂ s₂' := by
    refine Twin.bind (statements_twin hd .free stop hb₂ (by omega)) ?_ ?_
    · exact fun body hspoiled => hlost condition body (hspoiled.mono (List.subset_cons_self _ _))
    · rintro body body' s₃ s₃' hb₃ ⟨hbody, hlen₃⟩
      exact hrest _ _ _ _ s₃ s₃' hcondition hbody hb₃ (by omega)
  refine Twin.eat hb₁ (fun hk => ?_) (fun _ => hbody hb₁ hlen)
  have hlen₂ := s₁'.length_advance_le
  exact hbody (hb₁.advance (by rw [hk]; simp)) (by omega)

theorem branch_twin (hd : descend.Twins omitted depth descend') (place : Place)
    (hb : s.Beside omitted s') (hk : s.current.kind ≠ .eof)
    (hlabel : ∀ name, s.current.kind ≠ .label name) (hdepth : s'.ahead.length ≤ depth) :
    TreeTwin omitted s'.ahead.length (branch descend place) (branch descend' place) s s' := by
  have hlen := hb.length_advance hk
  unfold TreeTwin branch
  refine Twin.step rfl rfl ?_
  rw [hb.kind_eq]
  refine guarded_twin hd place .then_ isBranchEnd (hb.advance hlabel) (by omega) ?_ ?_
  · exact fun condition body hspoiled => Returns.bind fun r =>
      Returns.pure (hspoiled.parent (List.cons_subset_cons _ (List.subset_append_left _ _)))
  · intro condition condition' body body' s₁ s₁' hcondition hbody hb₁ hlen₁
    refine Twin.bind (alternative_twin hd place hb₁ (by omega)) ?_ ?_
    · exact fun r hspoiled => Returns.pure (hspoiled.parent (by simp [Node.children]))
    · rintro ⟨other, stop⟩ ⟨other', stop'⟩ s₂ s₂' hb₂ ⟨hother, hlen₂⟩
      change other.map _ = other'.map _ at hother
      exact Twin.pure hb₂ ⟨by simp [hcondition, hbody, hother], by omega⟩

theorem repetition_twin (hd : descend.Twins omitted depth descend') (hb : s.Beside omitted s')
    (hk : s.current.kind ≠ .eof) (hlabel : ∀ name, s.current.kind ≠ .label name)
    (hdepth : s'.ahead.length ≤ depth) :
    TreeTwin omitted s'.ahead.length (repetition descend) (repetition descend') s s' := by
  have hlen := hb.length_advance hk
  unfold TreeTwin repetition
  refine Twin.step rfl rfl ?_
  rw [hb.kind_eq]
  refine guarded_twin hd .command .do_ isEnd (hb.advance hlabel) (by omega) ?_ ?_
  · exact fun condition body hspoiled => Returns.bind fun closing =>
      Returns.pure (hspoiled.parent (List.cons_subset_cons _ (List.subset_append_left _ _)))
  · intro condition condition' body body' s₁ s₁' hcondition hbody hb₁ hlen₁
    refine Twin.expect hb₁ fun hclose => ?_
    have hlen₂ := hb₁.length_advance (by rw [hclose]; simp)
    exact Twin.pure (hb₁.advance (by rw [hclose]; simp)) ⟨by simp [hcondition, hbody], by omega⟩

/-! ## jumps and trailing conditions -/

theorem jump_twin (hd : descend.Twins omitted depth descend') (hb : s.Beside omitted s')
    (hk : s.current.kind ≠ .eof) (hlabel : ∀ name, s.current.kind ≠ .label name)
    (hdepth : s'.ahead.length ≤ depth) :
    TreeTwin omitted s'.ahead.length (jump descend) (jump descend') s s' := by
  have hlen := hb.length_advance hk
  unfold TreeTwin jump
  refine Twin.step rfl rfl
    (Twin.bind (callArguments_twin hd _ _ (hb.advance hlabel) (by omega)) ?_ ?_)
  · exact fun r hspoiled => Returns.pure (hspoiled.parent (List.Subset.refl _))
  · rintro ⟨args, stop⟩ ⟨args', stop'⟩ s₁ s₁' hb₁ ⟨hargs, hlen₁⟩
    change args.map _ = args'.map _ at hargs
    exact Twin.pure hb₁ ⟨by simp [hargs], by omega⟩

theorem trailingKeyword_ne_label {kind : Token.Kind} {keyword : ConditionalKeyword}
    (h : trailingKeyword kind = some keyword) (name : Text) : kind ≠ .label name := by
  rintro rfl
  exact nomatch h

theorem modifier_twin (hd : descend.Twins omitted depth descend') (place : Place) {tree tree' : Tree}
    (htree : tree.outline omitted = tree'.bare) (hb : s.Beside omitted s')
    (hdepth : s'.ahead.length ≤ depth) :
    ExtendTwin omitted (modifier descend place tree) (modifier descend' place tree') s s' := by
  unfold ExtendTwin modifier
  refine Twin.step rfl rfl ?_
  rw [hb.newlineBefore_eq, hb.kind_eq]
  split
  next keyword _ hk =>
    have hb₁ := hb.advance (trailingKeyword_ne_label hk)
    have hlen := hb.length_advance (trailingKeyword_ne_eof hk)
    refine Twin.step rfl rfl
      (Twin.bind (hd.reads .expression place _ _ hb₁ (by omega) (by simp)) ?_ ?_)
    · exact fun condition hspoiled =>
        Returns.pure ⟨_, rfl, .child (by simp [Node.children]) hspoiled⟩
    · rintro condition condition' s₂ s₂' hb₂ ⟨hcondition, hlen₂⟩
      exact Twin.pure hb₂ ⟨by simp [htree, hcondition], by intro; omega, by omega⟩
  next => exact Twin.pure hb ⟨rfl, by simp, Nat.le_refl _⟩

theorem modifier_keeps (place : Place) : KeepsSpoiled omitted (modifier descend place) := by
  intro tree hspoiled
  refine Returns.bind fun token => ?_
  split
  · refine Returns.bind fun _ => Returns.bind fun condition => Returns.pure ?_
    rintro longer hlonger
    rw [← Option.some.inj hlonger]
    exact .child (by simp [Node.children]) hspoiled
  · exact Returns.pure (by simp)

end Parse

end Collate
