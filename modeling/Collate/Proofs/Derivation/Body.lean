import Collate.Proofs.Derivation.Call
import Collate.Proofs.Grammar.Call

/-!
# The forms of definitions and conditionals

Definitions, classes and modules, conditionals, loops and jumps.  What stands between a reserved word and
its `end` is free; a condition, a superclass and the body of an endless definition stand at the place of
the whole, and only the condition of a loop is that of a command.
-/

namespace Collate

namespace Parse
open Cursor
variable {t : Text} {descend : Descent} {place : Place} {s : Cursor}

/-! ## definitions -/

theorem singleton_derives (place : Place) (hs : s.Valid t) :
    Outcome singleton s (fun receiver s' => ∃ slots, Slot.Receiver place receiver slots ∧
      s.Spells slots s') ReadError.Any := by
  unfold singleton
  rw [outcome_bind, outcome_get]
  split
  next h =>
    obtain ⟨hself, hdot⟩ := h
    have hne : s.current.kind ≠ .eof := by simp [hself]
    have hleaf : s.current.kind.isLeaf = true := by rw [hself]; rfl
    have hs' := (passes_advance s).valid hs
    have hdot : s.advance.current.kind = .dot := hdot
    rw [outcome_bind, outcome_advance, outcome_bind, outcome_advance]
    obtain ⟨tokens, hreceiver⟩ := (spells_advance hs hne).reads (takes_advance hs hne) (.leaf hleaf)
    exact ⟨_, .self hdot tokens _, hreceiver.append (spells_advance hs' (by simp [hdot]))⟩
  next => exact ⟨[], .none, Spells.nil s⟩

theorem definedName_derives (hs : s.Valid t) :
    Outcome definedName s (fun name s' => ∃ slots, Slot.Name name slots ∧ s.Spells slots s')
      ReadError.Any := by
  have hrest {name : Text} (hne : s.current.kind ≠ .eof)
      (hname : s.current.kind.definedName? = some name) :
      Outcome (do
          let s ← get
          if s.current.kind = .assign ∧ s.current.spaceBefore = false ∧ s.second.kind = .leftParen then
            let _ ← advance
            return name ++ ['=']
          else
            return name)
        s.advance (fun name s' => ∃ slots, Slot.Name name slots ∧ s.Spells slots s')
        ReadError.Any := by
    have hfront := spells_advance hs hne
    have hs' := hfront.passes.valid hs
    rw [outcome_bind, outcome_get]
    split
    next h =>
      exact ⟨_, .setter hname h.1, hfront.append (spells_advance hs' (by simp [h.1]))⟩
    next => exact ⟨_, .plain hname, hfront⟩
  unfold definedName
  rw [outcome_bind, outcome_advance]
  dsimp only
  split
  next hk => exact hrest (by simp [hk]) (by rw [hk]; rfl)
  next hk => exact hrest (by simp [hk]) (by rw [hk]; rfl)
  next hk => exact hrest (by simp [hk]) (by rw [hk]; rfl)
  next hk => exact hrest (by simp [hk]) (by rw [hk]; rfl)
  next => trivial

theorem signature_derives (hd : descend.Derives t) (hs : s.Valid t) :
    Outcome (signature descend place) s (fun params s' => ∃ slots,
      Slot.Signature place params slots ∧ s.Spells slots s') ReadError.Any := by
  unfold signature
  rw [outcome_bind, outcome_sees]
  split
  next hparen =>
    rw [outcome_bind, outcome_advance]
    refine grouped_derives hs (of_decide_eq_true hparen) (by simp) (by simp)
      (closedParameters_derives hd .rightParen ((passes_advance s).valid hs)) ?_
    intro params slots s' hgroup h _ _
    exact ⟨slots, .group hgroup, h⟩
  next =>
    simp only [outcome_bind, outcome_sameLine, outcome_peek]
    split
    next =>
      refine (bareParameters_derives hd hs).mono ?_
      rintro params s' ⟨slots, hitems, h⟩
      exact ⟨slots, .bare hitems, h⟩
    next => exact ⟨[], .none, Spells.nil s⟩

theorem definition_derives (hd : descend.Derives t) (hs : s.Valid t)
    (hk : s.current.kind = .keyword .def_) :
    Outcome (definition descend place) s (Reads place s) ReadError.Any := by
  have hne : s.current.kind ≠ .eof := by simp [hk]
  have hword := spells_advance hs hne
  have htakes := takes_advance hs hne
  have hs' := hword.passes.valid hs
  unfold definition
  rw [outcome_bind, outcome_advance]
  refine (singleton_derives place hs').bind ?_
  rintro receiver s₁ ⟨front, hreceiver, h₁⟩
  have hs₁ := h₁.passes.valid hs'
  refine (definedName_derives hs₁).bind ?_
  rintro name s₂ ⟨middle, hname, h₂⟩
  have hs₂ := h₂.passes.valid hs₁
  rw [outcome_withinScope, if_pos rfl]
  refine Outcome.mono (Q := Reads place s) ?_ fun tree s' ⟨tokens, h⟩ => ⟨tokens, h.locals _ _⟩
  -- the names in sight are dropped between the name and the parameters
  have h₂ : s₁.Spells middle { s₂ with locals := [] } := h₂.locals s₁.locals []
  have hs₂ : Cursor.Valid t { s₂ with locals := [] } := h₂.passes.valid hs₁
  generalize ({ s₂ with locals := [] } : Cursor) = s₂ at h₂ hs₂
  refine (signature_derives hd hs₂).bind ?_
  rintro params s₃ ⟨back, hparams, h₃⟩
  have hs₃ := h₃.passes.valid hs₂
  have hhead := (h₁.append h₂).append h₃
  rw [outcome_bind, outcome_eat]
  split
  next hassign =>
    have hsign := spells_advance hs₃ (by simp [hassign])
    refine (hd .statement place _ (hsign.passes.valid hs₃) (by simp)).bind ?_
    intro body s₄ hbody
    have hall := htakes.joined hs (hhead.passes.trans hsign.passes) hbody.takes
    obtain ⟨tokens, hbody⟩ := hbody
    exact (hword.append (hhead.append (hsign.append hbody))).reads hall
      (.endless hk hreceiver hname hparams hassign tokens body)
  next =>
    refine (statements_derives hd isEnd hs₃).bind ?_
    rintro body s₄ ⟨slots, hbody, h₄⟩
    have hs₄ := h₄.passes.valid hs₃
    rw [expectWord, outcome_bind, outcome_expect]
    split
    next hend =>
      have hne' : s₄.current.kind ≠ .eof := by simp [hend]
      have hall := takes_advance_joined hs hne (hhead.passes.trans h₄.passes) hne'
      exact (hword.append ((hhead.append h₄).append (spells_advance hs₄ hne'))).reads hall
        (.definition hk hreceiver hname hparams hbody hend)
    next => trivial

/-! ## classes and modules -/

theorem superclass_derives (hd : descend.Derives t) (keyword : Token) (hs : s.Valid t) :
    Outcome (superclass descend place keyword) s (fun parents s' => ∃ slots,
      Slot.Marked place (.op ['<']) parents slots ∧ s.Spells slots s') ReadError.Any := by
  unfold superclass
  rw [outcome_bind, outcome_peek]
  split
  next h =>
    have hmark := spells_advance hs (by simp [h.2])
    rw [outcome_bind, outcome_advance]
    refine (hd .expression place _ (hmark.passes.valid hs) (by simp)).bind ?_
    rintro parent s' ⟨tokens, hparent⟩
    exact ⟨_, .some h.2 tokens parent, hmark.append hparent⟩
  next => exact ⟨[], .none, Spells.nil s⟩

theorem namespaced_derives (hd : descend.Derives t) (hs : s.Valid t)
    (hk : s.current.kind = .keyword .class_ ∨ s.current.kind = .keyword .module_) :
    Outcome (namespaced descend place) s (Reads place s) ReadError.Any := by
  have hne : s.current.kind ≠ .eof := by rcases hk with hk | hk <;> simp [hk]
  have hword := spells_advance hs hne
  have hs' := hword.passes.valid hs
  unfold namespaced
  rw [outcome_bind, outcome_advance]
  refine (hd .term place _ hs' (by simp)).bind ?_
  rintro name s₁ ⟨tokens, hname⟩
  have hs₁ := hname.passes.valid hs'
  refine (superclass_derives hd _ hs₁).bind ?_
  rintro parents s₂ ⟨front, hparents, h₂⟩
  have hs₂ := h₂.passes.valid hs₁
  have hin : Cursor.Valid t { s₂ with locals := [] } := (passes_locals s₂ []).valid hs₂
  rw [outcome_bind, outcome_withinScope, if_pos rfl]
  refine (statements_derives hd isEnd hin).mono ?_
  rintro body s₃ ⟨slots, hbody, h₃⟩
  have h₃ : s₂.Spells slots { s₃ with locals := s₂.locals } := h₃.locals s₂.locals s₂.locals
  have hs₃ := h₃.passes.valid hs₂
  generalize ({ s₃ with locals := s₂.locals } : Cursor) = s₃ at h₃ hs₃ ⊢
  rw [expectWord, outcome_bind, outcome_expect]
  split
  next hend =>
    have hne' : s₃.current.kind ≠ .eof := by simp [hend]
    have hhead := hname.append (h₂.append h₃)
    have hall := takes_advance_joined hs hne hhead.passes hne'
    have hbehind := (h₂.append h₃).append (spells_advance hs₃ hne')
    exact (hword.append (hname.append hbehind)).reads hall
      (.namespaced hk hparents hbody hend tokens name)
  next => trivial

/-! ## conditionals -/

theorem eat_derives {kind : Token.Kind} (hkind : kind ≠ .eof) (hs : s.Valid t) :
    Outcome (eat kind) s (fun _ s' => ∃ front, s.Spells front s' ∧
      ∀ rest s'', s'.Spells rest s'' → Slot.Optional kind front rest) ReadError.Any := by
  rw [outcome_eat]
  split
  next hk =>
    exact ⟨_, spells_advance hs (by rwa [hk]), fun rest _ _ => .some rest hk⟩
  next hk =>
    refine ⟨[], Spells.nil s, fun rest s'' h => .none fun token hfirst => ?_⟩
    have hcurrent : s.current = token := by
      rw [Cursor.current, h.ahead_eq, List.headD_eq_head?_getD, List.head?_append, hfirst]
      rfl
    rwa [← hcurrent]

theorem guarded_derives (hd : descend.Derives t) (separator : Keyword) (stop : Token.Kind → Bool)
    {β : Type} {rest : Tree → List Tree → Parse β} {R : β → Cursor → Prop} (hs : s.Valid t)
    (hrest : ∀ condition body front slots s₁ s', Reads place s condition s₁ → Slot.Body body slots →
      s₁.Spells (front ++ slots) s' →
      (∀ back s'', s'.Spells back s'' → Slot.Optional (.keyword separator) front (slots ++ back)) →
      Outcome (rest condition body) s' R ReadError.Any) :
    Outcome (do
        let condition ← descend .expression place
        let _ ← eat (.keyword separator)
        let body ← statements descend .free stop
        rest condition body)
      s R ReadError.Any := by
  refine (hd .expression place s hs (by simp)).bind ?_
  intro condition s₁ hcondition
  have hs₁ := hcondition.takes.valid hs
  refine (eat_derives (by simp) hs₁).bind ?_
  rintro _ s₂ ⟨front, hfront, hoptional⟩
  refine (statements_derives hd stop (hfront.passes.valid hs₁)).bind ?_
  rintro body s₃ ⟨slots, hbody, h₃⟩
  exact hrest condition body front slots s₁ s₃ hcondition hbody (hfront.append h₃)
    fun back s'' hback => hoptional _ s'' (h₃.append hback)

theorem alternative_derives (hd : descend.Derives t) (hs : s.Valid t) :
    Outcome (alternative descend place) s (fun r s' => ∃ slots, Slot.Alternative place r.1 slots ∧
      s.Spells slots s' ∧ s.EndsAt s' r.2) ReadError.Any := by
  unfold alternative
  rw [outcome_bind, outcome_sees]
  split
  next helsif =>
    refine (hd .branch place s hs fun _ => of_decide_eq_true helsif).bind ?_
    intro nested s' hnested
    have hend : s.EndsAt s' nested.span.stop := ⟨s, _, Passes.refl s, hnested.takes, rfl⟩
    obtain ⟨tokens, hnested⟩ := hnested
    exact ⟨_, .nested tokens nested, hnested, hend⟩
  next =>
    rw [outcome_bind, outcome_eat]
    split
    next helse =>
      have hmark := spells_advance hs (by simp [helse])
      have hs' := hmark.passes.valid hs
      refine (statements_derives hd isEnd hs').bind ?_
      rintro body s' ⟨slots, hbody, h⟩
      have hs'' := h.passes.valid hs'
      rw [expectWord, outcome_bind, outcome_expect]
      split
      next hend =>
        have hne : s'.current.kind ≠ .eof := by simp [hend]
        exact ⟨_, .otherwise helse hbody hend, hmark.append (h.append (spells_advance hs'' hne)),
          s', _, hmark.passes.trans h.passes, takes_advance hs'' hne, rfl⟩
      next => trivial
    next =>
      dsimp only
      rw [if_neg Bool.false_ne_true, pure_bind, expectWord, outcome_bind, outcome_expect]
      split
      next hend =>
        have hne : s.current.kind ≠ .eof := by simp [hend]
        exact ⟨_, .none hend, spells_advance hs hne, s, _, Passes.refl s, takes_advance hs hne, rfl⟩
      next => trivial

theorem branch_derives (hd : descend.Derives t) (hs : s.Valid t) {keyword : ConditionalKeyword}
    (hk : ConditionalKeyword.ofKind? s.current.kind = some keyword)
    (hkeyword : keyword ≠ .while_ ∧ keyword ≠ .until_) :
    Outcome (branch descend place) s (Reads place s) ReadError.Any := by
  have hne : s.current.kind ≠ .eof := by
    intro heof
    rw [heof] at hk
    exact nomatch hk
  have hword := spells_advance hs hne
  have hs' := hword.passes.valid hs
  unfold branch
  rw [outcome_bind, outcome_advance]
  refine guarded_derives hd .then_ isBranchEnd hs' ?_
  intro condition body front slots s₁ s₂ hcondition hbody h₂ hthen
  have hs₂ := h₂.passes.valid (hcondition.takes.valid hs')
  refine (alternative_derives hd hs₂).bind ?_
  rintro ⟨other, stop⟩ s₃ ⟨back, hother, h₃, hstop⟩
  have hall := (takes_advance hs hne).endsAt (hcondition.takes.passes.trans h₂.passes) hstop
  obtain ⟨tokens, hcondition⟩ := hcondition
  have hform := Form.branch hk hkeyword (hthen back s₃ h₃) hbody hother tokens condition
  rw [outcome_pure, hk]
  exact (hword.append (hcondition.append (h₂.append h₃))).reads hall hform

theorem repetition_derives (hd : descend.Derives t) (hs : s.Valid t) {keyword : ConditionalKeyword}
    (hk : ConditionalKeyword.ofKind? s.current.kind = some keyword)
    (hkeyword : keyword = .while_ ∨ keyword = .until_) :
    Outcome (repetition descend) s (Reads place s) ReadError.Any := by
  have hne : s.current.kind ≠ .eof := by
    intro heof
    rw [heof] at hk
    exact nomatch hk
  have hword := spells_advance hs hne
  have hs' := hword.passes.valid hs
  unfold repetition
  rw [outcome_bind, outcome_advance]
  refine guarded_derives hd .do_ isEnd hs' ?_
  intro condition body front slots s₁ s₂ hcondition hbody h₂ hdo
  have hs₂ := h₂.passes.valid (hcondition.takes.valid hs')
  rw [expectWord, outcome_bind, outcome_expect]
  split
  next hend =>
    have hne' : s₂.current.kind ≠ .eof := by simp [hend]
    have hclosing := spells_advance hs₂ hne'
    have hall := takes_advance_joined hs hne (hcondition.takes.passes.trans h₂.passes) hne'
    obtain ⟨tokens, hcondition⟩ := hcondition
    have hform : Form place _ _ :=
      .repetition hk hkeyword (hdo _ _ hclosing) hbody hend tokens condition
    rw [outcome_pure, hk]
    exact (hword.append (hcondition.append (h₂.append hclosing))).reads hall hform
  next => trivial

/-! ## jumps and trailing conditions -/

theorem jump_derives (hd : descend.Derives t) (hs : s.Valid t)
    (hk : s.current.kind = .keyword .return_ ∨ s.current.kind = .keyword .yield_) :
    Outcome (jump descend) s (Reads place s) ReadError.Any := by
  have hne : s.current.kind ≠ .eof := by rcases hk with hk | hk <;> simp [hk]
  have hword := spells_advance hs hne
  unfold jump
  rw [outcome_bind, outcome_advance]
  refine (callArguments_derives hd s.current.span.stop (hword.passes.valid hs)).bind ?_
  rintro ⟨args, stop⟩ s' ⟨slots, hargs, h, hstop⟩
  exact (hword.append h).reads (takes_arguments (takes_advance hs hne) hstop) (.jump hk hargs)

theorem modifier_derives (hd : descend.Derives t) {tree : Tree} {s' : Cursor} (hs : s.Valid t)
    (htree : Reads place s tree s') :
    Outcome (modifier descend place tree) s' (Longer (Reads place s) s') ReadError.Any := by
  have hs' := htree.takes.valid hs
  unfold modifier
  rw [outcome_bind, outcome_current]
  split
  next keyword _ hk =>
    have hne : s'.current.kind ≠ .eof := by
      intro heof
      rw [heof] at hk
      exact nomatch hk
    have hword := spells_advance hs' hne
    rw [outcome_bind, outcome_advance]
    refine (hd .expression place _ (hword.passes.valid hs') (by simp)).bind ?_
    intro condition s'' hcondition
    have hall := htree.takes.joined hs hword.passes hcondition.takes
    obtain ⟨front, htree⟩ := htree
    obtain ⟨tokens, hcondition⟩ := hcondition
    exact (htree.append (hword.append hcondition)).reads hall (.modifier hk front tree tokens condition)
  next => exact rfl

end Parse

end Collate
