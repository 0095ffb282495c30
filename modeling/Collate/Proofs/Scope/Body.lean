import Collate.Proofs.Scope.Call

/-!
# Names through definitions, classes and conditionals

The parameters and the body of a definition see none of the names around it, and neither does the body
of a class or module.  Conditionals and loops open no scope.
-/

namespace Collate

theorem Node.scope?_namespaced {t : Text} {span : Span} {name : Tree} {parents body : List Tree}
    {keyword : Token} (hstart : name.span.start ≠ span.start)
    (htoken : t.tokenFrom span.start = some keyword)
    (hparents : (keyword.kind = .keyword .class_ ∧
        (t.tokenFrom name.span.stop).map Token.kind = some (.op ['<']) ∧ ∃ parent, parents = [parent]) ∨
      (keyword.kind = .keyword .class_ ∧
        (t.tokenFrom name.span.stop).map Token.kind ≠ some (.op ['<']) ∧ parents = []) ∨
      (keyword.kind = .keyword .module_ ∧ parents = [])) :
    (Node.other (name :: (parents ++ body))).scope? t Tree.span span
      = some ⟨.closed, name :: parents, body⟩ := by
  rcases hparents with ⟨hk, hnext, parent, rfl⟩ | ⟨hk, hnext, rfl⟩ | ⟨hk, rfl⟩
  · simp [scope?, hstart, htoken, hk, hnext]
  · simp [scope?, hstart, htoken, hk, hnext]
  · simp [scope?, hstart, htoken, hk]

namespace Parse
open Cursor
variable {t : Text} {descend : Descent} {depth : Nat} {s s₀ : Cursor}

/-! ## definitions -/

/-- the receiver in front of the name of a definition, with the dot behind it -/
theorem singleton_scans (hs : s.Valid t) :
    Outcome singleton s
      (fun receiver s' => Scans t s receiver.toList s' ∧ (receiver = none → s' = s) ∧
        (receiver ≠ none → s'.current.kind ≠ .eof → t.Selects s'.current)) ReadError.Any := by
  unfold singleton
  rw [outcome_bind, outcome_get]
  split
  next h =>
    have hself := Scans.mark hs (by simp [h.1])
    have hs' := hself.passes.valid hs
    have hdot : s.advance.current.kind = .dot := h.2
    have hleaf : Scans t s [.leaf s.current.span] s.advance := Scans.wrap hself rfl trivial rfl rfl
    rw [outcome_bind, outcome_advance, outcome_bind, outcome_advance]
    exact ⟨hleaf.append (Scans.mark hs' (by simp [hdot])), (nomatch ·),
      fun _ => hs'.selects (.inl hdot)⟩
  next => exact ⟨Scans.nil s, fun _ => rfl, fun h => absurd rfl h⟩

/-- the name of a definition is taken, and its first token alone may be an identifier -/
theorem definedName_scans (hs : s.Valid t) (held : Text → Span → Prop)
    (hheld : s.current.kind ≠ .eof → ∀ name, s.current.kind = .ident name →
      t.Selects s.current ∨ held name s.current.span) :
    Outcome definedName s
      (fun _ s' => s.Passes s' ∧ s'.locals = s.locals ∧ s.Covers t s' held) ReadError.Any := by
  have hrest {name : Text} (hk : s.current.kind ≠ .eof) :
      Outcome (do
          let s ← get
          if s.current.kind = .assign ∧ s.current.spaceBefore = false ∧ s.second.kind = .leftParen then
            let _ ← advance
            return name ++ ['=']
          else
            return name)
        s.advance (fun _ s' => s.Passes s' ∧ s'.locals = s.locals ∧ s.Covers t s' held)
        ReadError.Any := by
    have ht := takes_advance hs hk
    have hcovers := hs.covers_advance hk (hheld hk)
    rw [outcome_bind, outcome_get]
    split
    next h =>
      have hassign := Scans.mark (ht.valid hs) (by simp [h.1])
      refine ⟨ht.passes.trans hassign.passes, rfl, hcovers.trans (hassign.covered.mono ?_)⟩
      rintro _ _ ⟨tree, hmem, -⟩
      cases hmem
    next => exact ⟨ht.passes, rfl, hcovers⟩
  unfold definedName
  rw [outcome_bind, outcome_advance]
  dsimp only
  split
  next hk => exact hrest (by simp [hk])
  next hk => exact hrest (by simp [hk])
  next hk => exact hrest (by simp [hk])
  next hk => exact hrest (by simp [hk])
  next => trivial

theorem signature_scans (hd : descend.Tracks t depth) (place : Place) (hs : s.Valid t)
    (hdepth : s.ahead.length < depth) :
    Outcome (signature descend place) s (Scans t s) ReadError.Any := by
  unfold signature
  rw [outcome_bind, outcome_sees]
  split
  next hparen =>
    have hk := of_decide_eq_true hparen
    have hopening := Scans.mark hs (by simp [hk])
    have hs' := hopening.passes.valid hs
    have hlen := hopening.passes.length_le
    rw [outcome_bind, outcome_advance]
    refine (parameters_scans hd .free (some .rightParen) hs' (by omega)).bind ?_
    intro params s' hparams
    rw [outcome_bind, outcome_expect]
    split
    next hclose =>
      have hall := hparams.append (Scans.mark (hparams.passes.valid hs') (by simp [hclose]))
      rw [List.append_nil] at hall
      exact hopening.append hall
    next => trivial
  next =>
    simp only [outcome_bind, outcome_sameLine, outcome_peek]
    split
    next => exact parameters_scans hd place none hs hdepth
    next => exact Scans.nil s

/-- the parameters and the body of a definition, in a scope of their own -/
theorem definitionRest_scans (hd : descend.Tracks t depth) (place : Place) {name : Text}
    {keyword : Token} {receiver : Option Tree} (hs : s.Valid t) (hpasses : s₀.Passes s)
    (hresolved : Tree.ResolvedAll t s₀.locals receiver.toList s.locals)
    (hcovered : ∀ params body span, s₀.Covers t s (fun held place =>
      (Node.definition keyword.span name receiver params body).Owns t span held place ∨
        Tree.AnyOwns t receiver.toList held place)) (hdepth : s.ahead.length < depth) :
    Outcome (do
        let params ← signature descend place
        if ← eat .assign then
          let body ← descend .statement place
          return ⟨.definition keyword.span name receiver params [body], keyword.span.join body.span⟩
        else
          let body ← statements descend .free isEnd
          let closing ← expectWord .end_
          return ⟨.definition keyword.span name receiver params body, keyword.span.join closing.span⟩)
      { s with locals := [] } (fun tree s' => Scans t s₀ [tree] { s' with locals := s.locals })
      ReadError.Any := by
  have hin := (passes_locals s []).valid hs
  refine (signature_scans hd place hin hdepth).bind ?_
  intro params s₁ hparams
  have hs₁ := hparams.passes.valid hin
  have hlen : s₁.ahead.length ≤ s.ahead.length := hparams.passes.length_le
  rw [outcome_bind, outcome_eat]
  split
  next heq =>
    have hassign := Scans.mark hs₁ (by simp [heq])
    have hlen' := hassign.passes.length_le
    refine (hd.reads .statement place (hassign.passes.valid hs₁) (by omega) (by simp)).bind ?_
    rintro body s₂ ⟨-, hbody⟩
    exact Scans.scope rfl hpasses hresolved (hcovered _ _ _) (hparams.append (hassign.append hbody))
  next =>
    refine (statements_scans hd .free _ hs₁ (by omega)).bind ?_
    intro body s₂ hbody
    rw [expectWord, outcome_bind, outcome_expect]
    split
    next hclose =>
      have hall := hbody.append (Scans.mark (hbody.passes.valid hs₁) (by simp [hclose]))
      rw [List.append_nil] at hall
      exact Scans.scope rfl hpasses hresolved (hcovered _ _ _) (hparams.append hall)
    next => trivial

theorem definition_scans (hd : descend.Tracks t depth) (place : Place) (hs : s.Valid t)
    (hk : s.current.kind = .keyword .def_) (hdepth : s.ahead.length ≤ depth) :
    Outcome (definition descend place) s (fun tree => Scans t s [tree]) ReadError.Any := by
  have hmark := Scans.mark hs (by simp [hk])
  have ht := takes_advance hs (by simp [hk])
  have hs₁ := ht.valid hs
  have hlt := ht.length_lt
  unfold definition
  rw [outcome_bind, outcome_advance]
  refine (singleton_scans hs₁).bind ?_
  rintro receiver s₂ ⟨hreceiver, hnone, hselects⟩
  have hs₂ := hreceiver.passes.valid hs₁
  have hlen := hreceiver.passes.length_le
  -- the name stands behind a dot, or is the first token behind the reserved word
  have hname : s₂.current.kind ≠ .eof → ∀ name, s₂.current.kind = .ident name → t.Selects s₂.current ∨
      (receiver = none ∧ (t.tokenFrom s.current.span.stop).map Token.span = some s₂.current.span) := by
    intro hne _ _
    cases hr : receiver with
    | some tree => exact .inl (hselects (by rw [hr]; simp) hne)
    | none =>
      obtain rfl := hnone hr
      obtain ⟨rest, hahead⟩ := exists_ahead hs₂ hne
      rw [ht.tokenFrom hs, hahead]
      exact .inr ⟨rfl, rfl⟩
  refine (definedName_scans hs₂ (fun _ place => receiver = none ∧
    (t.tokenFrom s.current.span.stop).map Token.span = some place) hname).bind ?_
  rintro name s₃ ⟨hpasses, hlocals, hcovers⟩
  have hlen' := hpasses.length_le
  rw [outcome_withinScope, if_pos rfl]
  have hfront := hmark.append hreceiver
  refine definitionRest_scans hd place (hpasses.valid hs₂) (hfront.passes.trans hpasses)
    (hlocals ▸ hfront.resolved) (fun params body span => ?_) (by omega)
  refine (hfront.covered.mono fun _ _ => .inr).trans (hcovers.mono ?_)
  rintro _ _ ⟨rfl, hplace⟩
  exact .inl hplace

/-! ## classes and modules -/

theorem superclass_scans (hd : descend.Tracks t depth) (place : Place) (keyword : Token)
    (hs : s.Valid t) (hdepth : s.ahead.length < depth) :
    Outcome (superclass descend place keyword) s
      (fun parents s' => Scans t s parents s' ∧
        (((keyword.kind = .keyword .class_ ∧ s.current.kind = .op ['<']) ∧ ∃ parent, parents = [parent]) ∨
          (¬ (keyword.kind = .keyword .class_ ∧ s.current.kind = .op ['<']) ∧ parents = [])))
      ReadError.Any := by
  unfold superclass
  rw [outcome_bind, outcome_peek]
  split
  next h =>
    have hmark := Scans.mark hs (by simp [h.2])
    have hlen := hmark.passes.length_le
    rw [outcome_bind, outcome_advance]
    refine (hd.reads .expression place (hmark.passes.valid hs) (by omega) (by simp)).bind ?_
    rintro parent s' ⟨-, hparent⟩
    exact ⟨hmark.append hparent, .inl ⟨h, parent, rfl⟩⟩
  next h => exact ⟨Scans.nil s, .inr ⟨h, rfl⟩⟩

theorem namespaced_scans (hd : descend.Tracks t depth) (place : Place) (hs : s.Valid t)
    (hk : s.current.kind = .keyword .class_ ∨ s.current.kind = .keyword .module_)
    (hdepth : s.ahead.length ≤ depth) :
    Outcome (namespaced descend place) s (fun tree => Scans t s [tree]) ReadError.Any := by
  have hplain : s.current.kind ≠ .eof ∧ ∀ name, s.current.kind ≠ .ident name := by
    rcases hk with hk | hk <;> simp [hk]
  have hmark := Scans.mark hs hplain
  have ht := takes_advance hs hplain.1
  have hs' := ht.valid hs
  have hlt := ht.length_lt
  unfold namespaced
  rw [outcome_bind, outcome_advance]
  refine (hd.reads .term place hs' (by omega) (by simp)).bind ?_
  rintro name s₁ ⟨hread, hname⟩
  have hs₁ := hread.takes.valid hs'
  have hlt₁ := hread.takes.length_lt
  refine (superclass_scans hd place _ hs₁ (by omega)).bind ?_
  rintro parents s₂ ⟨hparents, hcases⟩
  have hs₂ := hparents.passes.valid hs₁
  have hlen₂ := hparents.passes.length_le
  have hin := (passes_locals s₂ []).valid hs₂
  rw [outcome_bind, outcome_withinScope, if_pos rfl]
  refine (statements_scans hd .free isEnd hin (show s₂.ahead.length < depth by omega)).mono ?_
  intro body s₃ hbody
  have hs₃ := (passes_locals s₃ s₂.locals).valid (hbody.passes.valid hin)
  rw [expectWord, outcome_bind, outcome_expect]
  split
  next hclose =>
    have hfront := (hmark.append hname).append hparents
    have hpasses : s.Passes s₃ := hfront.passes.trans hbody.passes
    have hjoin : (s.current.span.join s₃.current.span).start = s.offset := start_join hs hpasses
    -- the name begins behind the reserved word
    have hbehind : name.span.start ≠ (s.current.span.join s₃.current.span).start := by
      have h₁ := hread.takes.start_eq
      have h₂ : s.current.span.stop ≤ s.advance.offset := ht.stop_le hs
      have h₃ : s.offset < s.current.span.stop := ht.nonempty hs
      omega
    have hnext : (t.tokenFrom name.span.stop).map Token.kind = some (.op ['<']) ↔
        s₁.current.kind = .op ['<'] := by
      rw [hread.takes.tokenFrom hs']
      cases hahead : s₁.ahead with
      | nil =>
        have heof : s₁.current.kind = .eof := by
          rw [Cursor.current, hahead]
          exact hs₁.eof_kind
        simp [heof]
      | cons next rest => simp [current_cons hahead]
    have hscope : (Node.other (name :: (parents ++ body))).scope? t Tree.span
        (s.current.span.join s₃.current.span) = some ⟨.closed, name :: parents, body⟩ := by
      refine Node.scope?_namespaced hbehind (by rw [hjoin]; exact hs.tokenFrom hplain.1) ?_
      rcases hk with hk | hk
      · rcases hcases with ⟨⟨-, hop⟩, hone⟩ | ⟨hnone, hnil⟩
        · exact .inl ⟨hk, hnext.mpr hop, hone⟩
        · exact .inr (.inl ⟨hk, fun h => hnone ⟨hk, hnext.mp h⟩, hnil⟩)
      · rcases hcases with ⟨⟨hclass, -⟩, -⟩ | ⟨-, hnil⟩
        · cases hk.symm.trans hclass
        · exact .inr (.inr ⟨hk, hnil⟩)
    have hall := Scans.scope hscope hfront.passes hfront.resolved (hfront.covered.mono fun _ _ => .inr) hbody
    exact hall.append (Scans.mark hs₃ (by simp [hclose]))
  next => trivial

/-! ## conditionals -/

theorem alternative_scans (hd : descend.Tracks t depth) (place : Place) (hs : s.Valid t)
    (hdepth : s.ahead.length < depth) :
    Outcome (alternative descend place) s (fun r => Scans t s r.1) ReadError.Any := by
  have hrest {body : List Tree} {s' : Cursor} (hbody : Scans t s body s') :
      Outcome (do
          let closing ← expectWord .end_
          return (body, closing.span.stop))
        s' (fun r => Scans t s r.1) ReadError.Any := by
    rw [expectWord, outcome_bind, outcome_expect]
    split
    next hclose =>
      have hall := hbody.append (Scans.mark (hbody.passes.valid hs) (by simp [hclose]))
      rw [List.append_nil] at hall
      exact hall
    next => trivial
  unfold alternative
  rw [outcome_bind, outcome_sees]
  split
  next helsif =>
    refine (hd.reads .branch place hs hdepth fun _ => ⟨_, of_decide_eq_true helsif⟩).bind ?_
    rintro nested s' ⟨-, hnested⟩
    exact hnested
  next =>
    rw [outcome_bind, outcome_eat]
    split
    next helse =>
      have hmark := Scans.mark hs (by simp [helse])
      have hlen := hmark.passes.length_le
      refine (statements_scans hd .free isEnd (hmark.passes.valid hs) (by omega)).bind ?_
      intro body s' hbody
      exact hrest (hmark.append hbody)
    next => exact hrest (Scans.nil s)

theorem guarded_scans (hd : descend.Tracks t depth) (place : Place) (separator : Keyword)
    (stop : Token.Kind → Bool) {β : Type} {rest : Tree → List Tree → Parse β}
    {R : β → Cursor → Prop} (hs : s.Valid t) (hdepth : s.ahead.length < depth)
    (hrest : ∀ condition body s', Scans t s (condition :: body) s' →
      Outcome (rest condition body) s' R ReadError.Any) :
    Outcome (do
        let condition ← descend .expression place
        let _ ← eat (.keyword separator)
        let body ← statements descend .free stop
        rest condition body)
      s R ReadError.Any := by
  refine (hd.reads .expression place hs hdepth (by simp)).bind ?_
  rintro condition s₁ ⟨hread, hcondition⟩
  have hs₁ := hread.takes.valid hs
  have hlt := hread.takes.length_lt
  have heat : Outcome (eat (.keyword separator)) s₁ (fun _ => Scans t s₁ []) ReadError.Any := by
    rw [outcome_eat]
    split
    next hk => exact Scans.mark hs₁ (by simp [hk])
    next => exact Scans.nil s₁
  refine heat.bind ?_
  intro _ s₂ hseparator
  have hlen := hseparator.passes.length_le
  refine (statements_scans hd .free stop (hseparator.passes.valid hs₁) (by omega)).bind ?_
  intro body s₃ hbody
  exact hrest condition body s₃ (hcondition.append (hseparator.append hbody))

theorem branch_scans (hd : descend.Tracks t depth) (place : Place) (hs : s.Valid t)
    (hk : s.current.kind ≠ .eof ∧ ∀ name, s.current.kind ≠ .ident name)
    (hdepth : s.ahead.length ≤ depth) :
    Outcome (branch descend place) s (fun tree => Scans t s [tree]) ReadError.Any := by
  have hmark := Scans.mark hs hk
  have hs' := hmark.passes.valid hs
  have hlt := (takes_advance hs hk.1).length_lt
  unfold branch
  rw [outcome_bind, outcome_advance]
  refine guarded_scans hd place .then_ isBranchEnd hs' (by omega) ?_
  intro condition body s₁ hbody
  have hlen := hbody.passes.length_le
  refine (alternative_scans hd place (hbody.passes.valid hs') (by omega)).bind ?_
  rintro ⟨other, stop⟩ s₂ hother
  exact Scans.wrap ((hmark.append hbody).append hother) rfl trivial rfl rfl

theorem repetition_scans (hd : descend.Tracks t depth) (hs : s.Valid t)
    (hk : s.current.kind ≠ .eof ∧ ∀ name, s.current.kind ≠ .ident name)
    (hdepth : s.ahead.length ≤ depth) :
    Outcome (repetition descend) s (fun tree => Scans t s [tree]) ReadError.Any := by
  have hmark := Scans.mark hs hk
  have hs' := hmark.passes.valid hs
  have hlt := (takes_advance hs hk.1).length_lt
  unfold repetition
  rw [outcome_bind, outcome_advance]
  refine guarded_scans hd .command .do_ isEnd hs' (by omega) ?_
  intro condition body s₁ hbody
  rw [expectWord, outcome_bind, outcome_expect]
  split
  next hclose =>
    exact Scans.wrap ((hmark.append hbody).append (Scans.mark (hbody.passes.valid hs') (by simp [hclose])))
      rfl trivial rfl rfl
  next => trivial

/-! ## jumps and trailing conditions -/

theorem jump_scans (hd : descend.Tracks t depth) (hs : s.Valid t)
    (hk : s.current.kind = .keyword .return_ ∨ s.current.kind = .keyword .yield_)
    (hdepth : s.ahead.length ≤ depth) :
    Outcome (jump descend) s (fun tree => Scans t s [tree]) ReadError.Any := by
  have hplain : s.current.kind ≠ .eof ∧ ∀ name, s.current.kind ≠ .ident name := by
    rcases hk with hk | hk <;> simp [hk]
  have hmark := Scans.mark hs hplain
  have hlt := (takes_advance hs hplain.1).length_lt
  unfold jump
  rw [outcome_bind, outcome_advance]
  refine (callArguments_scans hd s.current.span.stop (hmark.passes.valid hs) (by omega)).bind ?_
  rintro ⟨args, stop⟩ s' hargs
  refine (hmark.append hargs).other_of_kind hs rfl hplain.1 ?_ ?_
  · rcases hk with hk | hk <;> simp [hk]
  · rcases hk with hk | hk <;> simp [hk]

theorem trailingKeyword_plain {kind : Token.Kind} {keyword : ConditionalKeyword}
    (h : trailingKeyword kind = some keyword) : kind ≠ .eof ∧ ∀ name, kind ≠ .ident name := by
  refine ⟨trailingKeyword_ne_eof h, ?_⟩
  rintro name rfl
  exact absurd h (by simp [trailingKeyword, ConditionalKeyword.ofKind?])

theorem modifier_scans (hd : descend.Tracks t depth) (place : Place) {tree : Tree} (hs : s.Valid t)
    (htree : Scans t s₀ [tree] s) (hdepth : s.ahead.length ≤ depth) :
    Outcome (modifier descend place tree) s (Lengthened t s₀ s) ReadError.Any := by
  unfold modifier
  rw [outcome_bind, outcome_current]
  split
  next keyword hkeyword =>
    have hplain := trailingKeyword_plain hkeyword
    have hmark := Scans.mark hs hplain
    have hlt := (takes_advance hs hplain.1).length_lt
    rw [outcome_bind, outcome_advance]
    refine (hd.reads .expression place (hmark.passes.valid hs) (by omega) (by simp)).bind ?_
    rintro condition s' ⟨-, hcondition⟩
    exact Scans.wrap (htree.append (hmark.append hcondition)) rfl trivial rfl rfl
  next => exact rfl

end Parse

end Collate
