import Collate.Proofs.Build.Call

/-!
# Constructs with bodies follow the grammar

Every function of the program does the steps of its namesake, so its proof goes through these steps.  What is
left at the end of each is the node that was pushed and the bounds of its span.

* `Build.branch_follows`, `Build.repetition_follows`, `Build.modifier_follows`   conditionals and loops;
* `Build.definition_follows`, `Build.namespaced_follows`                         definitions, classes, modules.
-/

namespace Collate

namespace Build
open Cursor NodeTable
variable {t : Text} {base table table' : NodeTable} {s s' : Cursor} {start : Nat}
  {build : Build.Descent} {descend : Collate.Descent}

theorem Follows.skip {α β : Type} {f : Bool → Build α} {g : Bool → Parse β}
    {Q : β → Cursor → α → NodeTable → Prop} {kind : Token.Kind} (hs : s.Ready t)
    (h : ∀ taken (s' : Cursor), s.Passes s' → Follows t table (f taken) (g taken) s' Q) :
    Follows t table (Build.eat kind >>= f) (Parse.eat kind >>= g) s Q :=
  Follows.eat hs (fun _ => h true _ (passes_advance s)) (fun _ => h false _ (Passes.refl s))

/-! ## conditionals, loops and jumps -/

theorem alternative_follows (hd : Descent.Follows t build descend) (place : Place) (hs : s.Ready t) :
    Follows t table (Build.alternative build place) (Parse.alternative descend place) s
      (fun other _ => Supplied table s.offset s.offset other) := by
  have hend {body : List Tree} {ids : List Nat} {s₁ : Cursor} {table₁ : NodeTable} {start₁ : Nat}
      (hpasses : s.Passes s₁) (hids : PushedAll table start₁ body ids table₁) (hle : s.offset ≤ start₁) :
      Follows t table₁
        (do let closing ← Build.expectWord .end_
            return (ids, closing.span.stop))
        (do let closing ← Parse.expectWord .end_
            return (body, closing.span.stop)) s₁
        (fun other _ => Supplied table s.offset s.offset other) := by
    have hs₁ := hpasses.ready hs
    refine Follows.expect hs₁ fun _ => Follows.pure ⟨⟨hids.push, hids.stands, ?_⟩, rfl, ?_⟩
    · exact fun tree hmem => Nat.le_trans hle (hids.start_le tree hmem)
    · exact Nat.le_trans (hpasses.offset_le hs.toValid) hs₁.start_le_stop
  rw [Build.alternative, Parse.alternative]
  refine Follows.sees hs ?_
  split
  next =>
    refine (hd .branch place _ _ hs).bind fun nested s' id table' _ _ hid => ?_
    exact Follows.spanOf hid.stands (Follows.pure ⟨PushedAll.single hid, rfl, hid.start_le⟩)
  next =>
    refine Follows.eat hs (fun _ => ?_) (fun _ => hend (Passes.refl s) (PushedAll.nil table s.offset)
      (Nat.le_refl _))
    rw [if_pos rfl, if_pos rfl]
    refine (statements_follows hd .free _ hs.advance).bind fun body s' ids table' hpasses _ hids => ?_
    exact hend ((passes_advance s).trans hpasses) hids hs.offset_le_advance

theorem branch_follows (hd : Descent.Follows t build descend) (place : Place) (hs : s.Ready t) :
    Follows t table (Build.branch build place) (Parse.branch descend place) s (Pushed table s.offset) := by
  rw [Build.branch, Parse.branch]
  refine Follows.advance hs ?_
  refine (hd .expression place _ _ hs.advance).bind fun condition s₁ id table₁ hpasses₁ _ hid => ?_
  have hs₁ := hpasses₁.ready hs.advance
  refine Follows.skip hs₁ fun _ s₂ hpasses₂ => ?_
  have hs₂ := hpasses₂.ready hs₁
  refine (statements_follows hd .free _ hs₂).bind fun body s₃ ids table₃ hpasses₃ hext₃ hids => ?_
  have hs₃ := hpasses₃.ready hs₂
  refine (alternative_follows hd place hs₃).bind fun other s₄ otherIds table₄ hpasses₄ hext₄ hother => ?_
  have hall := (passes_advance s).trans (hpasses₁.trans (hpasses₂.trans hpasses₃))
  have hle : s.current.span.start ≤ other.2 := Nat.le_trans (hall.offset_le hs.toValid) hother.stop_le
  dsimp only
  rw [hother.stop_eq, pushFrom_eq hle]
  refine Follows.push_last (fun child hchild => ?_) (Pushed.mk' ?_ rfl ⟨hle,
    (hall.trans hpasses₄).offset_le hs.toValid⟩)
  · rcases List.mem_cons.mp hchild with rfl | hchild
    · exact (hid.stands.extends (hext₃.trans hext₄)).lt_size
    · rcases List.mem_append.mp hchild with hchild | hchild
      · exact Stands.lt_of_mem (Stands.forall_extends hids.stands hext₄) hchild
      · exact Stands.lt_of_mem hother.pushed.stands hchild
  · simp only [pushNode, hid.push, hids.push, hother.pushed.push]

theorem repetition_follows (hd : Descent.Follows t build descend) (hs : s.Ready t) :
    Follows t table (Build.repetition build) (Parse.repetition descend) s (Pushed table s.offset) := by
  rw [Build.repetition, Parse.repetition]
  refine Follows.advance hs ?_
  refine (hd .expression .command _ _ hs.advance).bind fun condition s₁ id table₁ hpasses₁ _ hid => ?_
  have hs₁ := hpasses₁.ready hs.advance
  refine Follows.skip hs₁ fun _ s₂ hpasses₂ => ?_
  have hs₂ := hpasses₂.ready hs₁
  refine (statements_follows hd .free _ hs₂).bind fun body s₃ ids table₃ hpasses₃ hext₃ hids => ?_
  have hall := (passes_advance s).trans (hpasses₁.trans (hpasses₂.trans hpasses₃))
  refine Follows.expect (hall.ready hs) fun _ => Follows.push_last (fun child hchild => ?_)
    (Pushed.mk' ?_ rfl (join_current hs (hall.trans (passes_advance s₃)) _))
  · rcases List.mem_cons.mp hchild with rfl | hchild
    · exact (hid.stands.extends hext₃).lt_size
    · rw [List.append_nil] at hchild
      exact Stands.lt_of_mem hids.stands hchild
  · simp only [pushNode, pushAll, hid.push, hids.push]

theorem jump_follows (hd : Descent.Follows t build descend) (hs : s.Ready t) (hk : s.current.kind ≠ .eof) :
    Follows t table (Build.jump build) (Parse.jump descend) s (Pushed table s.offset) := by
  rw [Build.jump, Parse.jump]
  refine Follows.advance hs ?_
  refine (callArguments_follows hd hs.advance (hs.stop_le_advance hk)).bind
    fun args s' ids table' hpasses _ hargs => ?_
  have hle : s.current.span.start ≤ args.2 := Nat.le_trans hs.start_le_stop hargs.stop_le
  dsimp only
  rw [hargs.stop_eq, pushFrom_eq hle]
  refine Follows.push_last (fun _ => Stands.lt_of_mem hargs.pushed.stands) (Pushed.mk' ?_ rfl ⟨hle,
    ((passes_advance s).trans hpasses).offset_le hs.toValid⟩)
  simp only [pushNode, hargs.pushed.push]

theorem modifier_follows (hd : Descent.Follows t build descend) (place : Place) :
    Extending t base start (Build.modifier build place) (Parse.modifier descend place) := by
  intro tree id s table hs hle hbase h
  rw [Build.modifier, Parse.modifier]
  refine Follows.current hs ?_
  split
  next keyword hline hkeyword =>
    try rw [hline, hkeyword]
    refine Follows.advance hs ?_
    refine (hd .expression place _ _ hs.advance).bind fun condition s' conditionId table' hpasses hext hid => ?_
    have hstands := h.stands.extends hext
    refine Follows.spanOf hstands (Follows.spanOf hid.stands (Follows.push ?_ (Follows.pure
      (Lengthened.some (Pushed.mk' ?_ rfl (h.join hs ((passes_advance s).trans hpasses) _))))))
    · simp [Node.children, hstands.lt_size, hid.stands.lt_size]
    · simp only [pushNode, pushAll_single h.push, hid.push, pushAll]
  next hnone =>
    try simp only
    exact Follows.pure (Lengthened.none h)

/-! ## definitions, classes and modules -/

theorem singleton_follows (hs : s.Ready t) :
    Follows t table Build.singleton Parse.singleton s (fun tree _ => PushedOption table tree) := by
  rw [Build.singleton, Parse.singleton]
  refine Follows.lookUp (sees_eq hs) (Follows.lookUp (second_eq hs) (Follows.state ?_))
  by_cases h : s.current.kind = .keyword .self_ ∧ s.second.kind = .dot
  · rw [if_pos (by simpa using h), if_pos h]
    refine Follows.advance hs (Follows.push (fun _ hmem => nomatch hmem) (Follows.advance hs.advance
      (Follows.pure ⟨?_, .cons (stands_push _ _ _ _) .nil⟩)))
    simp only [pushOption, pushTree_leaf]
  · rw [if_neg (by simpa using h), if_neg h]
    exact Follows.pure (PushedOption.none table)

theorem definedName_follows (hs : s.Ready t) :
    Follows t table Build.definedName Parse.definedName s
      (fun name _ name' table' => name' = name ∧ table' = table) := by
  have hs' := hs.advance
  have hrest {name : Text} : Follows t table
      (do let next ← Build.current
          if decide (next.kind = .assign) && !next.spaceBefore
              && decide ((← Build.second).kind = .leftParen) then
            let _ ← Build.advance
            return name ++ ['=']
          else
            return name)
      (do let s ← get
          if s.current.kind = .assign ∧ s.current.spaceBefore = false ∧ s.second.kind = .leftParen then
            let _ ← Parse.advance
            return name ++ ['=']
          else
            return name) s.advance
      (fun name _ name' table' => name' = name ∧ table' = table) := by
    refine Follows.lookUp (current_eq hs') (Follows.lookUp (second_eq hs') (Follows.state ?_))
    by_cases h : s.advance.current.kind = .assign ∧ s.advance.current.spaceBefore = false ∧
        s.advance.second.kind = .leftParen
    · rw [if_pos (by simpa [and_assoc] using h), if_pos h]
      exact Follows.advance hs' (Follows.pure ⟨rfl, rfl⟩)
    · rw [if_neg (by simpa [and_assoc] using h), if_neg h]
      exact Follows.pure ⟨rfl, rfl⟩
  rw [Build.definedName, Parse.definedName]
  refine Follows.advance hs ?_
  dsimp only
  split
  next hk =>
    try rw [hk]
    simp only [pure_bind]
    exact hrest
  next hk =>
    try rw [hk]
    simp only [pure_bind]
    exact hrest
  next hk =>
    try rw [hk]
    simp only [pure_bind]
    exact hrest
  next hk =>
    try rw [hk]
    simp only [pure_bind]
    exact hrest
  next hident hconst hop hkeyword =>
    try simp only
    exact (Follows.refuse hs.current_slice (Q := fun _ _ _ _ => False)).bind fun _ _ _ _ _ _ h => h.elim

theorem signature_follows (hd : Descent.Follows t build descend) (place : Place) (hs : s.Ready t) :
    Follows t table (Build.signature build place) (Parse.signature descend place) s
      (fun trees _ => PushedAll table s.offset trees) := by
  rw [Build.signature, Parse.signature]
  refine Follows.sees hs ?_
  split
  next =>
    refine Follows.advance hs ?_
    refine (parameters_follows hd .free _ hs.advance).bind fun params s' ids table' hpasses _ hids => ?_
    refine Follows.expect (hpasses.ready hs.advance) fun _ => Follows.pure ⟨hids.push, hids.stands, ?_⟩
    exact fun tree hmem => Nat.le_trans hs.offset_le_advance (hids.start_le tree hmem)
  next =>
    refine Follows.sameLine hs (Follows.peek hs ?_)
    split
    next => exact parameters_follows hd place none hs
    next => exact Follows.pure (PushedAll.nil table s.offset)

theorem definition_follows (hd : Descent.Follows t build descend) (place : Place) (hs : s.Ready t) :
    Follows t table (Build.definition build place) (Parse.definition descend place) s
      (Pushed table s.offset) := by
  rw [Build.definition, Parse.definition]
  refine Follows.advance hs ?_
  refine (singleton_follows hs.advance).bind fun receiver s₁ receiverId table₁ hpasses₁ _ hreceiver => ?_
  have hs₁ := hpasses₁.ready hs.advance
  refine (definedName_follows hs₁).bind fun name s₂ name' table₂ hpasses₂ _ hname => ?_
  have hs₂ := hpasses₂.ready hs₁
  obtain ⟨rfl, rfl⟩ := hname
  refine Follows.withinScope ?_
  have hin : Cursor.Ready t { s₂ with locals := if Parse.Sight.closed = .closed then [] else s₂.locals } :=
    hs₂.locals _
  refine (signature_follows hd place hin).bind fun params s₃ ids table₃ hpasses₃ hext₃ hids => ?_
  have hs₃ := hpasses₃.ready hin
  have hall : s.Passes s₃ := (passes_advance s).trans (hpasses₁.trans (hpasses₂.trans hpasses₃))
  -- the node over the receiver, the parameters and either kind of body
  have hnode {body : List Tree} {bodyIds : List Nat} {table₄ : NodeTable} {start₄ : Nat} {s₄ : Cursor}
      {span : Span} (hext₄ : table₃.Extends table₄) (hbody : PushedAll table₃ start₄ body bodyIds table₄)
      (hspan : s.offset ≤ span.stop ∧ span.start ≤ s₄.offset) :
      Follows t table₄ (Build.push (.definition s.current.span name' receiverId ids bodyIds) span)
        (pure ⟨.definition s.current.span name' receiver params body, span⟩) s₄
        (fun tree s' => Pushed table s.offset tree { s' with locals := s₂.locals }) := by
    refine Follows.push_last (fun child hchild => ?_) (Pushed.mk' ?_ rfl hspan)
    · rcases List.mem_append.mp hchild with hchild | hchild
      · exact Stands.lt_of_mem (Stands.forall_extends hreceiver.stands (hext₃.trans hext₄)) hchild
      · rcases List.mem_append.mp hchild with hchild | hchild
        · exact Stands.lt_of_mem (Stands.forall_extends hids.stands hext₄) hchild
        · exact Stands.lt_of_mem hbody.stands hchild
    · simp only [pushNode, hreceiver.push, hids.push, hbody.push]
  refine Follows.eat hs₃ (fun _ => ?_) (fun _ => ?_)
  · rw [if_pos rfl, if_pos rfl]
    refine (hd .statement place _ _ hs₃.advance).bind fun body s₄ id table₄ hpasses₄ hext₄ hbody => ?_
    exact Follows.spanOf hbody.stands (hnode hext₄ (PushedAll.single hbody)
      (join_current hs (hall.trans ((passes_advance s₃).trans hpasses₄)) _))
  · rw [if_neg (by simp), if_neg (by simp)]
    refine (statements_follows hd .free _ hs₃).bind fun body s₄ bodyIds table₄ hpasses₄ hext₄ hbody => ?_
    exact Follows.expect (hpasses₄.ready hs₃) fun _ => hnode hext₄ hbody
      (join_current hs (hall.trans (hpasses₄.trans (passes_advance s₄))) _)

/-- the superclass stands in front of the body, whatever the body is -/
structure OpensAll (base : NodeTable) (trees : List Tree) (ids : List Nat) (table : NodeTable) : Prop where
  opens : Opens base trees ids table
  stands : List.Forall₂ table.Stands ids trees

theorem superclass_follows (hd : Descent.Follows t build descend) (place : Place) {keyword : Token}
    (hs : s.Ready t) :
    Follows t table (Build.superclass build place keyword) (Parse.superclass descend place keyword) s
      (fun trees _ => OpensAll table trees) := by
  rw [Build.superclass, Parse.superclass]
  refine Follows.peek hs ?_
  by_cases h : keyword.kind = .keyword .class_ ∧ s.current.kind = .op ['<']
  · rw [if_pos h, if_pos h]
    refine Follows.advance hs ?_
    refine (hd .expression place _ _ hs.advance).bind fun parent s' id table' _ _ hid => ?_
    exact Follows.pure ⟨Opens.single hid.isRun hid.push, .cons hid.stands .nil⟩
  · rw [if_neg h, if_neg h]
    exact Follows.pure ⟨Opens.nil table, .nil⟩

theorem namespaced_follows (hd : Descent.Follows t build descend) (place : Place) (hs : s.Ready t) :
    Follows t table (Build.namespaced build place) (Parse.namespaced descend place) s
      (Pushed table s.offset) := by
  rw [Build.namespaced, Parse.namespaced]
  refine Follows.advance hs ?_
  refine (hd .term place _ _ hs.advance).bind fun name s₁ id table₁ hpasses₁ _ hid => ?_
  have hs₁ := hpasses₁.ready hs.advance
  refine (superclass_follows hd place hs₁).bind fun parents s₂ parentIds table₂ hpasses₂ hext₂ hparents => ?_
  have hs₂ := hpasses₂.ready hs₁
  refine (Follows.withinScope (Q := fun body _ => PushedAll table₂ s₂.offset body)
    (statements_follows hd .free _ (hs₂.locals _))).bind fun body s₃ bodyIds table₃ hpasses₃ hext₃ hbody => ?_
  have hall : s.Passes s₃ := (passes_advance s).trans (hpasses₁.trans (hpasses₂.trans hpasses₃))
  refine Follows.expect (hall.ready hs) fun _ => Follows.push_last (fun child hchild => ?_)
    (Pushed.mk' ?_ rfl (join_current hs (hall.trans (passes_advance s₃)) _))
  · rcases List.mem_cons.mp hchild with rfl | hchild
    · exact (hid.stands.extends (hext₂.trans hext₃)).lt_size
    · rcases List.mem_append.mp hchild with hchild | hchild
      · exact Stands.lt_of_mem (Stands.forall_extends hparents.stands hext₃) hchild
      · exact Stands.lt_of_mem hbody.stands hchild
  · have hfront := (Opens.single hid.isRun hid.push).trans hparents.opens
    have hpush : table.pushAll (name :: (parents ++ body)) = (table₃, id :: (parentIds ++ bodyIds)) :=
      hfront _ _ _ hbody.push
    simp only [pushNode, hpush]

end Build

end Collate
