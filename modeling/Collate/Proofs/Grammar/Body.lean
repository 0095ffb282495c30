import Collate.Grammar.Control
import Collate.Grammar.Definition
import Collate.Proofs.Grammar.Call

/-!
# Constructs with bodies in their places

Definitions, classes, conditionals and loops begin with their reserved word and end with `end`, or
with their only statement.  A trailing condition stands behind the statement it governs.
-/

namespace Collate

namespace Parse
open Cursor
variable {t : Text} {descend : Descent} {depth : Nat} {s s₀ : Cursor}

/-! ## definitions -/

theorem singleton_lists (hs : s.Valid t) :
    Outcome singleton s (fun receiver => Lists t s receiver.toList) (ReadError.Proper t) := by
  unfold singleton
  rw [outcome_bind, outcome_get]
  split
  next h =>
    have ht := takes_advance hs (by rw [h.1]; simp)
    have hs' := ht.valid hs
    have hdot : s.advance.current.kind = .dot := h.2
    have ht' := takes_advance hs' (by rw [hdot]; simp)
    have hleaf : Tree.ReadFrom t s (.leaf s.current.span) s.advance :=
      Tree.readFrom_mk hs ht (by simp [Node.children]) (Tree.InRow.nil _ _) trivial
    rw [outcome_bind, outcome_advance, outcome_bind, outcome_advance]
    exact (Lists.single hs hleaf).passes_right hs ht'.passes
  next => exact Lists.nil s

theorem definedName_passes (hs : s.Valid t) :
    Outcome definedName s (fun _ s' => s.Passes s') (ReadError.Proper t) := by
  have hrest {name : Text} (hk : s.current.kind ≠ .eof) :
      Outcome (do
          let s ← get
          if s.current.kind = .assign ∧ s.current.spaceBefore = false ∧ s.second.kind = .leftParen then
            let _ ← advance
            return name ++ ['=']
          else
            return name)
        s.advance (fun _ s' => s.Passes s') (ReadError.Proper t) := by
    have ht := takes_advance hs hk
    have hs' := ht.valid hs
    rw [outcome_bind, outcome_get]
    split
    next h => exact ht.passes.trans (takes_advance hs' (by rw [h.1]; simp)).passes
    next => exact ht.passes
  unfold definedName
  rw [outcome_bind, outcome_advance]
  dsimp only
  split
  next hk => exact hrest (by rw [hk]; simp)
  next hk => exact hrest (by rw [hk]; simp)
  next hk => exact hrest (by rw [hk]; simp)
  next hk => exact hrest (by rw [hk]; simp)
  next => exact proper_here hs (by simp)

theorem signature_lists (hd : descend.Sound t depth) (place : Place) (hs : s.Valid t)
    (hdepth : s.ahead.length < depth) :
    Outcome (signature descend place) s (Lists t s) (ReadError.Proper t) := by
  unfold signature
  rw [outcome_bind, outcome_sees]
  split
  next hparen =>
    have hk := of_decide_eq_true hparen
    have ht := takes_advance hs (by rw [hk]; simp)
    have hs' := ht.valid hs
    have hlt := ht.length_lt
    rw [outcome_bind, outcome_advance]
    refine (parameters_lists hd .free (some .rightParen) hs' (by omega)).bind ?_
    intro params s' hparams
    have hs'' := hparams.passes.valid hs'
    rw [outcome_bind, outcome_expect]
    split
    next hclose =>
      have ht' := takes_advance hs'' (by rw [hclose]; simp)
      exact (hparams.passes_right hs' ht'.passes).passes_left ht.passes hs
    next => exact proper_here hs'' (by simp)
  next =>
    simp only [outcome_bind, outcome_sameLine, outcome_peek]
    split
    next => exact parameters_lists hd place none hs hdepth
    next => exact Lists.nil s

/-- a definition behind its name: the parameters, and a body of one kind or the other -/
theorem definitionRest_reads (hd : descend.Sound t depth) (place : Place) {name : Text}
    {receiver : Option Tree} {s' : Cursor} (hs : s.Valid t) (hk : s.current.kind ≠ .eof)
    (hreceiver : Lists t s.advance receiver.toList s') (hdepth : s'.ahead.length < depth) :
    Outcome (do
        let params ← signature descend place
        if ← eat .assign then
          let body ← descend .statement place
          return ⟨.definition s.current.span name receiver params [body],
            s.current.span.join body.span⟩
        else
          let body ← statements descend .free isEnd
          let closing ← expectWord .end_
          return ⟨.definition s.current.span name receiver params body,
            s.current.span.join closing.span⟩)
      s' (Tree.ReadFrom t s) (ReadError.Proper t) := by
  have ht := takes_advance hs hk
  have hs' := ht.valid hs
  have hs'' := hreceiver.passes.valid hs'
  have hkeyword : ∃ text, t.slice? s.current.span = some text := ⟨_, (hs.current_fits hk).slice⟩
  have hstop := ht.stop_le hs
  refine (signature_lists hd place hs'' hdepth).bind ?_
  intro params s₁ hparams
  have hs₁ := hparams.passes.valid hs''
  have hlen := hparams.passes.length_le
  rw [outcome_bind, outcome_eat]
  split
  next heq =>
    have ht₁ := takes_advance hs₁ (by rw [heq]; simp)
    have hlt := ht₁.length_lt
    refine (hd .statement place _ (ht₁.valid hs₁) (by omega) (by simp)).bind ?_
    intro body s₂ hbody
    have hfront := Lists.append hs' hreceiver (hparams.passes_right hs'' ht₁.passes)
    have hnode (r p b : List Tree) : r ++ (p ++ b) = (r ++ p) ++ b := (List.append_assoc r p b).symm
    exact hfront.upTo hs hk hbody (hnode _ _ _) (fun hrow => ⟨hkeyword, rfl, by rw [hnode]; exact hrow⟩)
  next =>
    refine (statements_lists hd .free _ hs₁ (by omega)).bind ?_
    intro body s₂ hbody
    have hall := Lists.append hs' hreceiver (Lists.append hs'' hparams hbody)
    have hs₂ := hall.passes.valid hs'
    rw [expectWord, outcome_bind, outcome_expect]
    split
    next hclose =>
      have hk₂ : s₂.current.kind ≠ .eof := by rw [hclose]; simp
      have hne := (takes_advance hs₂ hk₂).nonempty hs₂
      exact Lists.enclosed hall hs hk hk₂
        ⟨hkeyword, rfl, hall.row.widen hstop (Nat.le_of_lt hne)⟩
    next => exact proper_here hs₂ (by simp)

theorem definition_reads (hd : descend.Sound t depth) (place : Place) (hs : s.Valid t)
    (hk : s.current.kind ≠ .eof) (hdepth : s.ahead.length ≤ depth) :
    ReadsTree t (definition descend place) s := by
  have ht := takes_advance hs hk
  have hs' := ht.valid hs
  have hlt := ht.length_lt
  unfold ReadsTree definition
  rw [outcome_bind, outcome_advance]
  refine (singleton_lists hs').bind ?_
  intro receiver s₁ hreceiver
  refine (definedName_passes (hreceiver.passes.valid hs')).bind ?_
  intro name s₂ hname
  have hall := (hreceiver.passes_right hs' hname).passes_right hs' (passes_locals s₂ [])
  have hlen : ({ s₂ with locals := [] } : Cursor).ahead.length < depth := by
    have := hall.passes.length_le
    omega
  refine withinScope_outcome (fun _ _ _ h => h.congr rfl rfl) ?_
  rw [if_pos rfl]
  exact definitionRest_reads hd place hs hk hall hlen

/-! ## classes and modules -/

theorem superclass_lists (hd : descend.Sound t depth) (place : Place) (keyword : Token)
    (hs : s.Valid t) (hdepth : s.ahead.length < depth) :
    Outcome (superclass descend place keyword) s (Lists t s) (ReadError.Proper t) := by
  unfold superclass
  rw [outcome_bind, outcome_peek]
  split
  next h =>
    have ht := takes_advance hs (by rw [h.2]; simp)
    have hlt := ht.length_lt
    rw [outcome_bind, outcome_advance]
    refine (hd .expression place _ (ht.valid hs) (by omega) (by simp)).bind ?_
    intro parent s' hparent
    exact (Lists.single (ht.valid hs) hparent).passes_left ht.passes hs
  next => exact Lists.nil s

theorem closedStatements_lists (hd : descend.Sound t depth) (stop : Token.Kind → Bool)
    (hs : s.Valid t) (hdepth : s.ahead.length < depth) :
    Outcome (withinScope .closed (statements descend .free stop)) s (Lists t s)
      (ReadError.Proper t) := by
  have hin := passes_locals s []
  rw [outcome_withinScope, if_pos rfl]
  refine (statements_lists hd .free stop (hin.valid hs) hdepth).mono ?_
  intro body s' hbody
  exact (hbody.passes_left hin hs).passes_right hs (passes_locals s' s.locals)

theorem namespaced_reads (hd : descend.Sound t depth) (place : Place) (hs : s.Valid t)
    (hk : s.current.kind ≠ .eof) (hdepth : s.ahead.length ≤ depth) :
    ReadsTree t (namespaced descend place) s := by
  have ht := takes_advance hs hk
  have hs' := ht.valid hs
  have hlt := ht.length_lt
  unfold ReadsTree namespaced
  rw [outcome_bind, outcome_advance]
  refine (hd .term place _ hs' (by omega) (by simp)).bind ?_
  intro name s₁ hname
  have hs₁ := hname.takes.valid hs'
  have hlt₁ := hname.takes.length_lt
  refine (superclass_lists hd place _ hs₁ (by omega)).bind ?_
  intro parents s₂ hparents
  have hs₂ := hparents.passes.valid hs₁
  have hlt₂ := hparents.passes.length_le
  refine (closedStatements_lists hd isEnd hs₂ (by omega)).bind ?_
  intro body s₃ hbody
  have hall := Lists.cons hs' hname (Lists.append hs₁ hparents hbody)
  have hs₃ := hall.passes.valid hs'
  rw [expectWord, outcome_bind, outcome_expect]
  split
  next hclose => exact Lists.enclosed hall hs hk (by rw [hclose]; simp) trivial
  next => exact proper_here hs₃ (by simp)

/-! ## conditionals -/

/-- the other branch of a conditional and the end of it all, which is behind all of that -/
structure Concluded (t : Text) (s : Cursor) (other : List Tree) (stop : Nat) (s' : Cursor) :
    Prop where
  placed : ∀ tree ∈ other, tree.Placed t
  takes : ∃ mid start, s.Passes mid ∧ mid.Takes s' ⟨start, stop⟩
  row : Tree.InRow other s.offset stop

theorem alternative_concluded (hd : descend.Sound t depth) (place : Place) (hs : s.Valid t)
    (hdepth : s.ahead.length < depth) :
    Outcome (alternative descend place) s (fun r => Concluded t s r.1 r.2) (ReadError.Proper t) := by
  have hrest {body : List Tree} {s' : Cursor} (hbody : Lists t s body s') :
      Outcome (do
          let closing ← expectWord .end_
          return (body, closing.span.stop))
        s' (fun r => Concluded t s r.1 r.2) (ReadError.Proper t) := by
    have hs' := hbody.passes.valid hs
    rw [expectWord, outcome_bind, outcome_expect]
    split
    next hclose =>
      have ht := takes_advance hs' (by rw [hclose]; simp)
      have hne := ht.nonempty hs'
      exact ⟨hbody.placed, ⟨s', _, hbody.passes, ht⟩, hbody.row.widen (Nat.le_refl _) (Nat.le_of_lt hne)⟩
    next => exact proper_here hs' (by simp)
  unfold alternative
  rw [outcome_bind, outcome_sees]
  split
  next helsif =>
    have hk := of_decide_eq_true helsif
    refine (hd .branch place s hs hdepth (fun _ => by rw [hk]; simp)).bind ?_
    intro nested s' hnested
    refine ⟨by simpa using hnested.placed, ⟨s, nested.span.start, Passes.refl s, hnested.takes⟩, ?_⟩
    exact Tree.InRow.single (Nat.le_of_eq hnested.takes.start_eq.symm) (Nat.le_refl _)
  next =>
    rw [outcome_bind, outcome_eat]
    split
    next helse =>
      have ht := takes_advance hs (by rw [helse]; simp)
      have hlt := ht.length_lt
      refine (statements_lists hd .free isEnd (ht.valid hs) (by omega)).bind ?_
      intro body s' hbody
      exact hrest (hbody.passes_left ht.passes hs)
    next => exact hrest (Lists.nil s)

theorem eat_passes (hs : s.Valid t) {kind : Token.Kind} (hkind : kind ≠ .eof) :
    Outcome (eat kind) s (fun _ s' => s.Passes s') (ReadError.Proper t) := by
  rw [outcome_eat]
  split
  next hk => exact (takes_advance hs (by rw [hk]; exact hkind)).passes
  next => exact Passes.refl s

theorem guarded_lists (hd : descend.Sound t depth) (place : Place) (separator : Keyword)
    (stop : Token.Kind → Bool) {β : Type}
    {rest : Tree → List Tree → Parse β} {R : β → Cursor → Prop} (hs : s.Valid t)
    (hdepth : s.ahead.length < depth)
    (hrest : ∀ condition body s', Lists t s (condition :: body) s' →
      Outcome (rest condition body) s' R (ReadError.Proper t)) :
    Outcome (do
        let condition ← descend .expression place
        let _ ← eat (.keyword separator)
        let body ← statements descend .free stop
        rest condition body)
      s R (ReadError.Proper t) := by
  refine (hd .expression place s hs hdepth (by simp)).bind ?_
  intro condition s₁ hcondition
  have hs₁ := hcondition.takes.valid hs
  have hlt := hcondition.takes.length_lt
  refine (eat_passes hs₁ (by simp)).bind ?_
  intro _ s₂ heat
  have hlen := heat.length_le
  refine (statements_lists hd .free stop (heat.valid hs₁) (by omega)).bind ?_
  intro body s₃ hbody
  exact hrest condition body s₃ (Lists.cons hs hcondition (hbody.passes_left heat hs₁))

theorem branch_reads (hd : descend.Sound t depth) (place : Place) (hs : s.Valid t)
    (hk : s.current.kind ≠ .eof) (hdepth : s.ahead.length ≤ depth) :
    ReadsTree t (branch descend place) s := by
  have ht := takes_advance hs hk
  have hs' := ht.valid hs
  have hlt := ht.length_lt
  unfold ReadsTree branch
  rw [outcome_bind, outcome_advance]
  refine guarded_lists hd place .then_ isBranchEnd hs' (by omega) ?_
  intro condition body s₁ hbody
  have hs₁ := hbody.passes.valid hs'
  have hlen := hbody.passes.length_le
  refine (alternative_concluded hd place hs₁ (by omega)).bind ?_
  rintro ⟨other, stop⟩ s₂ hother
  obtain ⟨mid, start, hpasses, hlast⟩ := hother.takes
  have hall := hbody.passes.trans hpasses
  have h₁ := ht.nonempty hs
  have h₂ := ht.stop_le hs
  have h₃ := hbody.passes.offset_le hs'
  have h₄ := hpasses.offset_le hs₁
  have h₅ : start = mid.offset := hlast.start_eq
  have h₆ : start < stop := hlast.nonempty (hall.valid hs')
  refine Tree.readFrom_mk hs (ht.passes_takes hall hlast) ?_ ?_ trivial
  · intro child hchild
    change child ∈ (condition :: body) ++ other at hchild
    rcases List.mem_append.mp hchild with h | h
    · exact hbody.placed child h
    · exact hother.placed child h
  · have hrow := (hbody.row.widen (Nat.le_trans (Nat.le_of_lt h₁) h₂) (Nat.le_refl _)).append hother.row
      (Nat.le_refl _) (by omega) (by omega)
    exact hrow

theorem repetition_reads (hd : descend.Sound t depth) (hs : s.Valid t)
    (hk : s.current.kind ≠ .eof) (hdepth : s.ahead.length ≤ depth) :
    ReadsTree t (repetition descend) s := by
  have ht := takes_advance hs hk
  have hs' := ht.valid hs
  have hlt := ht.length_lt
  unfold ReadsTree repetition
  rw [outcome_bind, outcome_advance]
  refine guarded_lists hd .command .do_ isEnd hs' (by omega) ?_
  intro condition body s₁ hbody
  have hs₁ := hbody.passes.valid hs'
  rw [expectWord, outcome_bind, outcome_expect]
  split
  next hclose =>
    rw [← List.append_nil body] at hbody
    exact Lists.enclosed hbody hs hk (by rw [hclose]; simp) trivial
  next => exact proper_here hs₁ (by simp)

/-! ## jumps and trailing conditions -/

theorem jump_reads (hd : descend.Sound t depth) (hs : s.Valid t) (hk : s.current.kind ≠ .eof)
    (hdepth : s.ahead.length ≤ depth) : ReadsTree t (jump descend) s := by
  have ht := takes_advance hs hk
  have hlt := ht.length_lt
  unfold ReadsTree jump
  rw [outcome_bind, outcome_advance]
  refine (callArguments_supplied hd s.current.span.stop (ht.valid hs) (by omega)).bind ?_
  rintro ⟨args, stop⟩ s' hargs
  obtain ⟨hall, hrow, -⟩ := Supplied.takes hargs hs ht
  refine Tree.readFrom_mk hs hall hargs.placed ?_ trivial
  exact hrow.widen (Nat.le_of_lt (ht.nonempty hs)) (Nat.le_refl _)

theorem trailingKeyword_ne_eof {kind : Token.Kind} {keyword : ConditionalKeyword}
    (h : trailingKeyword kind = some keyword) : kind ≠ .eof := by
  rintro rfl
  exact absurd h (by simp [trailingKeyword, ConditionalKeyword.ofKind?])

theorem modifier_extended (hd : descend.Sound t depth) (place : Place) {tree : Tree}
    (hs₀ : s₀.Valid t) (htree : tree.ReadFrom t s₀ s) (hdepth : s.ahead.length ≤ depth) :
    Outcome (modifier descend place tree) s (Extended t s₀ s) (ReadError.Proper t) := by
  have hs := htree.takes.valid hs₀
  unfold modifier
  rw [outcome_bind, outcome_current]
  split
  next keyword hkeyword =>
    have ht := takes_advance hs (trailingKeyword_ne_eof hkeyword)
    have hs' := ht.valid hs
    have hlt := ht.length_lt
    rw [outcome_bind, outcome_advance]
    refine (hd .expression place _ hs' (by omega) (by simp)).bind ?_
    intro condition s' hcondition
    have hlt' := hcondition.takes.length_lt
    have h₁ := htree.placed.nonempty
    have h₂ := htree.takes.stop_le hs₀
    have h₃ := ht.passes.offset_le hs
    have h₄ := hcondition.takes.start_eq
    have h₅ := hcondition.placed.nonempty
    refine ⟨?_, by omega⟩
    rw [htree.takes.join_eq hs₀ ht.passes hcondition.takes]
    refine Tree.readFrom_mk hs₀ (htree.takes.passes_takes ht.passes hcondition.takes) ?_ ?_ trivial
    · intro child hchild
      rcases List.mem_cons.mp hchild with rfl | hchild
      · exact hcondition.placed
      · rw [List.mem_singleton.mp hchild]
        exact htree.placed
    · exact Tree.InRow.cons (Nat.le_refl _) (Nat.le_of_lt h₁) (Nat.le_refl _)
        (by show tree.span.stop ≤ condition.span.stop; omega)
        (Tree.InRow.single (by omega) (Nat.le_refl _))
  next => exact rfl

end Parse

end Collate
