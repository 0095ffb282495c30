import Collate.Proofs.Derivation.Statement
import Collate.Proofs.Gather.Argument

/-!
# Every phrase gives an ordinary tree

All constructs but calls, jumps, indices, arrays and literals have plain children only.  Jumps, indices
and arrays keep the slots of their argument lists, by which they are told from each other.

* `Tree.Ordinary.listed`     a construct with an argument list;
* `Parse.jump_ordinary`, `Parse.array_ordinary`, `Parse.access_ordinary`   the readers of these;
* `Parse.phrase_arranges`    all phrases, down to a depth;
* `Parse.program_arranges`   a whole file.
-/

namespace Collate

theorem Tree.Ordinary.listed {t : Text} (place : Place) (front : List Tree) {items : List Tree}
    {slots : List Slot} {span : Span} (hlists : Slot.Lists place (front ++ items) items slots)
    (hstand : Slot.Stand t span slots) (hitems : Tree.Items t items)
    (hfront : ∀ tree ∈ front, tree.Ordinary t) : Tree.Ordinary t ⟨.other (front ++ items), span⟩ := by
  have hplain : ∀ tree ∈ front, tree.node.Plain := fun tree hmem => (hfront tree hmem).plain
  refine ⟨.mk (.listed hlists hstand hplain hitems.gathered) fun child hmem => ?_, ⟨rfl, rfl⟩⟩
  rcases List.mem_append.mp hmem with hmem | hmem
  · exact (hfront child hmem).arranged
  · exact hitems.arranged child hmem

namespace Parse
open Cursor
variable {t : Text} {descend : Descent} {place : Place} {s : Cursor}

/-! ## definitions, classes and modules -/

theorem singleton_arranges : Keeps t singleton (fun receiver => ∀ tree ∈ receiver, tree.Ordinary t) := by
  unfold singleton
  refine moves_get.seq fun s => ?_
  split
  next =>
    refine moves_advance.seq fun receiver => moves_advance.seq fun _ => .pure ?_
    have hleaf : Tree.Ordinary t (.leaf receiver.span) := .leaf ⟨rfl, rfl⟩ rfl
    simpa using hleaf
  next => exact .pure (by simp)

theorem definedName_moves : Moves t definedName := by
  have hrest (name : Text) : Moves t (do
      let s ← get
      if s.current.kind = .assign ∧ s.current.spaceBefore = false ∧ s.second.kind = .leftParen then
        let _ ← advance
        return name ++ ['=']
      else
        return name) := by
    refine moves_get.seq fun s => ?_
    split
    next => exact moves_advance.seq fun _ => .pure trivial
    next => exact .pure trivial
  unfold definedName
  refine moves_advance.seq fun token => ?_
  dsimp only
  split
  next => exact hrest _
  next => exact hrest _
  next => exact hrest _
  next => exact hrest _
  next => exact fun _ _ => trivial

theorem signature_arranges (hd : descend.Arranges t) :
    Keeps t (signature descend place) (fun params => ∀ tree ∈ params, tree.Ordinary t) := by
  unfold signature
  refine (moves_sees _).seq fun paren => ?_
  split
  next =>
    exact moves_advance.seq fun _ => (parameters_arranges hd _).bind fun params hparams =>
      (moves_expect _ _).seq fun _ => .pure hparams
  next =>
    refine moves_sameLine.seq fun _ => moves_peek.seq fun _ => ?_
    split
    next => exact parameters_arranges hd none
    next => exact .pure (by simp)

theorem definition_arranges (hd : descend.Arranges t) : Keeps t (definition descend place) (Tree.Ordinary t) := by
  unfold definition
  refine moves_advance.seq fun keyword => singleton_arranges.bind fun receiver hreceiver =>
    definedName_moves.seq fun name => .withinScope ?_ _
  refine (signature_arranges hd).bind fun params hparams => (moves_eat _).seq fun endless => ?_
  -- the receiver, the parameters and the statements of the body
  have hchildren {body : List Tree} (hbody : ∀ tree ∈ body, tree.Ordinary t) :
      ∀ child ∈ receiver.toList ++ (params ++ body), child.Ordinary t := by
    intro child hmem
    rcases List.mem_append.mp hmem with hmem | hmem
    · exact hreceiver child (Option.mem_toList.mp hmem)
    · exact (List.mem_append.mp hmem).elim (hparams child) (hbody child)
  split
  next =>
    refine (hd.ordinary .statement place).bind fun body hbody => .pure (.of_children ⟨rfl, rfl⟩ ?_)
    exact hchildren (by simpa using hbody)
  next =>
    exact ((hd.ordinary .statement .free).statements _).bind fun body hbody =>
      (moves_expect _ _).seq fun _ => .pure (.of_children ⟨rfl, rfl⟩ (hchildren hbody))

theorem superclass_arranges (hd : descend.Arranges t) (keyword : Token) :
    Keeps t (superclass descend place keyword) (fun parents => ∀ tree ∈ parents, tree.Ordinary t) := by
  unfold superclass
  refine moves_peek.seq fun kind => ?_
  split
  next =>
    exact moves_advance.seq fun _ => (hd.ordinary .expression place).bind fun parent hparent =>
      .pure (by simpa using hparent)
  next => exact .pure (by simp)

theorem namespaced_arranges (hd : descend.Arranges t) : Keeps t (namespaced descend place) (Tree.Ordinary t) := by
  unfold namespaced
  refine moves_advance.seq fun keyword => (hd.ordinary .term place).bind fun name hname =>
    (superclass_arranges hd keyword).bind fun parents hparents =>
    (((hd.ordinary .statement .free).statements isEnd).withinScope _).bind fun body hbody =>
    (moves_expect _ _).seq fun _ => .pure (.of_children ⟨rfl, rfl⟩ fun child hmem => ?_)
  rcases List.mem_cons.mp hmem with rfl | hmem
  · exact hname
  · exact (List.mem_append.mp hmem).elim (hparents child) (hbody child)

/-! ## conditionals and loops -/

theorem alternative_arranges (hd : descend.Arranges t) :
    Keeps t (alternative descend place) (fun r => ∀ tree ∈ r.1, tree.Ordinary t) := by
  have hclose {body : List Tree} (hbody : ∀ tree ∈ body, tree.Ordinary t) :
      Keeps t (do
        let closing ← expectWord .end_
        return (body, closing.span.stop)) (fun r => ∀ tree ∈ r.1, tree.Ordinary t) :=
    (moves_expect _ _).seq fun _ => .pure hbody
  unfold alternative
  refine (moves_sees _).seq fun elsif => ?_
  split
  next => exact (hd.ordinary .branch place).bind fun nested hnested => .pure (by simpa using hnested)
  next =>
    refine (moves_eat _).seq fun otherwise => ?_
    dsimp only
    split
    next => exact ((hd.ordinary .statement .free).statements _).bind fun body hbody => hclose hbody
    next => exact hclose (by simp)

theorem conditional_ordinary {keyword : ConditionalKeyword} {keywordSpan span : Span} {trailing : Bool}
    {condition : Tree} {body other : List Tree} (hcondition : condition.Ordinary t)
    (hbody : ∀ tree ∈ body, tree.Ordinary t) (hother : ∀ tree ∈ other, tree.Ordinary t) :
    Tree.Ordinary t ⟨.conditional keyword keywordSpan trailing condition body other, span⟩ := by
  refine .of_children ⟨rfl, rfl⟩ fun child hmem => ?_
  rcases List.mem_cons.mp hmem with rfl | hmem
  · exact hcondition
  · exact (List.mem_append.mp hmem).elim (hbody child) (hother child)

theorem branch_arranges (hd : descend.Arranges t) : Keeps t (branch descend place) (Tree.Ordinary t) := by
  unfold branch
  refine moves_advance.seq fun token => (hd.ordinary .expression place).bind fun condition hcondition =>
    (moves_eat _).seq fun _ => ((hd.ordinary .statement .free).statements _).bind fun body hbody =>
    (alternative_arranges hd).bind ?_
  rintro ⟨other, stop⟩ hother
  exact .pure (conditional_ordinary hcondition hbody hother)

theorem repetition_arranges (hd : descend.Arranges t) : Keeps t (repetition descend) (Tree.Ordinary t) := by
  unfold repetition
  exact moves_advance.seq fun token => (hd.ordinary .expression .command).bind fun condition hcondition =>
    (moves_eat _).seq fun _ => ((hd.ordinary .statement .free).statements _).bind fun body hbody =>
    (moves_expect _ _).seq fun _ => .pure (conditional_ordinary hcondition hbody (by simp))

theorem modifier_arranges (hd : descend.Arranges t) {tree : Tree} (htree : tree.Ordinary t) :
    Keeps t (modifier descend place tree) (fun longer => ∀ tree ∈ longer, tree.Ordinary t) := by
  unfold modifier
  refine moves_current.seq fun token => ?_
  split
  next =>
    refine moves_advance.seq fun _ => (hd.ordinary .expression place).bind fun condition hcondition =>
      .pure ?_
    have hlonger : ∀ child ∈ [tree], child.Ordinary t := by simpa using htree
    rintro _ ⟨⟩
    exact conditional_ordinary hcondition hlonger (by simp)
  next => exact .pure (by simp)

/-! ## argument lists of their own -/

theorem jump_ordinary (hd : descend.Arranges t) (hs : s.Valid t)
    (hk : s.current.kind = .keyword .return_ ∨ s.current.kind = .keyword .yield_) :
    Outcome (jump descend) s (fun tree s' => s'.Valid t ∧ tree.Ordinary t) ReadError.Any := by
  have hne : s.current.kind ≠ .eof := by rcases hk with hk | hk <;> simp [hk]
  have hword := spells_advance hs hne
  have hs' := hword.passes.valid hs
  unfold jump
  rw [outcome_bind, outcome_advance]
  refine ((callArguments_derives hd.derives _ hs').and (callArguments_arranges hd _ _ hs')).bind ?_
  rintro ⟨args, stop⟩ s' ⟨⟨slots, hargs, h, hstop⟩, hs'', hitems⟩
  have htakes := takes_arguments (takes_advance hs hne) hstop
  exact ⟨hs'', .listed .free [] (.jump hk hargs) ((hword.append h).stand hs htakes) hitems (by simp)⟩

theorem bracketed_ordinary (hd : descend.Arranges t) {β : Type} {rest : List Tree → Token → Parse β}
    {R : β → Cursor → Prop} (hs : s.Valid t) (hk : s.current.kind = .leftBracket)
    (hrest : ∀ items slots s',
      Slot.Group .leftBracket .rightBracket true ⟨s.current.span, s'.current.span⟩ items slots →
      s.Spells slots s'.advance → s.advance.Passes s' → s'.Takes s'.advance s'.current.span →
      Tree.Items t items → Outcome (rest items s'.current) s'.advance R ReadError.Any) :
    Outcome (do
        let items ← arguments descend .free (some .rightBracket)
        let closing ← expect .rightBracket "`]`"
        rest items closing)
      s.advance R ReadError.Any := by
  have hs' := (passes_advance s).valid hs
  refine ((closedArguments_derives hd.derives _ hs').and (arguments_arranges hd _ _ hs')).bind ?_
  rintro items s' ⟨hholds, hs'', hitems⟩
  rw [outcome_bind, outcome_expect]
  split
  next hk' =>
    have hne' : s'.current.kind ≠ .eof := by simp [hk']
    obtain ⟨slots, hgroup, h⟩ := groups_advance hs (by simp [hk]) hholds hne'
    rw [hk, hk'] at hgroup
    exact hrest items slots s' hgroup h hholds.passes (takes_advance hs'' hne') hitems
  next => trivial

theorem array_ordinary (hd : descend.Arranges t) (hs : s.Valid t) (hk : s.current.kind = .leftBracket) :
    Outcome (array descend) s (fun tree s' => s'.Valid t ∧ tree.Ordinary t) ReadError.Any := by
  unfold array
  rw [outcome_bind, outcome_advance]
  refine bracketed_ordinary hd hs hk fun items slots s' hgroup h hpasses hclosing hitems => ?_
  have htakes := (takes_advance hs (by simp [hk])).joined hs hpasses hclosing
  exact ⟨h.passes.valid hs, .listed .free [] (.array hgroup) (h.stand hs htakes) hitems (by simp)⟩

/-- what further tokens make of an ordinary term is ordinary; an index keeps the slots of its items -/
theorem access_ordinary (hd : descend.Arranges t) {s₀ : Cursor} {tree : Tree} (hs₀ : s₀.Valid t)
    (hreads : Reads place s₀ tree s) (htree : tree.Ordinary t) :
    Outcome (access descend place tree) s (Longer (fun tree _ => tree.Ordinary t) s) ReadError.Any := by
  have hs := hreads.takes.valid hs₀
  have hmethod : Moves t methodName := by
    unfold methodName
    refine moves_advance.seq fun token => ?_
    split
    next => exact .pure trivial
    next => exact .pure trivial
    next => exact .pure trivial
    next => exact keeps_throw _
  have hcall : Outcome (do
      let _ ← advance
      let named ← methodName
      return some (← call descend place (some tree) named.1 named.2))
      s (Longer (fun tree _ => tree.Ordinary t) s) ReadError.Any := by
    rw [outcome_bind, outcome_advance]
    refine (hmethod _ ((passes_advance s).valid hs)).bind ?_
    rintro named s' ⟨hs', -⟩
    exact (call_arranges hd named.1 named.2 (by simpa using htree) s' hs').bind fun longer _ h => h.2
  have hscope (span : Span) : Tree.Ordinary t ⟨.other [tree], span⟩ :=
    .of_children ⟨rfl, rfl⟩ (by simpa [Node.children] using htree)
  unfold access
  rw [outcome_bind, outcome_current]
  split
  next => exact hcall
  next => exact hcall
  next =>
    rw [outcome_bind, outcome_advance, outcome_bind, outcome_advance]
    split
    next => exact hscope _
    next => exact hscope _
    next => trivial
  next hk _ =>
    rw [outcome_bind, outcome_advance]
    refine bracketed_ordinary hd hs hk fun items slots s' hgroup h hpasses hclosing hitems => ?_
    have htakes := hreads.takes.joined hs₀ ((passes_advance s).trans hpasses) hclosing
    obtain ⟨tokens, hreads⟩ := hreads
    exact .listed place [tree] (.index hgroup tokens tree) ((hreads.append h).stand hs₀ htakes)
      hitems (by simpa using htree)
  next => exact rfl

/-! ## atoms and terms -/

theorem single_arranges {node : Node Tree} (hplain : node.Plain) (hleaf : node.children = []) :
    Keeps t (single node) (Tree.Ordinary t) := by
  unfold single
  exact moves_advance.seq fun _ => .pure (.leaf hplain hleaf)

theorem name_arranges (hd : descend.Arranges t) (text : Text) :
    Keeps t (name descend place text) (Tree.Ordinary t) := by
  have hlocal : Moves t (isLocal text) := fun _ hs => ⟨hs, trivial⟩
  unfold name
  refine moves_advance.seq fun token => hlocal.seq fun _ => moves_tightParen.seq fun _ => ?_
  split
  next => exact .pure (.leaf ⟨rfl, rfl⟩ rfl)
  next => exact call_arranges hd _ _ (by simp)

theorem constant_arranges (hd : descend.Arranges t) (text : Text) :
    Keeps t (constant descend place text) (Tree.Ordinary t) := by
  unfold constant
  refine moves_advance.seq fun token => moves_tightParen.seq fun _ => ?_
  split
  next => exact call_arranges hd _ _ (by simp)
  next => exact .pure (.leaf ⟨rfl, rfl⟩ rfl)

theorem parenthesized_arranges (hd : descend.Arranges t) :
    Keeps t (parenthesized descend) (Tree.Ordinary t) := by
  unfold parenthesized
  exact moves_advance.seq fun _ => (hd.ordinary .statement .free).bind fun inner hinner =>
    (moves_expect _ _).seq fun _ => .pure (.of_children ⟨rfl, rfl⟩ (by simpa [Node.children] using hinner))

theorem atom_arranges (hd : descend.Arranges t) : Keeps t (atom descend place) (Tree.Ordinary t) := by
  intro s hs
  unfold atom
  rw [outcome_bind, outcome_peek]
  split
  next => exact name_arranges hd _ s hs
  next => exact constant_arranges hd _ s hs
  next => exact single_arranges ⟨rfl, rfl⟩ rfl s hs
  next => exact single_arranges ⟨rfl, rfl⟩ rfl s hs
  next => exact single_arranges ⟨rfl, rfl⟩ rfl s hs
  next => exact single_arranges ⟨rfl, rfl⟩ rfl s hs
  next => exact single_arranges ⟨rfl, rfl⟩ rfl s hs
  next => exact single_arranges ⟨rfl, rfl⟩ rfl s hs
  next => exact single_arranges ⟨rfl, rfl⟩ rfl s hs
  next => exact single_arranges ⟨rfl, rfl⟩ rfl s hs
  next => exact definition_arranges hd s hs
  next => exact branch_arranges hd s hs
  next => exact branch_arranges hd s hs
  next => exact repetition_arranges hd s hs
  next => exact repetition_arranges hd s hs
  next => exact namespaced_arranges hd s hs
  next => exact namespaced_arranges hd s hs
  next hk => exact jump_ordinary hd hs (.inl hk)
  next hk => exact jump_ordinary hd hs (.inr hk)
  next hk => exact array_ordinary hd hs hk
  next => exact braced_arranges hd s hs
  next => exact parenthesized_arranges hd s hs
  next => trivial
  next => trivial

theorem term_arranges (hd : descend.Arranges t) : Keeps t (term descend place) (Tree.Ordinary t) := by
  intro s hs
  -- an index needs the tokens of the term in front of it, and so they are carried along
  have hchained : Outcome (term descend place) s
      (fun tree s' => Reads place s tree s' ∧ tree.Ordinary t) ReadError.Any := by
    refine chained_keeps (((atom_derives hd.derives hs).and (atom_arranges hd s hs)).mono
      fun _ _ h => ⟨h.1, h.2.2⟩) ?_
    rintro tree s' ⟨hreads, htree⟩
    refine ((access_derives hd.derives hs hreads).and (access_ordinary hd hs hreads htree)).mono ?_
    intro longer s'' h
    cases longer with
    | none => exact h.1
    | some longer => exact h
  exact hchained.mono fun tree s' h => ⟨h.1.takes.valid hs, h.2⟩

/-! ## operators and statements -/

theorem operand_arranges (hd : descend.Arranges t) : Keeps t (operand descend place) (Tree.Ordinary t) := by
  unfold operand
  refine moves_peek.seq fun kind => ?_
  split
  next =>
    exact moves_advance.seq fun _ => (hd.ordinary .operand place).bind fun inner hinner =>
      .pure (.of_children ⟨rfl, rfl⟩ (by simpa [Node.children] using hinner))
  next => exact term_arranges hd

theorem binary_arranges (hd : descend.Arranges t) {tree : Tree} (htree : tree.Ordinary t) :
    Keeps t (binary descend place tree) (fun longer => ∀ tree ∈ longer, tree.Ordinary t) := by
  unfold binary
  refine moves_current.seq fun token => ?_
  split
  next =>
    refine moves_advance.seq fun _ => (operand_arranges hd).bind fun right hright => .pure ?_
    rintro _ ⟨⟩
    exact .of_children ⟨rfl, rfl⟩ (by simpa [Node.children] using ⟨htree, hright⟩)
  next => exact .pure (by simp)

theorem expression_arranges (hd : descend.Arranges t) : Keeps t (expression descend place) (Tree.Ordinary t) :=
  (operand_arranges hd).chained fun _ htree => binary_arranges hd htree

theorem assignment_arranges (hd : descend.Arranges t) : Keeps t (assignment descend place) (Tree.Ordinary t) := by
  have hvalue (build : Tree → Node Tree) (span : Tree → Span)
      (hbuild : ∀ value, (build value).Plain ∧ (build value).children = [value]) :
      Keeps t (do
        let value ← descend .assignment place
        return ⟨build value, span value⟩) (Tree.Ordinary t) :=
    (hd.ordinary .assignment place).bind fun value hvalue =>
      .pure (.of_children (hbuild value).1 (by simpa [(hbuild value).2] using hvalue))
  unfold assignment
  refine moves_get.seq fun s => ?_
  split
  next =>
    exact moves_advance.seq fun _ => moves_advance.seq fun _ => (moves_declare _).seq fun _ =>
      hvalue _ _ fun _ => ⟨⟨rfl, rfl⟩, rfl⟩
  next =>
    exact moves_advance.seq fun _ => moves_advance.seq fun _ =>
      hvalue (fun value => .other [value]) _ fun _ => ⟨⟨rfl, rfl⟩, rfl⟩
  next =>
    exact moves_advance.seq fun _ => moves_advance.seq fun _ =>
      hvalue (fun value => .other [value]) _ fun _ => ⟨⟨rfl, rfl⟩, rfl⟩
  next => exact expression_arranges hd

theorem statement_arranges (hd : descend.Arranges t) : Keeps t (statement descend place) (Tree.Ordinary t) :=
  (assignment_arranges hd).chained fun _ htree => modifier_arranges hd htree

/-! ## all phrases -/

/-- one level of phrases gives ordinary trees if the phrases inside do -/
theorem level_arranges (hd : descend.Arranges t) (phrase : Phrase) :
    Keeps t (level descend phrase place) (Tree.Ordinary t) := by
  cases phrase with
  | statement => exact statement_arranges hd
  | assignment => exact assignment_arranges hd
  | expression => exact expression_arranges hd
  | operand => exact operand_arranges hd
  | term => exact term_arranges hd
  | branch => exact branch_arranges hd

theorem phrase_arranges (depth : Nat) : (phrase depth).Arranges t := by
  induction depth with
  | zero => exact ⟨phrase_derives 0, fun _ _ _ _ => trivial⟩
  | succ depth ih => exact ⟨phrase_derives (depth + 1), fun phrase _ => level_arranges ih phrase⟩

theorem program_arranges : Keeps t program (fun body => ∀ tree ∈ body, tree.Ordinary t) := by
  have hrounds : Moves t rounds := fun _ hs => ⟨hs, trivial⟩
  unfold program
  refine hrounds.seq fun depth =>
    (((phrase_arranges depth).ordinary .statement .free).statements _).bind fun body hbody =>
    moves_peek.seq fun kind => ?_
  split
  next => exact .pure hbody
  next => exact keeps_failHere _

end Parse

end Collate
