import Collate.Proofs.Derivation.Call
import Collate.Proofs.Gather.Loops

/-!
# Arguments are arranged

Elements come out of argument lists and out of braces only, and both put them into literals.  An argument
list is gathered, and the arguments that were read are those of the opened list.

* `Parse.argument_arranges`    an argument is told to be an element if it is one;
* `Parse.arguments_arranges`   argument lists;
* `Parse.arguments_opened`     the arguments that were read;
* `Parse.braced_arranges`, `Parse.parameters_arranges`, `Parse.call_arranges`   literals, parameters and calls.
-/

namespace Collate

namespace Parse
open Cursor
variable {t : Text} {descend : Descent} {place : Place}

/-! ## arguments -/

theorem labelPair_arranges (hd : descend.Arranges t) : Keeps t (labelPair descend place) (Tree.Element t) := by
  have hkey (name : Text) (span : Span) : Tree.Ordinary t ⟨.symbol name, span⟩ := .leaf ⟨rfl, rfl⟩ rfl
  unfold labelPair
  refine moves_advance.seq fun token => ?_
  split
  next name hk =>
    refine moves_valueOmitted.seq fun omitted => ?_
    split
    next => exact .pure ⟨.of_ordinary (by simpa [Node.children] using hkey _ _), rfl⟩
    next =>
      refine (hd.ordinary .expression place).bind fun value hvalue => .pure ?_
      exact ⟨.of_ordinary (by simpa [Node.children] using ⟨hkey _ _, hvalue⟩), rfl⟩
  next => exact keeps_throw _

theorem arrowPair_arranges (hd : descend.Arranges t) {key : Tree} (hkey : key.Ordinary t) :
    Keeps t (arrowPair descend place key) (Tree.Element t) := by
  unfold arrowPair
  refine (moves_expect _ _).seq fun _ => (hd.ordinary .expression place).bind fun value hvalue => .pure ?_
  exact ⟨.of_ordinary (by simpa [Node.children] using ⟨hkey, hvalue⟩), rfl⟩

theorem marked_arranges (hd : descend.Arranges t) (build : Tree → Node Tree)
    (hbuild : ∀ value, (build value).children = [value]) : Keeps t (marked descend place build)
      (fun tree => tree.Arranged t ∧ ∃ value, tree.node = build value) := by
  unfold marked
  refine moves_advance.seq fun _ => (hd.ordinary .expression place).bind fun value hvalue => .pure ?_
  exact ⟨.of_ordinary (by simpa [hbuild] using hvalue), value, rfl⟩

theorem doubleSplat_arranges (hd : descend.Arranges t) :
    Keeps t (marked descend place .doubleSplat) (Tree.Element t) := by
  refine (marked_arranges hd _ fun _ => rfl).mono ?_
  rintro tree ⟨htree, value, hnode⟩
  exact ⟨htree, by rw [hnode]; rfl⟩

/-- an argument is arranged, and it is told to be an element if it is one -/
theorem argument_arranges (hd : descend.Arranges t) :
    Keeps t (argument descend place) (fun arg => arg.tree.Arranged t ∧ arg.Told) := by
  have helement {p : Parse Tree} (h : Keeps t p (Tree.Element t)) :
      Keeps t (do return Argument.element (← p)) (fun arg => arg.tree.Arranged t ∧ arg.Told) :=
    h.bind fun tree htree => .pure ⟨htree.arranged, .element htree.element⟩
  have hmarked (build : Tree → Node Tree) (hbuild : ∀ value, (build value).children = [value])
      (hplain : ∀ value, (build value).Plain) :
      Keeps t (do return Argument.positional (← marked descend place build))
        (fun arg => arg.tree.Arranged t ∧ arg.Told) := by
    refine (marked_arranges hd build hbuild).bind ?_
    rintro tree ⟨htree, value, hnode⟩
    exact .pure ⟨htree, .positional (hnode ▸ hplain value)⟩
  unfold argument
  refine moves_peek.seq fun kind => ?_
  split
  next => exact hmarked _ (fun _ => rfl) fun _ => ⟨rfl, rfl⟩
  next => exact helement (doubleSplat_arranges hd)
  next => exact hmarked _ (fun _ => rfl) fun _ => ⟨rfl, rfl⟩
  next => exact helement (labelPair_arranges hd)
  next =>
    refine (hd.ordinary .expression place).bind fun key hkey => (moves_sees _).seq fun arrow => ?_
    split
    next => exact helement (arrowPair_arranges hd hkey)
    next => exact .pure ⟨hkey.arranged, .positional hkey.plain⟩

theorem gatherRuns_arranged {args : List Argument} (hargs : ∀ arg ∈ args, arg.tree.Arranged t ∧ arg.Told)
    {run : List Tree} (hrun : ∀ tree ∈ run, tree.Element t) :
    ∀ tree ∈ gatherRuns run args, tree.Arranged t := by
  have hliteral {run : List Tree} (hrun : ∀ tree ∈ run, tree.Element t) :
      ∀ tree ∈ runLiteral run, tree.Arranged t := by
    cases run with
    | nil => simp [runLiteral]
    | cons first rest =>
      intro tree hmem
      rw [List.mem_singleton.mp hmem]
      exact .mk (.literal fun element hmem => (hrun element hmem).element)
        fun element hmem => (hrun element hmem).arranged
  induction args generalizing run with
  | nil => exact hliteral hrun
  | cons arg args ih =>
    obtain ⟨⟨harranged, htold⟩, hrest⟩ := List.forall_mem_cons.mp hargs
    cases htold with
    | element helement =>
      refine ih hrest fun x hx => ?_
      rcases List.mem_append.mp hx with hx | hx
      · exact hrun x hx
      · rw [List.mem_singleton.mp hx]
        exact ⟨harranged, helement⟩
    | positional htree =>
      intro x hx
      rcases List.mem_append.mp hx with hx | hx
      · exact hliteral hrun x hx
      · rcases List.mem_cons.mp hx with rfl | hx
        · exact harranged
        · exact ih hrest (by simp) x hx

theorem arguments_arranges (hd : descend.Arranges t) (closer : Option Token.Kind) :
    Keeps t (arguments descend place closer) (Tree.Items t) := by
  unfold arguments
  refine (moves_closes closer).seq fun closed => ?_
  split
  next => exact .pure ⟨by simp, .of_plain (by simp)⟩
  next =>
    refine ((argument_arranges hd).separated closer).bind fun args hargs => .pure ?_
    exact ⟨gatherRuns_arranged hargs (by simp), gatherRuns_gathered (fun arg hmem => (hargs arg hmem).2) []⟩

/-- **The arguments that were read are those of the opened list**, in their order. -/
theorem arguments_opened (hd : descend.Arranges t) {closer : Option Token.Kind} {s s' : Cursor}
    (hs : s.Valid t) {trees : List Tree}
    (h : arguments descend place closer s = .ok (trees, s')) :
    trees = [] ∧ s' = s ∨ ∃ args, separated (argument descend place) closer s = .ok (args, s') ∧
      opened Tree.node trees = args.map Argument.tree := by
  have hargs : ∀ args s', separated (argument descend place) closer s = .ok (args, s') →
      ∀ arg ∈ args, arg.Told := fun args s' hargs arg hmem =>
    ((((argument_arranges hd).separated closer s hs).of_ok hargs).2 arg hmem).2
  have hrest : Outcome (do return gatherRuns [] (← separated (argument descend place) closer)) s
      (fun trees s' => ∃ args, separated (argument descend place) closer s = .ok (args, s') ∧
        opened Tree.node trees = args.map Argument.tree) ReadError.Any := by
    rw [outcome_bind]
    unfold Outcome
    split
    next args s' hok =>
      exact ⟨args, hok, opened_gatherRuns (hargs args s' hok) []⟩
    next => trivial
  have hall : Outcome (arguments descend place closer) s
      (fun trees s' => trees = [] ∧ s' = s ∨ ∃ args,
        separated (argument descend place) closer s = .ok (args, s') ∧
          opened Tree.node trees = args.map Argument.tree) ReadError.Any :=
    Outcome.unlessClosed closer (.inl ⟨rfl, rfl⟩) (hrest.mono fun _ _ h => .inr h)
  exact hall.of_ok h

/-! ## literals between braces -/

theorem bracedElement_arranges (hd : descend.Arranges t) : Keeps t (bracedElement descend) (Tree.Element t) := by
  unfold bracedElement
  refine moves_peek.seq fun kind => ?_
  split
  next => exact labelPair_arranges hd
  next => exact doubleSplat_arranges hd
  next =>
    refine (hd.ordinary .expression .free).bind fun key hkey => (moves_sees _).seq fun arrow => ?_
    split
    next => exact arrowPair_arranges hd hkey
    next => exact keeps_failHere _

theorem braced_arranges (hd : descend.Arranges t) : Keeps t (braced descend) (Tree.Ordinary t) := by
  have hrest (opening : Token) {elements : List Tree} (helements : ∀ tree ∈ elements, tree.Element t) :
      Keeps t (do
        let closing ← expect .rightBrace "`\x7d`"
        return ⟨.literal (some ⟨opening.span, closing.span⟩) elements, opening.span.join closing.span⟩)
        (Tree.Ordinary t) := by
    refine (moves_expect _ _).seq fun closing => .pure ⟨.mk (.literal ?_) ?_, ⟨rfl, rfl⟩⟩
    · exact fun element hmem => (helements element hmem).element
    · exact fun element hmem => (helements element hmem).arranged
  unfold braced
  refine moves_advance.seq fun opening => (moves_sees _).seq fun closed => ?_
  dsimp only
  split
  next => exact hrest opening (by simp)
  next =>
    exact ((bracedElement_arranges hd).separated _).bind fun elements helements => hrest opening helements

/-! ## parameters -/

theorem parameter_arranges (hd : descend.Arranges t) : Keeps t (parameter descend place) (Tree.Ordinary t) := by
  have hnamed (kind : ParameterKind) (name : Text) {fallback : Option Tree} (span : Span)
      (hfallback : ∀ tree ∈ fallback, tree.Ordinary t) :
      Keeps t (namedParameter kind name fallback span) (Tree.Ordinary t) :=
    (moves_declare name).seq fun _ => .pure (.of_children ⟨rfl, rfl⟩ (by simpa [Node.children] using hfallback))
  have hrest (kind : ParameterKind) (sign : Token) : Keeps t (restParameter kind sign) (Tree.Ordinary t) := by
    unfold restParameter
    refine moves_current.seq fun next => ?_
    split
    next => exact moves_advance.seq fun _ => hnamed _ _ _ (by simp)
    next => exact moves_advance.seq fun _ => .pure (.leaf ⟨rfl, rfl⟩ rfl)
    next => exact .pure (.leaf ⟨rfl, rfl⟩ rfl)
  unfold parameter
  refine moves_advance.seq fun token => ?_
  split
  next =>
    refine (moves_eat _).seq fun assign => ?_
    split
    next =>
      exact (hd.ordinary .expression place).bind fun fallback hfallback => hnamed _ _ _ (by simpa using hfallback)
    next => exact hnamed _ _ _ (by simp)
  next =>
    refine moves_valueOmitted.seq fun omitted => ?_
    split
    next => exact hnamed _ _ _ (by simp)
    next =>
      exact (hd.ordinary .expression place).bind fun fallback hfallback => hnamed _ _ _ (by simpa using hfallback)
  next => exact hrest _ _
  next => exact hrest _ _
  next => exact hrest _ _
  next => exact keeps_throw _

theorem parameters_arranges (hd : descend.Arranges t) (closer : Option Token.Kind) :
    Keeps t (parameters descend place closer) (fun params => ∀ tree ∈ params, tree.Ordinary t) := by
  unfold parameters
  refine (moves_closes closer).seq fun closed => ?_
  split
  next => exact .pure (by simp)
  next => exact (parameter_arranges hd).separated none

/-! ## calls and blocks -/

theorem callArguments_arranges (hd : descend.Arranges t) (stop : Nat) :
    Keeps t (callArguments descend stop) (fun r => Tree.Items t r.1) := by
  have hstarts : Moves t startsCommand := fun _ hs => ⟨hs, trivial⟩
  unfold callArguments
  refine moves_tightParen.seq fun tight => ?_
  split
  next =>
    exact moves_advance.seq fun _ => (arguments_arranges hd _).bind fun args hargs =>
      (moves_expect _ _).seq fun _ => .pure hargs
  next =>
    refine hstarts.seq fun command => ?_
    split
    next => exact (arguments_arranges hd none).bind fun args hargs => .pure hargs
    next => exact .pure ⟨by simp, .of_plain (by simp)⟩

theorem blockRest_arranges (hd : descend.Arranges t) (closer : Token.Kind) (wanted : String) {owner : Tree}
    (howner : owner.Ordinary t) : Keeps t (blockRest descend closer wanted owner) (Tree.Ordinary t) := by
  have hrest {params : List Tree} (hparams : ∀ tree ∈ params, tree.Ordinary t) :
      Keeps t (do
        let body ← statements descend .free (fun kind => decide (kind = closer))
        let closing ← expect closer wanted
        return ⟨.block owner params body, owner.span.join closing.span⟩) (Tree.Ordinary t) := by
    refine ((hd.ordinary .statement .free).statements _).bind fun body hbody =>
      (moves_expect _ _).seq fun closing => .pure (.of_children ⟨rfl, rfl⟩ fun child hmem => ?_)
    rcases List.mem_cons.mp hmem with rfl | hmem
    · exact howner
    · rcases List.mem_append.mp hmem with hmem | hmem
      · exact hparams child hmem
      · exact hbody child hmem
  unfold blockRest
  refine moves_advance.seq fun _ => .withinScope ?_ _
  refine (moves_eat _).seq fun piped => ?_
  dsimp only
  split
  next =>
    exact (parameters_arranges hd _).bind fun params hparams => (moves_expect _ _).seq fun _ => hrest hparams
  next => exact hrest (by simp)

theorem block_arranges (hd : descend.Arranges t) {owner : Tree} (howner : owner.Ordinary t) :
    Keeps t (block descend place owner) (Tree.Ordinary t) := by
  unfold block
  refine moves_current.seq fun token => ?_
  split
  next => exact .pure howner
  next =>
    split
    next => exact blockRest_arranges hd _ _ howner
    next => exact blockRest_arranges hd _ _ howner
    next => exact .pure howner

theorem call_arranges (hd : descend.Arranges t) {receiver : Option Tree} (method : Text) (selector : Span)
    (hreceiver : ∀ tree ∈ receiver, tree.Ordinary t) :
    Keeps t (call descend place receiver method selector) (Tree.Ordinary t) := by
  unfold call
  refine (callArguments_arranges hd _).bind ?_
  rintro ⟨args, stop⟩ hargs
  refine block_arranges hd ⟨.mk (.call (fun tree hmem => (hreceiver tree hmem).plain) hargs.gathered) ?_,
    ⟨rfl, rfl⟩⟩
  intro child hmem
  rcases List.mem_append.mp hmem with hmem | hmem
  · exact (hreceiver child (Option.mem_toList.mp hmem)).arranged
  · exact hargs.arranged child hmem

end Parse

end Collate
