import Collate.Proofs.Gather.Slots
import Collate.Proofs.Grammar.Call

/-!
# What readers keep

A reader keeps its cursor within the text whatever it reads, and the values it gives have a property that
only depends on those of the readers in it.

* `Parse.Keeps`       a reader keeps cursors valid, and its values have a property;
* `Keeps.separated`, `Keeps.statements`   the loops;
* `Tree.Ordinary`     an arranged tree that is plain at its top;
* `Descent.Arranges`  all phrases give ordinary trees.
-/

namespace Collate

/-! ## what readers keep -/

namespace Parse
open Cursor
variable {α β : Type} {t : Text} {Q R : α → Prop}

def Keeps (t : Text) (p : Parse α) (Q : α → Prop) : Prop :=
  ∀ s : Cursor, s.Valid t → Outcome p s (fun a s' => s'.Valid t ∧ Q a) ReadError.Any

def Moves (t : Text) (p : Parse α) : Prop :=
  Keeps t p fun _ => True

namespace Keeps

theorem pure {a : α} (h : Q a) : Keeps t (pure a) Q :=
  fun _ hs => ⟨hs, h⟩

theorem bind {p : Parse α} {f : α → Parse β} {R : β → Prop} (h : Keeps t p Q)
    (hf : ∀ a, Q a → Keeps t (f a) R) : Keeps t (p >>= f) R :=
  fun s hs => (h s hs).bind fun a s' ha => hf a ha.2 s' ha.1

theorem mono {p : Parse α} (h : Keeps t p Q) (himp : ∀ a, Q a → R a) : Keeps t p R :=
  fun s hs => (h s hs).mono fun a _ ha => ⟨ha.1, himp a ha.2⟩

end Keeps

theorem Moves.seq {p : Parse α} {f : α → Parse β} {R : β → Prop} (h : Moves t p)
    (hf : ∀ a, Keeps t (f a) R) : Keeps t (p >>= f) R :=
  h.bind fun a _ => hf a

theorem keeps_throw (e : ReadError) : Keeps t (throw e : Parse α) Q :=
  fun _ _ => trivial

theorem keeps_failHere (cause : Option Text → ReadCause) : Keeps t (failHere cause : Parse α) Q :=
  fun _ _ => trivial

theorem moves_get : Moves t (get : Parse Cursor) :=
  fun _ hs => ⟨hs, trivial⟩

theorem moves_current : Moves t current :=
  fun _ hs => ⟨hs, trivial⟩

theorem moves_peek : Moves t peek :=
  fun _ hs => ⟨hs, trivial⟩

theorem moves_sees (kind : Token.Kind) : Moves t (sees kind) :=
  fun _ hs => ⟨hs, trivial⟩

theorem moves_sameLine : Moves t sameLine :=
  fun _ hs => ⟨hs, trivial⟩

theorem moves_valueOmitted : Moves t valueOmitted :=
  fun _ hs => ⟨hs, trivial⟩

theorem moves_tightParen : Moves t tightParen :=
  fun _ hs => ⟨hs, trivial⟩

theorem moves_advance : Moves t advance :=
  fun s hs => ⟨(passes_advance s).valid hs, trivial⟩

theorem moves_eat (kind : Token.Kind) : Moves t (eat kind) := by
  intro s hs
  rw [outcome_eat]
  split
  next => exact ⟨(passes_advance s).valid hs, trivial⟩
  next => exact ⟨hs, trivial⟩

theorem moves_expect (kind : Token.Kind) (wanted : String) : Moves t (expect kind wanted) := by
  intro s hs
  rw [outcome_expect]
  split
  next => exact ⟨(passes_advance s).valid hs, trivial⟩
  next => trivial

theorem moves_closes (closer : Option Token.Kind) : Moves t (closes closer) := by
  cases closer with
  | none => exact fun _ hs => ⟨hs, trivial⟩
  | some kind => exact moves_sees kind

theorem moves_declare (name : Text) : Moves t (declare name) :=
  fun s hs => ⟨(passes_locals s _).valid hs, trivial⟩

theorem Keeps.withinScope {p : Parse α} (h : Keeps t p Q) (sight : Sight) :
    Keeps t (withinScope sight p) Q := by
  intro s hs
  rw [outcome_withinScope]
  refine (h _ ((passes_locals s _).valid hs)).mono fun a s' ha => ?_
  exact ⟨(passes_locals s' _).valid ha.1, ha.2⟩

/-! ## loops -/

theorem Keeps.separated {item : Parse α} (h : Keeps t item Q) (closer : Option Token.Kind) :
    Keeps t (separated item closer) (fun items => ∀ a ∈ items, Q a) := by
  have hrounds (n : Nat) : Keeps t (separatedIn item closer n) (fun items => ∀ a ∈ items, Q a) := by
    induction n with
    | zero => exact fun _ _ => trivial
    | succ n ih =>
      unfold separatedIn
      refine h.bind fun a ha => (moves_eat _).seq fun comma => ?_
      have hsingle : ∀ x ∈ [a], Q x := by simpa using ha
      split
      next =>
        refine (moves_closes closer).seq fun closed => ?_
        split
        next => exact .pure hsingle
        next => exact ih.bind fun rest hrest => .pure (List.forall_mem_cons.mpr ⟨ha, hrest⟩)
      next => exact .pure hsingle
  exact fun s hs => hrounds _ s hs

theorem Keeps.statements {descend : Descent} {Q : Tree → Prop} {place : Place}
    (h : Keeps t (descend .statement place) Q) (stop : Token.Kind → Bool) :
    Keeps t (statements descend place stop) (fun body => ∀ tree ∈ body, Q tree) := by
  have hfinished : Moves t (finished stop) := fun _ hs => ⟨hs, trivial⟩
  have hskip : Moves t skipSemicolons := fun s hs => ⟨(passes_skipSemicolons s).valid hs, trivial⟩
  have hrounds (n : Nat) :
      Keeps t (statementsIn descend place stop n) (fun body => ∀ tree ∈ body, Q tree) := by
    induction n with
    | zero => exact fun _ _ => trivial
    | succ n ih =>
      unfold statementsIn
      refine hskip.seq fun _ => hfinished.seq fun finished => ?_
      split
      next => exact .pure (by simp)
      next =>
        refine h.bind fun first hfirst => hfinished.seq fun _ => (moves_sees _).seq fun _ =>
          moves_sameLine.seq fun _ => ?_
        split
        next => exact ih.bind fun rest hrest => .pure (List.forall_mem_cons.mpr ⟨hfirst, hrest⟩)
        next => exact keeps_failHere _
  exact fun s hs => hrounds _ s hs

/-- what extends a construct and keeps it ordinary, does so for as long as it can -/
theorem Keeps.chained {p : Parse Tree} {extend : Tree → Parse (Option Tree)} {Q : Tree → Prop}
    (hp : Keeps t p Q) (hext : ∀ tree, Q tree → Keeps t (extend tree) (fun longer => ∀ tree ∈ longer, Q tree)) :
    Keeps t (do chained extend (← p)) Q := by
  have hrounds (n : Nat) : ∀ tree, Q tree → Keeps t (chainedIn extend n tree) Q := by
    induction n with
    | zero => exact fun _ _ _ _ => trivial
    | succ n ih =>
      intro tree htree
      unfold chainedIn
      refine (hext tree htree).bind fun longer hlonger => ?_
      cases longer with
      | none => exact .pure htree
      | some longer => exact ih longer (hlonger longer rfl)
  exact hp.bind fun tree htree s hs => hrounds _ tree htree s hs

end Parse

/-! ## ordinary trees -/

/-- an arranged tree that is neither an element nor a literal without braces -/
structure Tree.Ordinary (t : Text) (tree : Tree) : Prop where
  arranged : tree.Arranged t
  plain : tree.node.Plain

/-- an arranged tree that is an element of a literal -/
structure Tree.Element (t : Text) (tree : Tree) : Prop where
  arranged : tree.Arranged t
  element : tree.node.isElement = true

/-- arranged trees that are the items of an argument list -/
structure Tree.Items (t : Text) (items : List Tree) : Prop where
  arranged : ∀ item ∈ items, item.Arranged t
  gathered : Gathered Tree.node items

section
variable {t : Text} {node : Node Tree} {span : Span}

theorem Tree.Arranged.of_ordinary (h : ∀ child ∈ node.children, child.Ordinary t) :
    Tree.Arranged t ⟨node, span⟩ :=
  .mk (.plain fun child hmem => (h child hmem).plain) fun child hmem => (h child hmem).arranged

theorem Tree.Ordinary.of_children (hplain : node.Plain) (h : ∀ child ∈ node.children, child.Ordinary t) :
    Tree.Ordinary t ⟨node, span⟩ :=
  ⟨.of_ordinary h, hplain⟩

theorem Tree.Ordinary.leaf (hplain : node.Plain) (hleaf : node.children = []) :
    Tree.Ordinary t ⟨node, span⟩ :=
  .of_children hplain (by simp [hleaf])

end

/-- all phrases give trees with their form, which are ordinary -/
structure Descent.Arranges (t : Text) (descend : Descent) : Prop where
  derives : descend.Derives t
  ordinary : ∀ phrase place, Parse.Keeps t (descend phrase place) (Tree.Ordinary t)

end Collate
