import Mathlib.Data.List.Chain
import Mathlib.Data.List.DropRight
import Collate.Proofs.Derivation.Loops
import Collate.Proofs.Derivation.Trees

/-!
# Runs of pairs

Pairs and double splats are elements of literals.  Those among arguments stand in literals without braces,
one for each run of neighbours; opening these literals again gives the arguments as they were read.

* `Node.isElement`, `Node.isBare`   elements of literals, and literals without braces;
* `Node.ungroup`                    what a construct stands for in an argument list;
* `Gathered`                        argument lists in which every run is one literal;
* `gatherRuns_gathered`, `opened_gatherRuns`   what the reader makes of the arguments it has read;
* `Gathered.last_run`               the literal at the end holds the whole run at the end;
* `Slot.ArgumentList`               an argument list as it is written;
* `Slot.Opens`                      the tokens of such a list are those of the opened one.
-/

namespace Collate

namespace Node
variable {α β : Type}

def isElement : Node α → Bool
  | pair .. => true
  | doubleSplat _ => true
  | _ => false

def isBare : Node α → Bool
  | literal none _ => true
  | _ => false

@[simp]
theorem isElement_map (f : α → β) (n : Node α) : (n.map f).isElement = n.isElement := by
  cases n <;> rfl

@[simp]
theorem isBare_map (f : α → β) (n : Node α) : (n.map f).isBare = n.isBare := by
  cases n with
  | literal braces elements => cases braces <;> rfl
  | _ => rfl

theorem isBare_iff {n : Node α} : n.isBare = true ↔ ∃ elements, n = literal none elements := by
  constructor
  · intro h
    cases n with
    | literal braces elements =>
      cases braces with
      | none => exact ⟨elements, rfl⟩
      | some braces => exact nomatch h
    | _ => exact nomatch h
  · rintro ⟨elements, rfl⟩
    rfl

/-- neither an element of a literal nor a literal without braces -/
structure Plain (n : Node α) : Prop where
  element : n.isElement = false
  bare : n.isBare = false

/-- what a construct stands for in an argument list: a literal without braces for its elements, and all
others for themselves -/
def ungroup (whole : α) : Node α → List α
  | literal none elements => elements
  | _ => [whole]

theorem ungroup_of_not_bare {n : Node α} (h : n.isBare = false) (whole : α) : n.ungroup whole = [whole] := by
  cases n with
  | literal braces elements =>
    cases braces with
    | none => exact nomatch h
    | some braces => rfl
  | _ => rfl

theorem ungroup_map (f : α → β) (n : Node α) (whole : α) :
    (n.map f).ungroup (f whole) = (n.ungroup whole).map f := by
  cases n with
  | literal braces elements => cases braces <;> rfl
  | _ => rfl

end Node

/-! ## gathered lists -/

section
variable {α : Type} {node : α → Node α} {a b items : List α} {item : α}

/-- Items of an argument list in which every run of elements is one literal: no item is an element, and no
two literals without braces are neighbours. -/
structure Gathered (node : α → Node α) (items : List α) : Prop where
  element : ∀ item ∈ items, (node item).isElement = false
  apart : items.IsChain fun a b => (node a).isBare = false ∨ (node b).isBare = false

/-- the items with all literals without braces opened -/
def opened (node : α → Node α) (items : List α) : List α :=
  items.flatMap fun item => (node item).ungroup item

@[simp] theorem opened_nil : opened node [] = [] := rfl

@[simp] theorem opened_cons (item : α) (items : List α) :
    opened node (item :: items) = (node item).ungroup item ++ opened node items := rfl

@[simp] theorem opened_append (a b : List α) : opened node (a ++ b) = opened node a ++ opened node b :=
  List.flatMap_append

/-- the last items are those with a property, as far as the one in front of them -/
theorem rtakeWhile_append_of_forall {p : α → Bool} (ha : ∀ item ∈ a.getLast?, p item = false)
    (hb : ∀ item ∈ b, p item = true) : (a ++ b).rtakeWhile p = b := by
  induction b using List.reverseRecOn with
  | nil =>
    rw [List.append_nil, List.rtakeWhile_eq_nil_iff]
    intro hne hlast
    rw [ha _ (List.getLast?_eq_some_getLast hne)] at hlast
    exact nomatch hlast
  | append_singleton b item ih =>
    rw [← List.append_assoc, List.rtakeWhile_concat_pos _ _ _ (hb item (by simp)),
      ih fun other hmem => hb other (List.mem_append_left _ hmem)]

namespace Gathered

theorem single (h : (node item).isElement = false) : Gathered node [item] :=
  ⟨by simpa using h, .singleton item⟩

theorem of_plain (h : ∀ item ∈ items, (node item).Plain) : Gathered node items := by
  refine ⟨fun item hmem => (h item hmem).element, List.Pairwise.isChain ?_⟩
  exact List.pairwise_of_forall_mem_list fun item hmem _ _ => .inl (h item hmem).bare

theorem append_plain (ha : Gathered node a) (hitem : (node item).Plain) (hb : Gathered node b) :
    Gathered node (a ++ item :: b) := by
  refine ⟨fun other hmem => ?_, List.isChain_append.mpr ⟨ha.apart, List.isChain_cons.mpr ⟨?_, hb.apart⟩, ?_⟩⟩
  · rcases List.mem_append.mp hmem with hmem | hmem
    · exact ha.element other hmem
    · rcases List.mem_cons.mp hmem with rfl | hmem
      · exact hitem.element
      · exact hb.element other hmem
  · exact fun _ _ => .inl hitem.bare
  · rintro _ - _ ⟨⟩
    exact .inr hitem.bare

theorem append_front (ha : ∀ item ∈ a, (node item).Plain) (hb : Gathered node b) : Gathered node (a ++ b) := by
  induction a with
  | nil => exact hb
  | cons item a ih =>
    obtain ⟨hitem, ha⟩ := List.forall_mem_cons.mp ha
    exact append_plain (a := []) (.of_plain (by simp)) hitem (ih ha)

theorem suffix (h : Gathered node items) (hsuffix : a <:+ items) : Gathered node a :=
  ⟨fun item hmem => h.element item (hsuffix.subset hmem), h.apart.suffix hsuffix⟩

/-- **The literal at the end of a list holds the whole run at its end**: if the opened list ends with an
element, then the last item is the literal of all elements there. -/
theorem last_run (h : Gathered node items)
    (hbare : ∀ item ∈ items, ∀ elements, node item = .literal none elements →
      ∀ element ∈ elements, (node element).isElement = true)
    {last : α} (hlast : (opened node items).getLast? = some last)
    (helement : (node last).isElement = true) :
    ∃ literal, items.getLast? = some literal ∧ node literal =
      .literal none ((opened node items).rtakeWhile fun item => (node item).isElement) := by
  obtain rfl | ⟨front, item, rfl⟩ := List.eq_nil_or_concat' items
  · exact nomatch hlast
  rw [opened_append, opened_cons, opened_nil, List.append_nil] at hlast ⊢
  cases hitem : (node item).isBare with
  | false =>
    rw [Node.ungroup_of_not_bare hitem, List.getLast?_concat] at hlast
    obtain rfl : item = last := Option.some.inj hlast
    rw [h.element item (by simp)] at helement
    exact nomatch helement
  | true =>
    obtain ⟨elements, hnode⟩ := Node.isBare_iff.mp hitem
    refine ⟨item, List.getLast?_concat, ?_⟩
    have hungroup : (node item).ungroup item = elements := by rw [hnode]; rfl
    rw [hungroup, hnode, rtakeWhile_append_of_forall ?_ (hbare item (by simp) elements hnode)]
    -- what stands in front of the literal is no literal without braces, and no element either
    intro before hbefore
    obtain rfl | ⟨front, previous, rfl⟩ := List.eq_nil_or_concat' front
    · exact nomatch hbefore
    have hprevious : (node previous).isBare = false := by
      have hchain := (List.isChain_append.mp h.apart).2.2
      rcases hchain previous List.getLast?_concat item rfl with hprevious | hcontra
      · exact hprevious
      · rw [hitem] at hcontra
        exact nomatch hcontra
    rw [opened_append, opened_cons, Node.ungroup_of_not_bare hprevious, opened_nil, List.append_nil,
      List.getLast?_concat] at hbefore
    obtain rfl : previous = before := Option.some.inj hbefore
    exact h.element previous (by simp)

end Gathered

end

/-! ## arguments -/

theorem Tree.isElement_eq (tree : Tree) : tree.isElement = tree.node.isElement := by
  unfold isElement
  cases tree.node <;> rfl

/-- an argument is told to be an element if it is one, and else it is plain -/
inductive Argument.Told : Argument → Prop
  | positional {tree : Tree} (h : tree.node.Plain) : Told (.positional tree)
  | element {tree : Tree} (h : tree.node.isElement = true) : Told (.element tree)

/-- a list of arguments as the reader gathers it has every run in one literal -/
theorem gatherRuns_gathered {args : List Argument} (hargs : ∀ arg ∈ args, arg.Told) (run : List Tree) :
    Gathered Tree.node (gatherRuns run args) := by
  have hrun (run : List Tree) : Gathered Tree.node (runLiteral run) := by
    cases run with
    | nil => exact .of_plain (by simp [runLiteral])
    | cons first rest => exact .single rfl
  induction args generalizing run with
  | nil => exact hrun run
  | cons arg args ih =>
    obtain ⟨harg, hrest⟩ := List.forall_mem_cons.mp hargs
    cases harg with
    | positional htree => exact (hrun run).append_plain htree (ih hrest [])
    | element helement => exact ih hrest _

/-- opening the literals of a gathered list gives all arguments in their order -/
theorem opened_gatherRuns {args : List Argument} (hargs : ∀ arg ∈ args, arg.Told) (run : List Tree) :
    opened Tree.node (gatherRuns run args) = run ++ args.map Argument.tree := by
  have hrun (run : List Tree) : opened Tree.node (runLiteral run) = run := by
    cases run with
    | nil => rfl
    | cons first rest => exact List.append_nil _
  induction args generalizing run with
  | nil => exact (hrun run).trans (List.append_nil run).symm
  | cons arg args ih =>
    obtain ⟨harg, hrest⟩ := List.forall_mem_cons.mp hargs
    cases harg with
    | element helement =>
      rw [run_append_element]
      exact ih hrest _
    | positional htree =>
      rename_i tree
      rw [gatherRuns, opened_append, hrun, opened_cons, Node.ungroup_of_not_bare htree.bare,
        ih hrest []]
      rfl

end Collate
