import Collate.Proofs.Derivation.Form
import Collate.Proofs.Node.Placed
import Collate.Proofs.Token.Comments

/-!
# Slots as children

The constructs in the slots of a form are the children of the construct, in their order.  A label is one
token, and the symbol it stands for is the only child without a slot.

* `Slot.trees`            the constructs in some slots;
* `Form.inOrder`          they are the children;
* `Slot.span`             the span of a slot;
* `Covers.contains`, `Slot.ordered`   the spans of tokens in a row.
-/

namespace Collate

namespace Slot
variable {place : Place} {left right mark : Token.Kind} {closed : Bool} {marks : Delimiters}
  {items : List Tree} {slots : List Slot}

def tree? : Slot → Option Tree
  | own _ => none
  | part _ _ tree => some tree

def trees (slots : List Slot) : List Tree :=
  slots.filterMap tree?

@[simp] theorem trees_nil : Slot.trees [] = [] := rfl

@[simp] theorem trees_own (token : Token) (slots : List Slot) :
    Slot.trees (.own token :: slots) = Slot.trees slots := rfl

@[simp] theorem trees_part (place : Place) (tokens : List Token) (tree : Tree) (slots : List Slot) :
    Slot.trees (.part place tokens tree :: slots) = tree :: Slot.trees slots := rfl

@[simp] theorem trees_append (a b : List Slot) : Slot.trees (a ++ b) = Slot.trees a ++ Slot.trees b :=
  List.filterMap_append

theorem mem_trees {tree : Tree} :
    tree ∈ Slot.trees slots ↔ ∃ place tokens, .part place tokens tree ∈ slots := by
  rw [Slot.trees, List.mem_filterMap]
  constructor
  · rintro ⟨slot, hmem, htree⟩
    cases slot with
    | own token => exact nomatch htree
    | part place tokens inner =>
      obtain rfl : inner = tree := Option.some.inj htree
      exact ⟨place, tokens, hmem⟩
  · rintro ⟨place, tokens, hmem⟩
    exact ⟨_, hmem, rfl⟩

/-! ## lists -/

theorem Items.trees_eq (h : Items place closed items slots) : Slot.trees slots = items := by
  induction h with
  | single tokens tree => rfl
  | trailing tokens tree => rfl
  | cons tokens tree hcomma rest ih => rw [trees_part, trees_own, ih]

theorem Group.trees_eq (h : Group left right closed marks items slots) : Slot.trees slots = items := by
  cases h with
  | empty => rfl
  | items hleft hright hitems => simp [hitems.trees_eq]

theorem Body.trees_eq (h : Body items slots) : Slot.trees slots = items := by
  induction h with
  | nil => rfl
  | semicolon hsemicolon rest ih => exact ih
  | statement tokens tree rest ih => rw [trees_part, ih]

theorem Arguments.trees_eq (h : Arguments items slots) : Slot.trees slots = items := by
  cases h with
  | none => rfl
  | group hgroup => exact hgroup.trees_eq
  | command hitems => exact hitems.trees_eq

theorem Signature.trees_eq (h : Signature place items slots) : Slot.trees slots = items := by
  cases h with
  | none => rfl
  | group hgroup => exact hgroup.trees_eq
  | bare hitems => exact hitems.trees_eq

theorem Piped.trees_eq (h : Piped items slots) : Slot.trees slots = items := by
  cases h with
  | none => rfl
  | group hgroup => exact hgroup.trees_eq

theorem Marked.trees_eq (h : Marked place mark items slots) : Slot.trees slots = items := by
  cases h <;> rfl

theorem Receiver.trees_eq {receiver : Option Tree} (h : Receiver place receiver slots) :
    Slot.trees slots = receiver.toList := by
  cases h <;> rfl

theorem Alternative.trees_eq (h : Alternative place items slots) : Slot.trees slots = items := by
  cases h with
  | none => rfl
  | otherwise helse hbody => simp [hbody.trees_eq]
  | nested => rfl

theorem Name.trees_eq {name : Text} (h : Name name slots) : Slot.trees slots = [] := by
  cases h <;> rfl

theorem Optional.trees_eq {kind : Token.Kind} {rest : List Slot} (h : Optional kind slots rest) :
    Slot.trees slots = [] := by
  cases h <;> rfl

end Slot

/-! ## constructs -/

/-- the construct is the pair of a label, whose key is a part of a token -/
def Form.Labelled (node : Node Tree) (slots : List Slot) : Prop :=
  ∃ name token value, .own token ∈ slots ∧ token.kind = .label name ∧
    node = .pair (.ofLabel name token) value true ∧ Slot.trees slots = value.toList

theorem Form.inOrder {place : Place} {node : Node Tree} {slots : List Slot} (h : Form place node slots) :
    node.inOrder = Slot.trees slots ∨ Form.Labelled node slots := by
  cases h with
  | label h => exact .inr ⟨_, _, none, List.mem_cons_self, h, rfl, rfl⟩
  | labelled h tokens value => exact .inr ⟨_, _, some value, List.mem_cons_self, h, rfl, rfl⟩
  | braced hgroup => exact .inl hgroup.trees_eq.symm
  | bare hitems => exact .inl hitems.trees_eq.symm
  | bareCall h hargs => exact .inl (by simp [Node.inOrder, Node.children, hargs.trees_eq])
  | dotCall hdot h hargs => exact .inl (by simp [Node.inOrder, Node.children, hargs.trees_eq])
  | block hmarks hparams hbody =>
    exact .inl (by simp [Node.inOrder, Node.children, hparams.trees_eq, hbody.trees_eq])
  | jump h hargs => exact .inl (by simp [Node.inOrder, Node.children, hargs.trees_eq])
  | endless h hreceiver hname hparams =>
    exact .inl (by simp [Node.inOrder, Node.children, hreceiver.trees_eq, hname.trees_eq, hparams.trees_eq])
  | definition h hreceiver hname hparams hbody =>
    exact .inl (by simp [Node.inOrder, Node.children, hreceiver.trees_eq, hname.trees_eq, hparams.trees_eq,
      hbody.trees_eq])
  | namespaced h hparents hbody =>
    exact .inl (by simp [Node.inOrder, Node.children, hparents.trees_eq, hbody.trees_eq])
  | branch h hkeyword hthen hbody hback =>
    exact .inl (by simp [Node.inOrder, Node.children, hthen.trees_eq, hbody.trees_eq, hback.trees_eq])
  | repetition h hkeyword hdo hbody =>
    exact .inl (by simp [Node.inOrder, Node.children, hdo.trees_eq, hbody.trees_eq])
  | index hgroup => exact .inl (by simp [Node.inOrder, Node.children, hgroup.trees_eq])
  | array hgroup => exact .inl hgroup.trees_eq.symm
  | _ => exact .inl rfl

section
variable {place : Place} {node : Node Tree} {slots : List Slot} {tree : Tree}

theorem Form.mem_children (h : Form place node slots) (htree : tree ∈ Slot.trees slots) :
    tree ∈ node.children := by
  rcases h.inOrder with hall | ⟨name, token, value, -, -, rfl, hall⟩
  · exact Node.mem_inOrder.mp (hall ▸ htree)
  · exact List.mem_cons_of_mem _ (hall ▸ htree)

theorem Form.of_mem_children (h : Form place node slots) (htree : tree ∈ node.children) :
    tree ∈ Slot.trees slots ∨
      ∃ name token, .own token ∈ slots ∧ token.kind = .label name ∧ tree = .ofLabel name token := by
  rcases h.inOrder with hall | ⟨name, token, value, hmem, hk, rfl, hall⟩
  · exact .inl (hall ▸ Node.mem_inOrder.mpr htree)
  · rcases List.mem_cons.mp htree with rfl | htree
    · exact .inr ⟨name, token, hmem, hk, rfl⟩
    · exact .inl (hall ▸ htree)

end

/-! ## spans -/

def Slot.span : Slot → Span
  | .own token => token.span
  | .part _ _ tree => tree.span

/-- the tokens stand in their order, and none is empty -/
structure Aligned (tokens : List Token) : Prop where
  ordered : tokens.Pairwise (fun a b => a.span.Precedes b.span)
  nonempty : ∀ token ∈ tokens, token.span.start < token.span.stop

theorem Aligned.sublist {a b : List Token} (h : Aligned b) (hsub : a.Sublist b) : Aligned a :=
  ⟨h.ordered.sublist hsub, fun token hmem => h.nonempty token (hsub.subset hmem)⟩

namespace Covers
variable {tokens : List Token} {span : Span} {token : Token}

theorem start_le (h : Covers tokens span) (hal : Aligned tokens) (hmem : token ∈ tokens) :
    span.start ≤ token.span.start := by
  obtain ⟨first, hhead, hfirst⟩ := Option.map_eq_some_iff.mp h.first
  obtain ⟨rest, rfl⟩ := List.head?_eq_some_iff.mp hhead
  rcases List.mem_cons.mp hmem with rfl | hmem
  · omega
  · have hprecedes : first.span.stop ≤ token.span.start := (List.pairwise_cons.mp hal.ordered).1 token hmem
    have hne := hal.nonempty first List.mem_cons_self
    omega

theorem le_stop (h : Covers tokens span) (hal : Aligned tokens) (hmem : token ∈ tokens) :
    token.span.stop ≤ span.stop := by
  obtain ⟨last, hend, hlast⟩ := Option.map_eq_some_iff.mp h.last
  obtain ⟨front, rfl⟩ := List.getLast?_eq_some_iff.mp hend
  rcases List.mem_append.mp hmem with hmem | hmem
  · have hprecedes : token.span.stop ≤ last.span.start :=
      (List.pairwise_append.mp hal.ordered).2.2 token hmem last (List.mem_singleton.mpr rfl)
    have hne := hal.nonempty last (by simp)
    omega
  · rw [List.mem_singleton.mp hmem]
    omega

theorem contains (h : Covers tokens span) (hal : Aligned tokens) (hmem : token ∈ tokens) :
    span.contains token.span = true :=
  Span.contains_iff.mpr ⟨h.start_le hal hmem, h.le_stop hal hmem⟩

end Covers

namespace Slot
variable {place : Place} {tokens : List Token} {tree : Tree} {slots : List Slot}

/-- the first and the last token of a slot are where its span begins and ends -/
theorem covers {slot : Slot} (hmem : slot ∈ slots)
    (h : ∀ place tokens tree, .part place tokens tree ∈ slots → Covers tokens tree.span) :
    Covers slot.tokens slot.span := by
  cases slot with
  | own token => exact ⟨rfl, rfl⟩
  | part place tokens tree => exact h place tokens tree hmem

theorem ordered (hal : Aligned (all slots))
    (h : ∀ place tokens tree, .part place tokens tree ∈ slots → Covers tokens tree.span) :
    slots.Pairwise (fun a b => a.span.Precedes b.span) := by
  refine ((List.pairwise_flatMap.mp hal.ordered).2).imp_of_mem ?_
  intro a b ha hb hab
  obtain ⟨last, hend, hlast⟩ := Option.map_eq_some_iff.mp (covers ha h).last
  obtain ⟨first, hhead, hfirst⟩ := Option.map_eq_some_iff.mp (covers hb h).first
  have hprecedes : last.span.stop ≤ first.span.start :=
    hab last (List.mem_of_getLast? hend) first (List.mem_of_head? hhead)
  show a.span.stop ≤ b.span.start
  omega

end Slot

end Collate
