import Mathlib.Data.List.Basic
import Collate.Proofs.Derivation.Statement
import Collate.Proofs.Derivation.Trees
import Collate.Proofs.Document.Placed

/-!
# How the nodes of a document are written

Every node of a document that was read is written as slots over a run of tokens of its text, or it is the
symbol of a label.  The tokens that a construct has of its own are those in its span and in none of its
children.

* `Document.Written`          the slots of a node;
* `Document.OfLabel`          the symbol of a label;
* `Document.written_of_read`  all nodes but the root are one of these;
* `Document.own`              the own tokens of a node;
* `Document.Written.own_eq`   they are those of its slots.
-/

namespace Collate

/-- a tree derived from a run of tokens of a text, or the symbol of a label -/
inductive Tree.Stands (t : Text) : Tree → Prop
  | derived {place : Place} {tokens : List Token} {tree : Tree} (h : tree.Derived place tokens)
      (hwithin : tokens <:+: t.tokens) : Tree.Stands t tree
  | label {token : Token} {name : Text} (hmem : token ∈ t.tokens) (h : token.kind = .label name) :
      Tree.Stands t (.ofLabel name token)

theorem Slot.tokens_isInfix {slot : Slot} {slots : List Slot} (hmem : slot ∈ slots) :
    slot.tokens <:+: Slot.all slots := by
  obtain ⟨front, back, rfl⟩ := List.append_of_mem hmem
  exact ⟨Slot.all front, Slot.all back, by simp [Slot.all]⟩

theorem Tree.Stands.children {t : Text} {tree : Tree} (h : tree.Stands t) :
    ∀ child ∈ tree.children, child.Stands t := by
  intro child hchild
  cases h with
  | label hmem h => exact nomatch hchild
  | derived h hwithin =>
    cases h with
    | mk form covers parts =>
      rcases form.of_mem_children hchild with htree | ⟨name, token, hmem, hk, rfl⟩
      · obtain ⟨inner, tokens, hmem⟩ := Slot.mem_trees.mp htree
        exact .derived (parts inner tokens child hmem) ((Slot.tokens_isInfix hmem).trans hwithin)
      · exact .label (hwithin.subset ((Slot.tokens_isInfix hmem).subset List.mem_cons_self)) hk

/-- a node of this number is written as these slots, at a place -/
structure Document.Written (d : Document) (id : Nat) (place : Place) (slots : List Slot) : Prop where
  form : Form place ((d.node id).map d.nodes.tree) slots
  covers : Covers (Slot.all slots) (d.span id)
  parts : ∀ inner tokens tree, .part inner tokens tree ∈ slots → tree.Derived inner tokens
  within : Slot.all slots <:+: d.text.tokens

def Document.OfLabel (d : Document) (id : Nat) : Prop :=
  ∃ token ∈ d.text.tokens, ∃ name, token.kind = .label name ∧ d.nodes.tree id = .ofLabel name token

namespace Document
variable {t : Text} {d : Document} {id : Nat} {place : Place} {slots : List Slot}

theorem OfLabel.node_eq (h : d.OfLabel id) : ∃ name, d.node id = .symbol name := by
  obtain ⟨token, -, name, -, htree⟩ := h
  have hnode : (d.node id).map (d.nodes.unfold id) = .symbol name := congrArg Tree.node htree
  cases hid : d.node id with
  | symbol name => exact ⟨name, rfl⟩
  | _ =>
    rw [hid] at hnode
    exact nomatch hnode

theorem written_of_derived (hplaced : d.Placed) (hid : id < d.nodes.size) {tokens : List Token}
    (h : (d.nodes.tree id).Derived place tokens) (hwithin : tokens <:+: d.text.tokens) :
    ∃ slots, tokens = Slot.all slots ∧ d.Written id place slots := by
  rw [NodeTable.tree_eq hplaced.table.forest hid] at h
  cases h with
  | mk form covers parts => exact ⟨_, rfl, form, covers, parts, hwithin⟩

/-- **Every node of a document that was read is written as slots**, or it is the symbol of a label. -/
theorem written_of_read (h : Document.read t = .ok d) (hid : id < d.nodes.size) (hne : id ≠ d.root) :
    (∃ place slots, d.Written id place slots) ∨ d.OfLabel id := by
  obtain ⟨comments, htree, -⟩ := Document.read_eq_ok.mp h
  obtain ⟨stream, body, s', hstream, hprogram, hbody, -⟩ := Tree.read_eq_ok.mp htree
  have hvalid := TokenStream.cursor_valid hstream
  obtain ⟨⟨slots, hform, hspells⟩, -⟩ := (Parse.program_derives hvalid).of_ok hprogram
  obtain ⟨rfl, hplaced⟩ := Document.placed_of_read h
  have hforest := hplaced.table.forest
  -- the statements of the file stand in the text
  have hbelow : ∀ tree ∈ body, tree.Stands d.text := by
    intro tree hmem
    rw [← hform.trees_eq] at hmem
    obtain ⟨inner, tokens, hmem⟩ := Slot.mem_trees.mp hmem
    refine .derived (hspells.derived inner tokens tree hmem) ((Slot.tokens_isInfix hmem).trans ?_)
    rw [Text.tokens_of_read hstream]
    exact ⟨[], s'.ahead, by rw [List.nil_append, ← hspells.ahead_eq]⟩
  have hstands : (d.nodes.tree id).Stands d.text := by
    refine NodeTable.forall_of_children hforest (fun _ h => h.children) ?_ _ id hid hne (Nat.le_refl _)
    intro child hchild
    have hmem : d.nodes.tree child ∈ d.tree.children := by
      rw [Tree.children, tree, NodeTable.tree_node hforest hplaced.table.root_lt, Node.children_map]
      exact List.mem_map_of_mem hchild
    rw [hbody] at hmem
    exact hbelow _ hmem
  generalize htree : d.nodes.tree id = tree at hstands
  cases hstands with
  | derived h hwithin =>
    rw [← htree] at h
    obtain ⟨slots, -, hwritten⟩ := written_of_derived hplaced hid h hwithin
    exact .inl ⟨_, slots, hwritten⟩
  | label hmem h => exact .inr ⟨_, hmem, _, h, htree⟩

theorem exists_written (h : Document.read t = .ok d) (hid : id < d.nodes.size) (hne : id ≠ d.root)
    (hsymbol : ∀ name, d.node id ≠ .symbol name) : ∃ place slots, d.Written id place slots := by
  rcases written_of_read h hid hne with hwritten | hlabel
  · exact hwritten
  · obtain ⟨name, hnode⟩ := hlabel.node_eq
    exact absurd hnode (hsymbol name)

/-! ## the tokens of a node -/

/-- the token is in the span of a construct and in none of its children -/
def isOwn (d : Document) (id : Nat) (token : Token) : Bool :=
  (d.span id).contains token.span &&
    (d.node id).children.all fun child => !(d.span child).contains token.span

/-- the tokens that a construct has of its own -/
def own (d : Document) (id : Nat) : List Token :=
  d.text.tokens.filter (d.isOwn id)

theorem aligned (t : Text) : Aligned t.tokens :=
  ⟨t.tokens_fit.2, fun token hmem => (t.tokens_fit.1 token hmem).nonempty⟩

namespace Written
variable (h : d.Written id place slots)
include h

theorem aligned : Aligned (Slot.all slots) :=
  (Document.aligned d.text).sublist h.within.sublist

theorem tree_covers (inner : Place) (tokens : List Token) (tree : Tree)
    (hmem : .part inner tokens tree ∈ slots) : Covers tokens tree.span := by
  cases h.parts inner tokens tree hmem with
  | mk form covers parts => exact covers

theorem ordered : slots.Pairwise (fun a b => a.span.Precedes b.span) :=
  Slot.ordered h.aligned h.tree_covers

/-- a child is written in a slot of its parent, or it is the symbol of a label -/
theorem child (hplaced : d.Placed) (hid : id < d.nodes.size) {child : Nat}
    (hchild : child ∈ (d.node id).children) :
    (∃ inner slots', d.Written child inner slots' ∧
      .part inner (Slot.all slots') (d.nodes.tree child) ∈ slots) ∨ d.OfLabel child := by
  have hlt := (hplaced.table.child_ne_root hid hchild).1
  have hmem : d.nodes.tree child ∈ ((d.node id).map d.nodes.tree).children := by
    rw [Node.children_map]
    exact List.mem_map_of_mem hchild
  rcases h.form.of_mem_children hmem with htree | ⟨name, token, hmem, hk, htree⟩
  · obtain ⟨inner, tokens, hmem⟩ := Slot.mem_trees.mp htree
    have hderived := h.parts inner tokens _ hmem
    obtain ⟨slots', rfl, hwritten⟩ := written_of_derived hplaced hlt hderived
      ((Slot.tokens_isInfix hmem).trans h.within)
    exact .inl ⟨inner, slots', hwritten, hmem⟩
  · exact .inr ⟨token, h.within.subset ((Slot.tokens_isInfix hmem).subset List.mem_cons_self), name, hk,
      htree⟩

/-- the tokens in front of the slots and behind them are not in the span of the node -/
theorem not_contains_of_outside {front back : List Token}
    (htokens : front ++ Slot.all slots ++ back = d.text.tokens) {token : Token}
    (hmem : token ∈ front ∨ token ∈ back) : (d.span id).contains token.span = false := by
  have hal := Document.aligned d.text
  rw [← htokens] at hal
  obtain ⟨hfront, -, hback⟩ := List.pairwise_append.mp hal.ordered
  rw [Bool.eq_false_iff, ne_eq, Span.contains_iff]
  rintro ⟨hstart, hstop⟩
  rcases hmem with hmem | hmem
  · obtain ⟨first, hhead, hfirst⟩ := Option.map_eq_some_iff.mp h.covers.first
    have hprecedes : token.span.stop ≤ first.span.start :=
      (List.pairwise_append.mp hfront).2.2 token hmem first (List.mem_of_head? hhead)
    have hne := hal.nonempty token (by simp [hmem])
    omega
  · obtain ⟨last, hend, hlast⟩ := Option.map_eq_some_iff.mp h.covers.last
    have hprecedes : last.span.stop ≤ token.span.start :=
      hback last (List.mem_append_right _ (List.mem_of_getLast? hend)) token hmem
    have hne := hal.nonempty token (by simp [hmem])
    omega

theorem not_contains_of_own {token : Token} (hmem : .own token ∈ slots) {tree : Tree}
    (htree : tree ∈ ((d.node id).map d.nodes.tree).children) : tree.span.contains token.span = false := by
  rw [Bool.eq_false_iff, ne_eq, Span.contains_iff]
  rintro ⟨hstart, hstop⟩
  have hne := h.aligned.nonempty token ((Slot.tokens_isInfix hmem).subset List.mem_cons_self)
  rcases h.form.of_mem_children htree with htree | ⟨name, label, hlabel, hk, rfl⟩
  · obtain ⟨inner, tokens, hpart⟩ := Slot.mem_trees.mp htree
    have hapart := Span.precedes_of_pairwise h.ordered hmem hpart (fun heq => nomatch heq)
    simp only [Slot.span, Span.Precedes] at hapart
    omega
  · by_cases heq : token = label
    · -- the symbol ends in front of the colon
      subst heq
      simp only [Tree.ofLabel, Tree.span] at hstop
      omega
    · have hapart := Span.precedes_of_pairwise h.ordered hmem hlabel (fun h => heq (Slot.own.inj h))
      simp only [Slot.span, Span.Precedes] at hapart
      simp only [Tree.ofLabel, Tree.span] at hstart hstop
      omega

/-- of the tokens of a slot, the node has the one that is no construct -/
theorem filter_isOwn {slot : Slot} (hmem : slot ∈ slots) :
    slot.tokens.filter (d.isOwn id) = slot.own?.toList := by
  have hsub := Slot.tokens_isInfix hmem
  cases slot with
  | own token =>
    refine List.filter_eq_self.mpr fun other hother => ?_
    rw [List.mem_singleton.mp hother, isOwn, h.covers.contains h.aligned (hsub.subset List.mem_cons_self),
      Bool.true_and, List.all_eq_true]
    intro child hchild
    have htree : d.nodes.tree child ∈ ((d.node id).map d.nodes.tree).children := by
      rw [Node.children_map]
      exact List.mem_map_of_mem hchild
    have houtside := h.not_contains_of_own hmem htree
    rw [NodeTable.tree_span] at houtside
    rw [Document.span, houtside]
    rfl
  | part inner tokens tree =>
    refine List.filter_eq_nil_iff.mpr fun token htoken hall => ?_
    obtain ⟨-, hall⟩ := Bool.and_eq_true_iff.mp hall
    have htree := h.form.mem_children (Slot.mem_trees.mpr ⟨inner, tokens, hmem⟩)
    rw [Node.children_map] at htree
    obtain ⟨child, hchild, rfl⟩ := List.mem_map.mp htree
    have hinside := (h.tree_covers inner tokens _ hmem).contains (h.aligned.sublist hsub.sublist) htoken
    have houtside := List.all_eq_true.mp hall child hchild
    rw [NodeTable.tree_span] at hinside
    rw [Document.span, hinside] at houtside
    exact Bool.noConfusion houtside

/-- **The own tokens of a node are those of its slots.** -/
theorem own_eq : d.own id = slots.filterMap Slot.own? := by
  obtain ⟨front, back, htokens⟩ := h.within
  have hnone (side : List Token) (hside : ∀ token ∈ side, token ∈ front ∨ token ∈ back) :
      side.filter (d.isOwn id) = [] := by
    refine List.filter_eq_nil_iff.mpr fun token hmem hown => ?_
    rw [isOwn, h.not_contains_of_outside htokens (hside token hmem)] at hown
    exact nomatch hown
  rw [own, ← htokens, List.filter_append, List.filter_append, hnone front fun token hmem => .inl hmem,
    hnone back fun token hmem => .inr hmem, List.nil_append, List.append_nil, Slot.all,
    List.filter_flatMap, List.filterMap_eq_flatMap_toList]
  exact List.flatMap_congr fun slot hmem => h.filter_isOwn hmem

end Written

end Document

end Collate
