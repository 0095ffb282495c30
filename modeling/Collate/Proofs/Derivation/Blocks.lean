import Collate.Proofs.Derivation.Document
import Collate.Proofs.Derivation.Shelter
import Collate.Proofs.Node.Ancestors
import Collate.Proofs.Sequence.Safe

/-!
# To which call a `do` belongs

A `do` behind a call opens a block of that call, unless the call stands among the arguments of a command
or in the header of a loop: then it belongs to the command or the loop.  So a block with `do` is in such an
argument or header only if brackets or a body around it shelter it there.

* `Document.IsDoBlock`           a block that `do` opens;
* `Document.exposed`, `Document.Shelters`   the children in a command, and those in brackets or a body;
* `Document.sheltered_of_command`   by the induction of the tree, what a command holds is sheltered;
* `Document.own_unique`          a token belongs to one node;
* `Document.do_sheltered`        the blocks of a text, and the `do` behind the header of a loop.
-/

namespace Collate

namespace Node
variable {α : Type} {own : List Token} {node : Node α} {child : α}

theorem mem_children_of_enclosed (h : child ∈ node.enclosed own) : child ∈ node.children := by
  unfold enclosed at h
  split at h
  next => exact List.mem_cons_of_mem _ h
  next =>
    split at h
    next => exact List.mem_append_right _ (List.mem_append_right _ h)
    next => exact nomatch h
  next =>
    rcases List.mem_append.mp h with h | h
    · exact List.mem_cons_of_mem _ (List.mem_append_left _ h)
    · split at h
      next => exact List.mem_cons_of_mem _ (List.mem_append_right _ h)
      next => exact nomatch h
  next =>
    split at h
    next =>
      split at h
      next => exact List.mem_cons_of_mem _ (List.mem_of_mem_tail h)
      next => exact List.mem_cons_of_mem _ h
    next => exact nomatch h
  next => exact nomatch h

theorem mem_children_of_exposed (h : child ∈ node.exposed own) : child ∈ node.children := by
  unfold exposed at h
  split at h
  next =>
    split at h
    next => exact nomatch h
    next => exact List.mem_append_right _ h
  next =>
    split at h
    next => exact h
    next => exact nomatch h
  next =>
    split at h
    next =>
      rw [List.mem_singleton.mp h]
      exact List.mem_cons_self
    next => exact nomatch h
  next => exact nomatch h

end Node

namespace Document
variable {t : Text} {d : Document} {id child : Nat} {place inner : Place} {slots : List Slot}
  {tokens : List Token}

def IsDoBlock (d : Document) (id : Nat) : Prop :=
  (∃ owner params body, d.node id = .block owner params body) ∧
    (d.own id).head?.map (·.kind) = some (.keyword .do_)

/-- a child of a node stands in brackets or in a body of the node -/
def Shelters (d : Document) (id child : Nat) : Prop :=
  child ∈ (d.node id).children ∧ (d.node id).Shelters d.span (d.own id) child

/-- the arguments of a call or jump without parentheses, and the header of a loop -/
def exposed (d : Document) (id : Nat) : List Nat :=
  (d.node id).exposed (d.own id)

/-- the first token behind a node -/
def behind (d : Document) (id : Nat) : Option Token :=
  d.text.tokens.find? fun token => decide ((d.span id).stop ≤ token.span.start)

/-! ## from slots to numbers -/

theorem eq_of_tree_eq (hplaced : d.Placed) (hid : id < d.nodes.size) {a b : Nat}
    (ha : a ∈ (d.node id).children) (hb : b ∈ (d.node id).children)
    (htree : d.nodes.tree a = d.nodes.tree b) : a = b := by
  by_contra hne
  have hspan : d.nodes.span a = d.nodes.span b := congrArg Tree.span htree
  obtain ⟨hlt, haroot⟩ := hplaced.table.child_ne_root hid ha
  have hpos := hplaced.table.nonempty hlt haroot
  have hapart := hplaced.table.apart hid ha hb hne
  rw [hspan] at hpos hapart
  omega

/-- a child that is not sheltered stands at the place of its parent, or in a command -/
theorem Written.shelters (h : d.Written id place slots) (hplaced : d.Placed) (hid : id < d.nodes.size)
    (hchild : child ∈ (d.node id).children) (hmem : .part inner tokens (d.nodes.tree child) ∈ slots) :
    inner = place ∨ inner = .command ∨ d.Shelters id child := by
  have hplace := h.form.sheltered h.ordered hmem
  rw [← h.own_eq] at hplace
  refine hplace.imp_right fun hplace => hplace.imp_right fun hshelters => ⟨hchild, ?_⟩
  refine hshelters.imp_left fun henclosed => ?_
  rw [Node.enclosed_map] at henclosed
  obtain ⟨other, hother, htree⟩ := List.mem_map.mp henclosed
  rw [← eq_of_tree_eq hplaced hid (Node.mem_children_of_enclosed hother) hchild htree]
  exact hother

theorem Written.exposed_written (h : d.Written id place slots) (hplaced : d.Placed)
    (hid : id < d.nodes.size) (hchild : child ∈ d.exposed id) :
    ∃ slots', d.Written child .command slots' := by
  have htree : d.nodes.tree child ∈ ((d.node id).map d.nodes.tree).exposed (d.own id) := by
    rw [Node.exposed_map]
    exact List.mem_map_of_mem hchild
  rw [h.own_eq] at htree
  obtain ⟨tokens, hmem⟩ := h.form.exposed_command htree
  have hlt := (hplaced.table.child_ne_root hid (Node.mem_children_of_exposed hchild)).1
  obtain ⟨slots', -, hwritten⟩ := written_of_derived hplaced hlt (h.parts _ _ _ hmem)
    ((Slot.tokens_isInfix hmem).trans h.within)
  exact ⟨slots', hwritten⟩

/-! ## blocks in commands -/

/-- A block with `do` below a node of a command is sheltered by a node on the way. -/
theorem sheltered_of_command (hplaced : d.Placed) {block : Nat} (hblock : d.IsDoBlock block) (id : Nat) :
    ∀ slots, d.Written id .command slots → id < d.nodes.size → block ∈ d.nodes.preorder id →
      ∃ around ∈ d.nodes.preorder id, ∃ child, d.Shelters around child ∧ block ∈ d.nodes.preorder child := by
  have hforest := hplaced.table.forest
  induction id using Nat.strongRecOn with
  | ind id ih =>
    intro slots h hid hbelow
    obtain ⟨⟨owner, params, body, hnode⟩, hdo⟩ := hblock
    rcases (NodeTable.mem_preorder hforest.grounded hid).mp hbelow with rfl | ⟨child, hchild, hbelow⟩
    · -- the node itself is no block with `do`, as a command is no free place
      have hform := h.form
      rw [hnode] at hform
      rw [h.own_eq] at hdo
      exact nomatch hform.free_of_do hdo
    · have hlt := hforest.child_lt id hid child hchild
      rcases h.child hplaced hid hchild with ⟨inner, slots', hwritten, hmem⟩ | hlabel
      · rcases or_assoc.mpr (h.shelters hplaced hid hchild hmem) with hcommand | hshelters
        · obtain rfl : inner = .command := or_self_iff.mp hcommand
          obtain ⟨around, haround, hrest⟩ := ih child hlt slots' hwritten (by omega) hbelow
          exact ⟨around, (NodeTable.mem_preorder hforest.grounded hid).mpr (.inr ⟨child, hchild, haround⟩), hrest⟩
        · exact ⟨id, NodeTable.self_mem_preorder hforest.grounded hid, child, hshelters, hbelow⟩
      · obtain ⟨name, hsymbol⟩ := hlabel.node_eq
        have hnone : (d.nodes.node child).children = [] := congrArg Node.children hsymbol
        rw [NodeTable.eq_of_mem_preorder_leaf hforest.grounded (by omega) hnone hbelow] at hnode
        exact nomatch hnode.symm.trans hsymbol

/-! ## tokens behind a node -/

theorem lt_size_of_own {token : Token} (hown : token ∈ d.own id) : id < d.nodes.size := by
  by_contra hge
  obtain ⟨hmem, hown⟩ := List.mem_filter.mp hown
  obtain ⟨hcontains, -⟩ := Bool.and_eq_true_iff.mp hown
  have hne := (Document.aligned d.text).nonempty token hmem
  have hspan : d.span id = ⟨0, 0⟩ := by
    rw [span, NodeTable.span, NodeTable.row_of_size_le (Nat.le_of_not_lt hge)]
    rfl
  rw [hspan, Span.contains_iff] at hcontains
  have hstop : token.span.stop ≤ 0 := hcontains.2
  omega

theorem not_own_of_ancestor (hplaced : d.Placed) {token : Token} {above : Nat}
    (habove : above ∈ d.nodes.ancestors id) (hown : token ∈ d.own id) : token ∉ d.own above := by
  intro hown'
  have hlt := (NodeTable.lt_of_mem_ancestors hplaced.table.forest.grounded id habove).2
  obtain ⟨child, hchild, hbelow⟩ := NodeTable.below_child_of_mem_ancestors hplaced.table.forest.grounded id habove
  have hinside := hplaced.table.preorder_contained child (hplaced.table.child_ne_root hlt hchild).1 hbelow
  obtain ⟨hcontains, -⟩ := Bool.and_eq_true_iff.mp (List.mem_filter.mp hown).2
  obtain ⟨-, houtside⟩ := Bool.and_eq_true_iff.mp (List.mem_filter.mp hown').2
  obtain ⟨hstart, hstop⟩ := Span.contains_iff.mp hcontains
  have hinner : (d.span child).contains token.span = true :=
    Span.contains_iff.mpr ⟨Nat.le_trans hinside.1 hstart, Nat.le_trans hstop hinside.2⟩
  have hnot := List.all_eq_true.mp houtside child hchild
  rw [hinner] at hnot
  exact nomatch hnot

theorem own_unique (hplaced : d.Placed) {token : Token} {a b : Nat} (ha : token ∈ d.own a)
    (hb : token ∈ d.own b) : a = b := by
  by_contra hne
  have hpos := (Document.aligned d.text).nonempty token (List.mem_filter.mp ha).1
  obtain ⟨hina, -⟩ := Bool.and_eq_true_iff.mp (List.mem_filter.mp ha).2
  obtain ⟨hinb, -⟩ := Bool.and_eq_true_iff.mp (List.mem_filter.mp hb).2
  have hina : (d.nodes.span a).start ≤ _ ∧ _ ≤ (d.nodes.span a).stop := Span.contains_iff.mp hina
  have hinb : (d.nodes.span b).start ≤ _ ∧ _ ≤ (d.nodes.span b).stop := Span.contains_iff.mp hinb
  rcases hplaced.table.nested_or_apart_of_ne (lt_size_of_own ha) (lt_size_of_own hb) hne with
    (hnest | hapart) | (hnest | hapart)
  · exact not_own_of_ancestor hplaced hnest hb ha
  · have hapart : (d.nodes.span a).stop ≤ (d.nodes.span b).start := hapart
    omega
  · exact not_own_of_ancestor hplaced hnest ha hb
  · have hapart : (d.nodes.span b).stop ≤ (d.nodes.span a).start := hapart
    omega

/-- behind a node in a slot comes the first token of the slots behind it -/
theorem Written.behind_eq (before : List Slot) {after : List Slot} {token : Token}
    (h : d.Written id place (before ++ .part inner tokens (d.nodes.tree child) :: after))
    (htoken : (Slot.all after).head? = some token) : d.behind child = some token := by
  obtain ⟨front, back, htokens⟩ := h.within
  obtain ⟨rest, hafter⟩ := List.head?_eq_some_iff.mp htoken
  have hcovers := h.tree_covers inner tokens (d.nodes.tree child) (by simp)
  obtain ⟨last, hend, hlast⟩ := Option.map_eq_some_iff.mp hcovers.last
  obtain ⟨tokens', rfl⟩ := List.getLast?_eq_some_iff.mp hend
  have hall : d.text.tokens =
      (front ++ (Slot.all before ++ tokens')) ++ last :: token :: (rest ++ back) := by
    rw [← htokens, Slot.all_append, Slot.all_part, hafter]
    simp
  have hal := Document.aligned d.text
  rw [hall] at hal
  obtain ⟨-, hbehind, hfront⟩ := List.pairwise_append.mp hal.ordered
  have hnext : last.span.stop ≤ token.span.start := (List.pairwise_cons.mp hbehind).1 token (by simp)
  have hstop : last.span.stop = (d.span child).stop := hlast
  refine List.find?_eq_some_iff_append.mpr ⟨decide_eq_true (by omega),
    (front ++ (Slot.all before ++ tokens')) ++ [last], rest ++ back, ?_, ?_⟩
  · rw [hall]
    simp
  · intro other hother
    rw [Bool.not_eq_true', decide_eq_false_iff_not]
    rcases List.mem_append.mp hother with hother | hother
    · have hprecedes : other.span.stop ≤ last.span.start := hfront other hother last List.mem_cons_self
      have hpos := hal.nonempty other (List.mem_append_left _ hother)
      have hpos' := hal.nonempty last (by simp)
      omega
    · rw [List.mem_singleton.mp hother]
      have hpos := hal.nonempty last (by simp)
      omega

theorem Written.own_do {keyword : ConditionalKeyword} {span : Span} {condition : Nat}
    {body alternative : List Nat} {token : Token} (h : d.Written id place slots)
    (hnode : d.node id = .conditional keyword span false condition body alternative)
    (hloop : keyword = .while_ ∨ keyword = .until_) (hbehind : d.behind condition = some token)
    (hdo : token.kind = .keyword .do_) : token ∈ d.own id := by
  have hform := h.form
  rw [hnode, Node.map] at hform
  generalize hcondition : d.nodes.tree condition = tree at hform
  generalize body.map d.nodes.tree = trees at hform
  generalize alternative.map d.nodes.tree = others at hform
  rw [h.own_eq, Slot.mem_own]
  cases hform with
  | branch hk hkeyword => exact absurd hloop (by simp [hkeyword])
  | @repetition mark closing _ _ front inside hk hkeyword hopt hbody hend tokens =>
    subst hcondition
    have hnext (next : Token)
        (hhead : (Slot.all (front ++ inside ++ [.own closing])).head? = some next) : token = next := by
      have := Written.behind_eq [.own mark] h hhead
      exact Option.some.inj (hbehind.symm.trans this)
    cases hopt with
    | some rest hkind =>
      rw [hnext _ rfl]
      simp
    | none hrest =>
      rw [List.nil_append] at hnext
      obtain ⟨next, hhead⟩ : ∃ next, (Slot.all (inside ++ [.own closing])).head? = some next := by
        rw [Slot.all_append]
        exact ⟨_, List.head?_eq_some_head (by simp)⟩
      obtain rfl := hnext next hhead
      exact absurd hdo (hrest token hhead)

/-! ## all blocks of a text -/

/-- **A `do` opens no block of a call in a command.**  A block with `do` below an argument without parentheses,
or below the header of a loop, is in brackets or in a body inside that argument or header, and a `do` that
follows the header of a loop belongs to the loop and to nothing else. -/
theorem do_sheltered (t : Text) (d : Document) (hread : read t = .ok d) :
    (∀ id, ∀ child ∈ d.exposed id, ∀ block ∈ d.nodes.preorder child, d.IsDoBlock block →
      ∃ around ∈ d.nodes.preorder child, ∃ inner, d.Shelters around inner ∧
        block ∈ d.nodes.preorder inner) ∧
    (∀ id keyword span condition body alternative,
      d.node id = .conditional keyword span false condition body alternative →
      keyword = .while_ ∨ keyword = .until_ → ∀ token, d.behind condition = some token →
      token.kind = .keyword .do_ → ∀ owner, token ∈ d.own owner ↔ owner = id) := by
  obtain ⟨rfl, hplaced⟩ := placed_of_read hread
  constructor
  · intro id child hchild block hbelow hblock
    have hmem : child ∈ (d.node id).children := Node.mem_children_of_exposed hchild
    obtain ⟨hid, hne⟩ := hplaced.inner
      (by
        intro hnode
        rw [hnode] at hmem
        exact nomatch hmem)
      (by
        intro body hnode
        rw [exposed, hnode] at hchild
        exact nomatch hchild)
    obtain ⟨place, slots, h⟩ := exists_written hread hid hne
      (by
        intro name hnode
        rw [hnode] at hmem
        exact nomatch hmem)
    obtain ⟨slots', hwritten⟩ := h.exposed_written hplaced hid hchild
    exact sheltered_of_command hplaced hblock child slots' hwritten
      (hplaced.table.child_ne_root hid hmem).1 hbelow
  · intro id keyword span condition body alternative hnode hloop token hbehind hdo owner
    obtain ⟨hid, hne⟩ := hplaced.inner (by rw [hnode]; simp) (by rw [hnode]; simp)
    obtain ⟨place, slots, h⟩ := exists_written hread hid hne (by rw [hnode]; simp)
    have hown := h.own_do hnode hloop hbehind hdo
    constructor
    · exact fun hown' => own_unique hplaced hown' hown
    · intro heq
      rw [heq]
      exact hown

/-- in the header of a loop stands a command, whose argument has parentheses around a block -/
theorem do_sheltered_in_header :
    ∃ d, Document.read "while foo bar(baz do end) do end".toList = .ok d ∧ d.exposed 4 = [3] ∧
      d.exposed 3 = [2] ∧ d.IsDoBlock 1 ∧
      (∃ around ∈ d.nodes.preorder 2, ∃ inner, d.Shelters around inner ∧ 1 ∈ d.nodes.preorder inner) ∧
      ∃ token, d.behind 3 = some token ∧ token.kind = .keyword .do_ ∧
        ∀ owner, token ∈ d.own owner ↔ owner = 4 := by
  have hfacts : (Document.read "while foo bar(baz do end) do end".toList).toOption.map (fun d =>
      ([d.node 1, d.node 4], [d.exposed 4, d.exposed 3, d.nodes.preorder 2],
        [(d.own 1).head?.map (·.kind), (d.behind 3).map (·.kind)])) =
      some ([.block 0 [] [], .conditional .while_ ⟨0, 5⟩ false 3 [] []], [[3], [2], [2, 1, 0]],
        [some (.keyword .do_), some (.keyword .do_)]) := by
    decide +kernel
  obtain ⟨d, hd, hfacts⟩ := Option.map_eq_some_iff.mp hfacts
  simp only [Prod.mk.injEq, List.cons.injEq, and_true] at hfacts
  obtain ⟨⟨hblock, hloop⟩, ⟨hheader, hargs, hbelow⟩, hopening, hbehind⟩ := hfacts
  obtain ⟨token, hbehind, hdo⟩ := Option.map_eq_some_iff.mp hbehind
  obtain ⟨hblocks, hloops⟩ := do_sheltered _ d (eq_ok_of_toOption hd)
  have hisBlock : d.IsDoBlock 1 := ⟨⟨0, [], [], hblock⟩, hopening⟩
  refine ⟨d, eq_ok_of_toOption hd, hheader, hargs, hisBlock, ?_, token, hbehind, hdo, ?_⟩
  · exact hblocks 3 2 (by rw [hargs]; simp) 1 (by rw [hbelow]; simp) hisBlock
  · exact hloops 4 .while_ ⟨0, 5⟩ 3 [] [] hloop (.inl rfl) token hbehind hdo

end Document

end Collate
