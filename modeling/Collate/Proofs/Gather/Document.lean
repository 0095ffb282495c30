import Collate.Proofs.Derivation.Document
import Collate.Proofs.Gather.Statement
import Collate.Proofs.Rule.Literals
import Collate.Proofs.Separator.Sequence

/-!
# The argument lists of a document

Calls, jumps, indices and arrays have argument lists.  In a document that was read, the literals without
braces are the runs of pairs and double splats in these lists and nothing else, and opening them gives the
arguments back.

* `Document.argumentList`        the argument list of a node;
* `Document.arranged_of_read`    all nodes are arranged;
* `Document.lastRun`             the run at the end of an argument list;
* `Document.Gathers`             what is gathered in a document, and that nothing is lost by it;
* `Document.arguments_gathered`  this holds of every document that was read.
-/

namespace Collate

/-! ## argument lists -/

namespace Token
variable {α β : Type} {token : Token} {start : Nat} {children items : List α}

/-- The arguments among the children of a construct that is no call, told by the first token of its own:
behind `return` and `yield` all children, and between brackets all but the construct in front of them. -/
def listed (token : Token) (start : Nat) (children : List α) : Option (List α) :=
  match token.kind with
  | .keyword .return_ => some children
  | .keyword .yield_ => some children
  | .leftBracket => some (if token.span.start = start then children else children.tail)
  | _ => none

theorem listed_map (f : α → β) :
    token.listed start (children.map f) = (token.listed start children).map (List.map f) := by
  unfold listed
  split
  next => rfl
  next => rfl
  next => rw [Option.map_some, apply_ite (List.map f), List.map_tail]
  next => rfl

theorem listed_kind (h : token.listed start children = some items) :
    token.kind = .keyword .return_ ∨ token.kind = .keyword .yield_ ∨ token.kind = .leftBracket := by
  unfold listed at h
  split at h
  next hk => exact .inl hk
  next hk => exact .inr (.inl hk)
  next hk => exact .inr (.inr hk)
  next => exact nomatch h

theorem listed_suffix (h : token.listed start children = some items) : items <:+ children := by
  unfold listed at h
  split at h
  next => exact Option.some.inj h ▸ List.suffix_rfl
  next => exact Option.some.inj h ▸ List.suffix_rfl
  next =>
    rw [← Option.some.inj h]
    split
    next => exact List.suffix_rfl
    next => exact List.tail_suffix children
  next => exact nomatch h

end Token

/-- the tokens of some slots that are in no construct -/
def Slot.owned (slots : List Slot) : List Token :=
  slots.filterMap Slot.own?

section
variable {t : Text} {place : Place} {span : Span} {children items : List Tree} {slots : List Slot}

/-- a construct with an argument list is told by its first own token -/
theorem Slot.Lists.listed (h : Slot.Lists place children items slots) (hstand : Slot.Stand t span slots) :
    ∃ token, (Slot.owned slots).head? = some token ∧ token.listed span.start children = some items := by
  -- the opening bracket of a group
  have hgroup {marks : Delimiters} {slots : List Slot}
      (h : Slot.Group .leftBracket .rightBracket true marks items slots) :
      ∃ opening rest, slots = .own opening :: rest ∧ opening.kind = .leftBracket := by
    cases h with
    | empty hleft hright => exact ⟨_, _, rfl, hleft⟩
    | items hleft hright hitems => exact ⟨_, _, rfl, hleft⟩
  obtain ⟨first, hfirst, hstart⟩ := Option.map_eq_some_iff.mp hstand.covers.first
  cases h with
  | @jump token _ slots h hargs =>
    refine ⟨token, rfl, ?_⟩
    rcases h with hk | hk <;> simp [Token.listed, hk]
  | array h =>
    obtain ⟨opening, rest, rfl, hk⟩ := hgroup h
    obtain rfl : opening = first := Option.some.inj hfirst
    exact ⟨opening, rfl, by simp [Token.listed, hk, hstart]⟩
  | @index _ _ slots h front tree =>
    obtain ⟨opening, rest, rfl, hk⟩ := hgroup h
    refine ⟨opening, rfl, ?_⟩
    -- the construct in front has the first token
    have hbefore : opening.span.start ≠ span.start := by
      have hal : Aligned (Slot.all (.part place front tree :: .own opening :: rest)) :=
        (Document.aligned t).sublist hstand.within.sublist
      cases hstand.derived place front tree List.mem_cons_self with
      | mk form covers parts =>
        obtain ⟨token, htoken, -⟩ := Option.map_eq_some_iff.mp covers.first
        rw [Slot.all_part, List.head?_append, htoken] at hfirst
        obtain rfl : token = first := Option.some.inj hfirst
        have hmem := List.mem_of_head? htoken
        have hprecedes : token.span.stop ≤ opening.span.start :=
          (List.pairwise_append.mp hal.ordered).2.2 token hmem opening List.mem_cons_self
        have hne := hal.nonempty token (List.mem_append_left _ hmem)
        omega
    simp [Token.listed, hk, hbefore]

/-- a construct that is no call has an argument list if its first own token says so -/
theorem Form.lists_of_listed (h : Form place (.other children) slots) (hstand : Slot.Stand t span slots)
    {token : Token} (htoken : (Slot.owned slots).head? = some token)
    (hlisted : token.listed span.start children = some items) : Slot.Lists place children items slots := by
  have hkind := Token.listed_kind hlisted
  have hlists {found : List Tree} (hfound : Slot.Lists place children found slots) :
      Slot.Lists place children items slots := by
    obtain ⟨token', htoken', hlisted'⟩ := hfound.listed hstand
    obtain rfl : token' = token := Option.some.inj (htoken'.symm.trans htoken)
    obtain rfl : found = items := Option.some.inj (hlisted'.symm.trans hlisted)
    exact hfound
  cases h with
  | jump h hargs => exact hlists (.jump h hargs)
  | index hgroup front tree => exact hlists (.index hgroup front tree)
  | array hgroup => exact hlists (.array hgroup)
  | leaf h =>
    obtain rfl := Option.some.inj htoken
    rcases hkind with hk | hk | hk <;> exact nomatch hk ▸ h
  | namespaced h =>
    obtain rfl := Option.some.inj htoken
    rcases hkind with hk | hk | hk <;> simp [hk] at h
  | leading h =>
    obtain rfl := Option.some.inj htoken
    rcases hkind with hk | hk | hk <;> simp [hk, Parse.isLeading] at h
  | binary h =>
    obtain rfl := Option.some.inj htoken
    rcases hkind with hk | hk | hk <;> simp [hk, Parse.isBinary] at h
  | scope h =>
    obtain rfl := Option.some.inj htoken
    rcases hkind with hk | hk | hk <;> simp [hk] at h
  | parenthesized h =>
    obtain rfl := Option.some.inj htoken
    rcases hkind with hk | hk | hk <;> simp [hk] at h
  | otherAssignment h =>
    obtain rfl := Option.some.inj htoken
    rcases hkind with hk | hk | hk <;> exact nomatch hk ▸ h

end

/-! ## nodes -/

namespace Document
variable {t : Text} {d : Document} {id : Nat} {items : List Nat}

def argumentList (d : Document) (id : Nat) : Option (List Nat) :=
  match d.node id with
  | .call _ _ _ args => some args
  | .other children => (d.own id).head?.bind fun token => token.listed (d.span id).start children
  | _ => none

theorem argumentList_suffix (h : d.argumentList id = some items) : items <:+ (d.node id).children := by
  unfold argumentList at h
  split at h
  next receiver method selector args hnode =>
    rw [hnode, ← Option.some.inj h]
    exact List.suffix_append _ _
  next children hnode =>
    obtain ⟨token, -, hlisted⟩ := Option.bind_eq_some_iff.mp h
    rw [hnode]
    exact Token.listed_suffix hlisted
  next => exact nomatch h

/-- the argument list of a node that is no call, from the slots it is written as -/
theorem argumentList_of_lists {children : List Nat} (hnode : d.node id = .other children)
    {place : Place} {found : List Tree} {slots : List Slot}
    (hlists : Slot.Lists place (children.map d.nodes.tree) found slots)
    (hstand : Slot.Stand d.text (d.span id) slots) :
    ∃ items, d.argumentList id = some items ∧ items.map d.nodes.tree = found := by
  have hwritten : d.Written id place slots :=
    ⟨by rw [hnode]; exact hlists.form, hstand.covers, hstand.derived, hstand.within⟩
  obtain ⟨token, htoken, hlisted⟩ := hlists.listed hstand
  rw [Token.listed_map] at hlisted
  obtain ⟨items, hitems, hmap⟩ := Option.map_eq_some_iff.mp hlisted
  refine ⟨items, ?_, hmap⟩
  rw [argumentList, hnode]
  show (d.own id).head?.bind (fun token => token.listed (d.span id).start children) = some items
  rw [hwritten.own_eq]
  exact Option.bind_eq_some_iff.mpr ⟨token, htoken, hitems⟩

/-- **All nodes of a document that was read are arranged.** -/
theorem arranged_of_read (h : Document.read t = .ok d) (hid : id < d.nodes.size) :
    ((d.node id).map d.nodes.tree).Arranged d.text (d.span id) := by
  obtain ⟨comments, htree, -⟩ := Document.read_eq_ok.mp h
  obtain ⟨stream, body, s', hstream, hprogram, hbody, -⟩ := Tree.read_eq_ok.mp htree
  obtain ⟨-, hordinary⟩ := (Parse.program_arranges _ (TokenStream.cursor_valid hstream)).of_ok hprogram
  obtain ⟨rfl, hplaced⟩ := placed_of_read h
  have hforest := hplaced.table.forest
  have hroot : d.tree.Arranged d.text := by
    rw [hbody]
    exact .of_ordinary hordinary
  have hdown (tree : Tree) (h : tree.Arranged d.text) : ∀ child ∈ tree.children, child.Arranged d.text := by
    cases h with
    | mk here below => exact below
  have hall : (d.nodes.tree id).Arranged d.text := by
    by_cases hne : id = d.root
    · rw [hne]
      exact hroot
    · refine NodeTable.forall_of_children hforest hdown ?_ _ id hid hne (Nat.le_refl _)
      intro child hchild
      refine hdown _ hroot _ ?_
      rw [Tree.children, tree, NodeTable.tree_node hforest hplaced.table.root_lt, Node.children_map]
      exact List.mem_map_of_mem hchild
  rw [NodeTable.tree_eq hforest hid] at hall
  cases hall with
  | mk here below => exact here

namespace Placed
variable (h : d.Placed)
include h

theorem node_tree (hitems : ∀ item ∈ items, item < d.nodes.size) :
    ∀ item ∈ items, (d.nodes.tree item).node = (d.node item).map d.nodes.tree :=
  fun item hmem => NodeTable.tree_node h.table.forest (hitems item hmem)

theorem gathered_of_tree (hitems : ∀ item ∈ items, item < d.nodes.size)
    (hgathered : Gathered Tree.node (items.map d.nodes.tree)) : Gathered d.node items := by
  have hnode := h.node_tree hitems
  refine ⟨fun item hmem => ?_, ?_⟩
  · have helement := hgathered.element _ (List.mem_map_of_mem hmem)
    rwa [hnode item hmem, Node.isElement_map] at helement
  · refine ((List.isChain_map _).mp hgathered.apart).imp_of_mem_imp fun a b ha hb hab => ?_
    rwa [hnode a ha, hnode b hb, Node.isBare_map, Node.isBare_map] at hab

theorem opened_tree (hitems : ∀ item ∈ items, item < d.nodes.size) :
    opened Tree.node (items.map d.nodes.tree) = (opened d.node items).map d.nodes.tree := by
  rw [opened, opened, List.flatMap_map, List.map_flatMap]
  refine List.flatMap_congr fun item hmem => ?_
  rw [h.node_tree hitems item hmem, Node.ungroup_map]

end Placed

section
variable (hread : Document.read t = .ok d)
include hread

theorem exists_parent_of_read (hid : id < d.nodes.size) (hne : id ≠ d.root) :
    ∃ parent < d.nodes.size, d.parent id = some parent ∧ id ∈ (d.node parent).children ∧
      (d.nodes.tree id).node = (d.node id).map d.nodes.tree ∧
      d.nodes.tree id ∈ ((d.node parent).map d.nodes.tree).children := by
  obtain ⟨rfl, hplaced⟩ := placed_of_read hread
  have hforest := hplaced.table.forest
  obtain ⟨parent, hparent⟩ := NodeTable.exists_parent hforest hid hne
  obtain ⟨hlt, hmem⟩ := (hforest.parent_iff id parent).mp hparent
  refine ⟨parent, hlt, hparent, hmem, NodeTable.tree_node hforest hid, ?_⟩
  rw [Node.children_map]
  exact List.mem_map_of_mem hmem

theorem items_lt (hid : id < d.nodes.size) (hlist : d.argumentList id = some items) :
    ∀ item ∈ items, item < d.nodes.size := by
  obtain ⟨rfl, hplaced⟩ := placed_of_read hread
  intro item hmem
  exact (hplaced.table.child_ne_root hid ((argumentList_suffix hlist).subset hmem)).1

theorem argumentList_gathered (hid : id < d.nodes.size) (hlist : d.argumentList id = some items) :
    Gathered d.node items := by
  have hitems := items_lt hread hid hlist
  have harranged := arranged_of_read hread hid
  obtain ⟨rfl, hplaced⟩ := placed_of_read hread
  rcases harranged.children_gathered with ⟨braces, elements, hnode, -⟩ | hgathered
  · -- a literal has no argument list
    cases hd : d.node id with
    | literal braces elements =>
      rw [argumentList, hd] at hlist
      exact nomatch hlist
    | _ => exact nomatch hd ▸ hnode
  · rw [Node.children_map] at hgathered
    exact hplaced.gathered_of_tree hitems (hgathered.suffix ((argumentList_suffix hlist).map _))

theorem element_parent (helement : (d.node id).isElement = true) :
    ∃ literal braces elements, d.parent id = some literal ∧ d.node literal = .literal braces elements ∧
      id ∈ elements := by
  have hplaced := (placed_of_read hread).2
  have hother {node : Node Nat} (hnode : node.isElement = false) : d.node id ≠ node := by
    rintro rfl
    exact nomatch hnode.symm.trans helement
  obtain ⟨hid, hne⟩ := hplaced.inner (hother rfl) fun _ => hother rfl
  obtain ⟨parent, hlt, hparent, hmem, hnode, htree⟩ := exists_parent_of_read hread hid hne
  have hliteral : ∃ braces elements, d.node parent = .literal braces elements := by
    rcases (arranged_of_read hread hlt).children_gathered with ⟨braces, elements, hnode, -⟩ | hgathered
    · cases hd : d.node parent with
      | literal braces elements => exact ⟨braces, elements, rfl⟩
      | _ => exact nomatch hd ▸ hnode
    · have hcontra := hgathered.element _ htree
      rw [hnode, Node.isElement_map, helement] at hcontra
      exact nomatch hcontra
  obtain ⟨braces, elements, hliteral⟩ := hliteral
  rw [hliteral] at hmem
  exact ⟨parent, braces, elements, hparent, hliteral, hmem⟩

/-- a literal without braces is an item of the argument list of its parent -/
theorem bare_parent {elements : List Nat} (hbare : d.node id = .literal none elements) :
    ∃ parent items, d.parent id = some parent ∧ d.argumentList parent = some items ∧ id ∈ items := by
  have hplaced := (placed_of_read hread).2
  obtain ⟨hid, hne⟩ := hplaced.inner (by rw [hbare]; simp) (by rw [hbare]; simp)
  obtain ⟨parent, hlt, hparent, hmem, hnode, htree⟩ := exists_parent_of_read hread hid hne
  have hisBare : (d.nodes.tree id).node.isBare = true := by rw [hnode, hbare]; rfl
  -- it is none of the plain constructs in front of the list
  have hbehind {front : List Nat} (hfront : ∀ tree ∈ front.map d.nodes.tree, tree.node.Plain)
      {items : List Nat} (hmem : id ∈ front ++ items) : id ∈ items := by
    rcases List.mem_append.mp hmem with hmem | hmem
    · exact nomatch (hfront _ (List.mem_map_of_mem hmem)).bare.symm.trans hisBare
    · exact hmem
  rcases (arranged_of_read hread hlt).of_bare htree hisBare with
    ⟨receiver, method, selector, args, hcall, hreceiver⟩ |
    ⟨place, front, found, slots, hother, hfront, hlists, hstand⟩
  · cases hd : d.node parent with
    | call receiver' method' selector' args' =>
      rw [hd] at hcall hmem
      obtain ⟨rfl, -, -, -⟩ := Node.call.inj hcall
      refine ⟨parent, args', hparent, by rw [argumentList, hd], hbehind (fun tree htree => ?_) hmem⟩
      rw [← Node.toList_map_option] at htree
      exact hreceiver tree (Option.mem_toList.mp htree)
    | _ => exact nomatch hd ▸ hcall
  · cases hd : d.node parent with
    | other children =>
      rw [hd] at hother hmem
      have hchildren := Node.other.inj hother
      rw [← hchildren] at hlists
      obtain ⟨items, hlist, rfl⟩ := argumentList_of_lists hd hlists hstand
      obtain ⟨front', hsplit⟩ := argumentList_suffix hlist
      rw [hd] at hsplit
      obtain rfl : front' ++ items = children := hsplit
      rw [List.map_append] at hchildren
      obtain rfl : front'.map d.nodes.tree = front := List.append_cancel_right hchildren
      exact ⟨parent, items, hparent, hlist, hbehind hfront hmem⟩
    | _ => exact nomatch hd ▸ hother

theorem bare_elements {elements : List Nat} (hbare : d.node id = .literal none elements) :
    elements ≠ [] ∧ ∀ element ∈ elements, (d.node element).isElement = true := by
  have hplaced := (placed_of_read hread).2
  obtain ⟨hid, hne⟩ := hplaced.inner (by rw [hbare]; simp) (by rw [hbare]; simp)
  obtain ⟨place, slots, hwritten⟩ := exists_written hread hid hne (by rw [hbare]; simp)
  have hlt (element : Nat) (hmem : element ∈ elements) : element < d.nodes.size :=
    (hplaced.child_ne_root hid hbare hmem).1
  have hform := hwritten.form
  rw [hbare] at hform
  generalize htrees : elements.map d.nodes.tree = trees at hform
  cases hform with
  | bare hitems helements =>
    subst htrees
    refine ⟨fun hnil => hitems.ne_nil (by rw [hnil]; rfl), fun element hmem => ?_⟩
    have helement := helements _ (List.mem_map_of_mem hmem)
    rwa [Tree.isElement_eq, hplaced.node_tree hlt element hmem, Node.isElement_map] at helement

/-- a literal without braces reaches from its first element to its last one -/
theorem bare_span {elements : List Nat} (hbare : d.node id = .literal none elements) :
    ∃ first last, elements.head? = some first ∧ elements.getLast? = some last ∧
      d.span id = (d.span first).join (d.span last) := by
  have hplaced := (placed_of_read hread).2
  obtain ⟨hid, hne⟩ := hplaced.inner (by rw [hbare]; simp) (by rw [hbare]; simp)
  obtain ⟨hstart, hstop⟩ : (elements.map d.nodes.tree).head?.map (·.span.start) = some (d.span id).start ∧
      (elements.map d.nodes.tree).getLast?.map (·.span.stop) = some (d.span id).stop :=
    hplaced.marked hid hne hbare
  have hnonempty := (bare_elements hread hbare).1
  have hfirst := List.head?_eq_some_head hnonempty
  have hlast := List.getLast?_eq_some_getLast hnonempty
  generalize elements.head hnonempty = first at hfirst
  generalize elements.getLast hnonempty = last at hlast
  rw [List.head?_map, hfirst] at hstart
  rw [List.getLast?_map, hlast] at hstop
  have hstart : (d.span first).start = (d.span id).start := Option.some.inj hstart
  have hstop : (d.span last).stop = (d.span id).stop := Option.some.inj hstop
  -- the elements lie in the literal
  have hchildren : (d.node id).children = elements := by rw [hbare]; rfl
  have hin := hplaced.table.contained hid (hchildren ▸ List.mem_of_head? hfirst)
  have hin' := hplaced.table.contained hid (hchildren ▸ List.mem_of_getLast? hlast)
  refine ⟨first, last, hfirst, hlast, ?_⟩
  rw [Span.join_eq (by rw [hstart]; exact hin'.1) (by rw [hstop]; exact hin.2), hstart, hstop]

theorem exists_argumentList_written (hid : id < d.nodes.size) (hlist : d.argumentList id = some items) :
    ∃ place front back, d.Written id place (front ++ back) ∧
      Slot.ArgumentList (items.map d.nodes.tree) back := by
  have hne : id ≠ d.root := by
    rintro rfl
    obtain ⟨body, hbody⟩ := (placed_of_read hread).2.program
    rw [argumentList, hbody] at hlist
    exact nomatch hlist
  have hsymbol : ∀ name, d.node id ≠ .symbol name := by
    intro name hnode
    rw [argumentList, hnode] at hlist
    exact nomatch hlist
  obtain ⟨place, slots, hwritten⟩ := exists_written hread hid hne hsymbol
  suffices ∃ front back, slots = front ++ back ∧ Slot.ArgumentList (items.map d.nodes.tree) back by
    obtain ⟨front, back, rfl, hargs⟩ := this
    exact ⟨place, front, back, hwritten, hargs⟩
  have hform := hwritten.form
  unfold argumentList at hlist
  split at hlist
  next receiver method selector args hnode =>
    obtain rfl : args = items := Option.some.inj hlist
    rw [hnode, Node.map] at hform
    generalize receiver.map d.nodes.tree = receiver at hform
    cases hform with
    | bareCall h hargs => exact ⟨[_], _, rfl, .arguments hargs⟩
    | dotCall hdot h hargs => exact ⟨[_, _, _], _, rfl, .arguments hargs⟩
  next children hnode =>
    obtain ⟨token, htoken, hlisted⟩ := Option.bind_eq_some_iff.mp hlist
    rw [hwritten.own_eq] at htoken
    rw [hnode] at hform
    have hstand : Slot.Stand d.text (d.span id) slots :=
      ⟨hwritten.covers, hwritten.parts, hwritten.within⟩
    have hlisted : token.listed (d.span id).start (children.map d.nodes.tree) =
        some (items.map d.nodes.tree) := by rw [Token.listed_map, hlisted]; rfl
    exact (hform.lists_of_listed hstand htoken hlisted).argumentList
  next => exact nomatch hlist

theorem argumentList_opens (hid : id < d.nodes.size) (hlist : d.argumentList id = some items) :
    ∃ place front back row, d.Written id place (front ++ back) ∧
      Slot.ArgumentList (items.map d.nodes.tree) back ∧
      Slot.ArgumentList ((opened d.node items).map d.nodes.tree) row ∧
      Slot.all row = Slot.all back ∧ Slot.Derived row := by
  obtain ⟨place, front, back, hwritten, hargs⟩ := exists_argumentList_written hread hid hlist
  obtain ⟨row, hrow, hall, hderived⟩ := hargs.opens (Slot.derived_append.mp hwritten.parts).2
  rw [(placed_of_read hread).2.opened_tree (items_lt hread hid hlist)] at hrow
  exact ⟨place, front, back, row, hwritten, hargs, hrow, hall, hderived⟩

/-! ## the run at the end -/

/-- the elements at the end of an opened argument list, as far as they follow each other -/
def lastRun (d : Document) (args : List Nat) : List Nat :=
  (opened d.node args).rtakeWhile fun arg => (d.node arg).isElement

omit hread in
theorem argumentList_of_listedArguments {methods : List Text} {args : List Nat}
    (hargs : d.listedArguments id methods = some args) : d.argumentList id = some args := by
  unfold listedArguments at hargs
  split at hargs
  next method selector args' hnode =>
    rw [argumentList, hnode]
    split at hargs
    next => exact hargs
    next => exact nomatch hargs
  next => exact nomatch hargs

/-- the keyword sequence of a call that ends with a literal without braces is the sequence of the literal,
whose entries are its container -/
theorem keywordSequence_of_bare {methods : List Text} {args elements : List Nat} {literal : Nat}
    (hargs : d.listedArguments id methods = some args) (hliteral : args.getLast? = some literal)
    (hnode : d.node literal = .literal none elements) :
    (d.keywordSequence id methods).value = (d.literalSequence literal).value := by
  rw [keywordSequence, hargs, Option.bind_some, hliteral]
  dsimp only
  rw [Attempt.value_bind]
  cases hq : (d.literalSequence literal).value with
  | none => rfl
  | some q =>
    obtain ⟨braces, elements, hnode', -, -, -, hentries⟩ :=
      literalSequence_eq_some (placed_of_read hread).2 hq
    have hbraces : q.braces = none := by
      obtain ⟨rfl, -⟩ := Node.literal.inj (hnode'.symm.trans hnode)
      rw [hentries]
    have hcontainer := (literalSequence_source hread hq).2.2 hbraces
    show some { q with container := q.range, braces := none } = some q
    rw [← hcontainer, ← hbraces]

/-- a listed call whose last argument is an element ends with the literal of its last run, and the keyword
sequence of the call is made of all elements of the run -/
theorem keywordSequence_lastRun {methods : List Text} {args : List Nat} {last : Nat}
    (hargs : d.listedArguments id methods = some args) (hlast : (opened d.node args).getLast? = some last)
    (helement : (d.node last).isElement = true) :
    ∃ literal, args.getLast? = some literal ∧ d.node literal = .literal none (d.lastRun args) ∧
      (d.keywordSequence id methods).value =
        if 2 ≤ (d.lastRun args).length ∧ (∀ arg ∈ d.lastRun args, (d.pairName arg).isSome = true) ∧
            ((d.lastRun args).map d.pairName).Nodup then
          some ⟨(d.lastRun args).map d.pairEntry, d.span literal, none, false⟩
        else none := by
  have hplaced := (placed_of_read hread).2
  have hgathered := argumentList_gathered hread (listedArguments_ordered hplaced hargs).1.1
    (argumentList_of_listedArguments hargs)
  obtain ⟨literal, hliteral, hnode⟩ : ∃ literal, args.getLast? = some literal ∧
      d.node literal = .literal none (d.lastRun args) :=
    hgathered.last_run (fun _ _ _ hnode => (bare_elements hread hnode).2) hlast helement
  refine ⟨literal, hliteral, hnode, ?_⟩
  rw [keywordSequence_of_bare hread hargs hliteral hnode]
  exact literalSequence_of_literal hplaced hnode

end

/-! ## documents that were read -/

/-- what is gathered in the argument lists of a document, and that nothing is lost by it -/
structure Gathers (d : Document) : Prop where
  /-- an argument list as it is read gives all arguments back when it is opened, in their order -/
  opens : ∀ depth place closer (s s' : Cursor) trees, s.Valid d.text →
    Parse.arguments (Parse.phrase depth) place closer s = .ok (trees, s') →
    trees = [] ∧ s' = s ∨
      ∃ args, Parse.separated (Parse.argument (Parse.phrase depth) place) closer s = .ok (args, s') ∧
        opened Tree.node trees = args.map Argument.tree
  /-- the opened list of a node has the same tokens, from comma to comma -/
  keeps : ∀ id items, id < d.nodes.size → d.argumentList id = some items →
    ∃ place front back row, d.Written id place (front ++ back) ∧
      Slot.ArgumentList (items.map d.nodes.tree) back ∧
      Slot.ArgumentList ((opened d.node items).map d.nodes.tree) row ∧
      Slot.all row = Slot.all back ∧ Slot.Derived row
  /-- no item of a list is an element, and no two literals without braces are neighbours in it -/
  gathered : ∀ id items, id < d.nodes.size → d.argumentList id = some items → Gathered d.node items
  /-- a literal without braces is an item of a list -/
  listed : ∀ id elements, d.node id = .literal none elements →
    ∃ parent items, d.parent id = some parent ∧ d.argumentList parent = some items ∧ id ∈ items
  /-- it has elements and nothing else, and reaches from the first to the last of them -/
  filled : ∀ id elements, d.node id = .literal none elements →
    (∀ element ∈ elements, (d.node element).isElement = true) ∧
      ∃ first last, elements.head? = some first ∧ elements.getLast? = some last ∧
        d.span id = (d.span first).join (d.span last)
  /-- an element stands in a literal -/
  enclosed : ∀ id, (d.node id).isElement = true → ∃ literal braces elements,
    d.parent id = some literal ∧ d.node literal = .literal braces elements ∧ id ∈ elements
  /-- the keyword sequence of a listed call is the whole run of elements at the end of its arguments -/
  trailing : ∀ id methods args last, d.listedArguments id methods = some args →
    (opened d.node args).getLast? = some last → (d.node last).isElement = true →
    ∃ literal, args.getLast? = some literal ∧ d.node literal = .literal none (d.lastRun args) ∧
      (d.keywordSequence id methods).value =
        if 2 ≤ (d.lastRun args).length ∧ (∀ arg ∈ d.lastRun args, (d.pairName arg).isSome = true) ∧
            ((d.lastRun args).map d.pairName).Nodup then
          some ⟨(d.lastRun args).map d.pairEntry, d.span literal, none, false⟩
        else none

/-- **In a document that was read, the runs of pairs and double splats among arguments are gathered**: in
calls, jumps, indices and arrays, each longest run is one literal without braces, and there are no others. -/
theorem arguments_gathered (t : Text) (d : Document) (hread : Document.read t = .ok d) : d.Gathers where
  opens _ _ _ _ _ _ hs h := Parse.arguments_opened (Parse.phrase_arranges _) hs h
  keeps _ _ hid hlist := argumentList_opens hread hid hlist
  gathered _ _ hid hlist := argumentList_gathered hread hid hlist
  listed _ _ hbare := bare_parent hread hbare
  filled _ _ hbare := ⟨(bare_elements hread hbare).2, bare_span hread hbare⟩
  enclosed _ helement := element_parent hread helement
  trailing _ _ _ _ hargs hlast helement := keywordSequence_lastRun hread hargs hlast helement

/-- two runs with an array between them, which has a run of its own -/
theorem arguments_gathered_nested :
    ∃ d, Document.read "foo(b: 1, **c, [d, e: 2], f: 3, g: 4)".toList = .ok d ∧ d.Gathers ∧
      d.argumentList 19 = some [11, 10, 18] ∧ opened d.node [11, 10, 18] = [2, 4, 10, 14, 17] ∧
      (d.argumentList 10 = some [5, 9] ∧ opened d.node [5, 9] = [5, 8]) ∧
      (d.keywordSequence 19 ["foo".toList]).value =
        some ⟨[14, 17].map d.pairEntry, d.span 18, none, false⟩ := by
  have hfacts : (Document.read "foo(b: 1, **c, [d, e: 2], f: 3, g: 4)".toList).toOption.map (fun d =>
      ([d.argumentList 19, d.argumentList 10, d.listedArguments 19 ["foo".toList]],
        [opened d.node [11, 10, 18], opened d.node [5, 9], d.lastRun [11, 10, 18]],
        [14, 17].map d.pairName)) =
      some ([some [11, 10, 18], some [5, 9], some [11, 10, 18]],
        [[2, 4, 10, 14, 17], [5, 8], [14, 17]], [some ['f'], some ['g']]) := by
    decide +kernel
  obtain ⟨d, hd, hfacts⟩ := Option.map_eq_some_iff.mp hfacts
  simp only [Prod.mk.injEq, List.cons.injEq, and_true, List.map_cons, List.map_nil] at hfacts
  obtain ⟨⟨hcall, harray, hlisted⟩, ⟨hopened, hinner, hrun⟩, hf, hg⟩ := hfacts
  have hgathers := arguments_gathered _ d (eq_ok_of_toOption hd)
  have helement : (d.node 17).isElement = true :=
    List.mem_rtakeWhile_imp (l := opened d.node [11, 10, 18]) (hrun.symm ▸ by simp : 17 ∈ d.lastRun [11, 10, 18])
  obtain ⟨literal, hliteral, -, hsequence⟩ :=
    hgathers.trailing 19 ["foo".toList] [11, 10, 18] 17 hlisted (by rw [hopened]; rfl) helement
  obtain rfl : 18 = literal := Option.some.inj hliteral
  refine ⟨d, eq_ok_of_toOption hd, hgathers, hcall, hopened, ⟨harray, hinner⟩, hsequence.trans ?_⟩
  rw [hrun]
  exact if_pos (by simp [hf, hg])

end Document

end Collate
