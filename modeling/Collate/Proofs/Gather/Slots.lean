import Collate.Proofs.Gather.Basic

/-!
# Argument lists as they are written

The slots of an argument list hold its items with commas between them.  The slots of a literal without
braces hold its elements in the same way, so that they can take the place of the slot of the literal: the
opened list has the same tokens.

* `Slot.ArgumentList`   an argument list as it is written;
* `Slot.Opens`          slots of the opened list over the same tokens;
* `Slot.Lists`          a construct without a kind of its own that has an argument list;
* `Node.Arranged`       where elements, literals without braces and argument lists stand.
-/

namespace Collate

namespace Slot
variable {place : Place} {left right : Token.Kind} {closed : Bool} {marks : Delimiters}
  {items : List Tree} {slots : List Slot}

def Derived (slots : List Slot) : Prop :=
  ∀ place tokens tree, .part place tokens tree ∈ slots → tree.Derived place tokens

theorem derived_append {a b : List Slot} : Derived (a ++ b) ↔ Derived a ∧ Derived b := by
  constructor
  · intro h
    exact ⟨fun place tokens tree hmem => h place tokens tree (List.mem_append_left b hmem),
      fun place tokens tree hmem => h place tokens tree (List.mem_append_right a hmem)⟩
  · rintro ⟨ha, hb⟩ place tokens tree hmem
    rcases List.mem_append.mp hmem with hmem | hmem
    · exact ha place tokens tree hmem
    · exact hb place tokens tree hmem

theorem derived_own (token : Token) : Derived [.own token] :=
  fun _ _ _ hmem => nomatch List.mem_singleton.mp hmem

theorem derived_part {tokens : List Token} {tree : Tree} (h : tree.Derived place tokens) :
    Derived [.part place tokens tree] := by
  intro place' tokens' tree' hmem
  obtain ⟨rfl, rfl, rfl⟩ := Slot.part.inj (List.mem_singleton.mp hmem)
  exact h

/-- an argument list: behind a method name or reserved word, or between brackets -/
inductive ArgumentList : List Tree → List Slot → Prop
  | arguments {items : List Tree} {slots : List Slot} (h : Arguments items slots) :
      ArgumentList items slots
  | brackets {marks : Delimiters} {items : List Tree} {slots : List Slot}
      (h : Group .leftBracket .rightBracket true marks items slots) : ArgumentList items slots

/-- the tokens of some slots are those of a list of the opened items -/
def Opens (P : List Tree → List Slot → Prop) (items : List Tree) (slots : List Slot) : Prop :=
  ∃ row, P (opened Tree.node items) row ∧ all row = all slots ∧ Derived row

theorem Opens.mono {P Q : List Tree → List Slot → Prop} (h : Opens P items slots)
    (himp : ∀ items slots, P items slots → Q items slots) : Opens Q items slots := by
  obtain ⟨row, hrow, hall, hderived⟩ := h
  exact ⟨row, himp _ _ hrow, hall, hderived⟩

namespace Items

theorem closes (h : Items place false items slots) : Items place closed items slots := by
  induction h with
  | single tokens tree => exact .single tokens tree
  | trailing tokens tree hclosed => exact nomatch hclosed
  | cons tokens tree hcomma rest ih => exact .cons tokens tree hcomma ih

theorem concat_comma (h : Items place false items slots) {comma : Token} (hclosed : closed = true)
    (hcomma : comma.kind = .comma) : Items place closed items (slots ++ [.own comma]) := by
  induction h with
  | single tokens tree => exact .trailing tokens tree hclosed hcomma
  | trailing tokens tree hclosed => exact nomatch hclosed
  | cons tokens tree hcomma' rest ih => exact .cons tokens tree hcomma' ih

end Items

/-- the slots of a literal without braces are items, and every other construct is one itself -/
theorem opens_part {tokens : List Token} {tree : Tree} (h : tree.Derived place tokens) :
    Opens (Items place false) [tree] [.part place tokens tree] := by
  cases hbare : tree.node.isBare with
  | false =>
    refine ⟨[.part place tokens tree], ?_, rfl, derived_part h⟩
    rw [opened_cons, Node.ungroup_of_not_bare hbare]
    exact .single tokens tree
  | true =>
    obtain ⟨elements, hnode⟩ := Node.isBare_iff.mp hbare
    cases h with
    | mk form covers parts =>
      obtain rfl : _ = Node.literal none elements := hnode
      cases form with
      | bare hitems =>
        refine ⟨_, ?_, ?_, parts⟩
        · rw [opened_cons, opened_nil, List.append_nil]
          exact hitems
        · rw [all_part, all_nil, List.append_nil]

theorem Items.opens (h : Items place closed items slots) (hderived : Derived slots) :
    Opens (Items place closed) items slots := by
  induction h with
  | single tokens tree => exact (opens_part (hderived _ _ _ List.mem_cons_self)).mono fun _ _ => closes
  | @trailing tokens tree comma hclosed hcomma =>
    obtain ⟨row, hrow, hall, hrowDerived⟩ := opens_part (hderived _ _ _ List.mem_cons_self)
    refine ⟨row ++ [.own comma], hrow.concat_comma hclosed hcomma, ?_,
      derived_append.mpr ⟨hrowDerived, derived_own comma⟩⟩
    simp [hall]
  | @cons tokens tree comma trees slots hcomma rest ih =>
    obtain ⟨row, hrow, hall, hrowDerived⟩ := opens_part (hderived _ _ _ List.mem_cons_self)
    obtain ⟨back, hback, hbackAll, hbackDerived⟩ := ih fun place tokens tree hmem =>
      hderived place tokens tree (List.mem_cons_of_mem _ (List.mem_cons_of_mem _ hmem))
    rw [opened_cons, opened_nil, List.append_nil] at hrow
    refine ⟨row ++ .own comma :: back, hrow.append hcomma hback, ?_, ?_⟩
    · simp [hall, hbackAll]
    · exact derived_append.mpr ⟨hrowDerived, derived_append.mpr ⟨derived_own comma, hbackDerived⟩⟩

theorem Group.opens (h : Group left right closed marks items slots) (hderived : Derived slots) :
    Opens (Group left right closed marks) items slots := by
  cases h with
  | empty hleft hright => exact ⟨_, .empty hleft hright, rfl, hderived⟩
  | @items opening closing _ slots hleft hright hitems =>
    have hderived := (derived_append.mp (derived_append (a := [.own opening]).mp hderived).2).1
    obtain ⟨row, hrow, hall, hrowDerived⟩ := hitems.opens hderived
    refine ⟨.own opening :: (row ++ [.own closing]), .items hleft hright hrow, by simp [hall], ?_⟩
    exact derived_append.mpr ⟨derived_own opening, derived_append.mpr ⟨hrowDerived, derived_own closing⟩⟩

/-- **An opened argument list has the same tokens.** -/
theorem ArgumentList.opens (h : ArgumentList items slots) (hderived : Derived slots) :
    Opens ArgumentList items slots := by
  cases h with
  | brackets hgroup => exact (hgroup.opens hderived).mono fun _ _ h => .brackets h
  | arguments hargs =>
    cases hargs with
    | none => exact ⟨[], .arguments .none, rfl, hderived⟩
    | group hgroup => exact (hgroup.opens hderived).mono fun _ _ h => .arguments (.group h)
    | command hitems => exact (hitems.opens hderived).mono fun _ _ h => .arguments (.command h)

/-! ## constructs with an argument list -/

/-- A construct that is no call and has an argument list: a jump, an index or an array.  All its children
are items, but for the construct in front of an index. -/
inductive Lists (place : Place) : List Tree → List Tree → List Slot → Prop
  | jump {token : Token} {items : List Tree} {slots : List Slot}
      (h : token.kind = .keyword .return_ ∨ token.kind = .keyword .yield_)
      (hargs : Arguments items slots) : Lists place items items (.own token :: slots)
  | index {marks : Delimiters} {items : List Tree} {slots : List Slot}
      (hgroup : Group .leftBracket .rightBracket true marks items slots) (front : List Token)
      (tree : Tree) : Lists place (tree :: items) items (.part place front tree :: slots)
  | array {marks : Delimiters} {items : List Tree} {slots : List Slot}
      (hgroup : Group .leftBracket .rightBracket true marks items slots) : Lists place items items slots

theorem Lists.form {children : List Tree} (h : Lists place children items slots) :
    Form place (.other children) slots := by
  cases h with
  | jump h hargs => exact .jump h hargs
  | index hgroup front tree => exact .index hgroup front tree
  | array hgroup => exact .array hgroup

theorem Lists.argumentList {children : List Tree} (h : Lists place children items slots) :
    ∃ front back, slots = front ++ back ∧ ArgumentList items back := by
  cases h with
  | @jump token _ slots h hargs => exact ⟨[.own token], slots, rfl, .arguments hargs⟩
  | @index _ _ slots hgroup front tree => exact ⟨[.part place front tree], slots, rfl, .brackets hgroup⟩
  | array hgroup => exact ⟨[], _, rfl, .brackets hgroup⟩

/-- the slots stand in a text, between the ends of a span -/
structure Stand (t : Text) (span : Span) (slots : List Slot) : Prop where
  covers : Covers (all slots) span
  derived : Derived slots
  within : all slots <:+: t.tokens

end Slot

theorem Cursor.Spells.stand {t : Text} {s s' : Cursor} {slots : List Slot} {span : Span}
    (h : s.Spells slots s') (hs : s.Valid t) (htakes : s.Takes s' span) : Slot.Stand t span slots := by
  obtain ⟨taken, hahead, -, hfirst, hlast⟩ := htakes
  obtain rfl : taken = Slot.all slots := List.append_cancel_right (hahead.symm.trans h.ahead_eq)
  refine ⟨⟨hfirst, hlast⟩, h.derived, ?_⟩
  have hfront : Slot.all slots <+: s.ahead := ⟨s'.ahead, hahead.symm⟩
  exact hfront.isInfix.trans hs.suffix.isInfix

/-! ## arranged constructs -/

/-- The elements and literals without braces among the children of a construct stand where the reader puts
them: elements in literals, and literals without braces in argument lists that are gathered. -/
inductive Node.Arranged (t : Text) (span : Span) : Node Tree → Prop
  | literal {braces : Option Delimiters} {elements : List Tree}
      (helements : ∀ element ∈ elements, element.node.isElement = true) :
      Arranged t span (.literal braces elements)
  | call {receiver : Option Tree} {method : Text} {selector : Span} {args : List Tree}
      (hreceiver : ∀ tree ∈ receiver, tree.node.Plain) (hargs : Gathered Tree.node args) :
      Arranged t span (.call receiver method selector args)
  | listed {place : Place} {front items : List Tree} {slots : List Slot}
      (hlists : Slot.Lists place (front ++ items) items slots) (hstand : Slot.Stand t span slots)
      (hfront : ∀ tree ∈ front, tree.node.Plain) (hitems : Gathered Tree.node items) :
      Arranged t span (.other (front ++ items))
  | plain {node : Node Tree} (h : ∀ child ∈ node.children, child.node.Plain) : Arranged t span node

namespace Node.Arranged
variable {t : Text} {span : Span} {node : Node Tree}

theorem children_gathered (h : node.Arranged t span) :
    (∃ braces elements, node = .literal braces elements ∧
      ∀ element ∈ elements, element.node.isElement = true) ∨ Gathered Tree.node node.children := by
  cases h with
  | literal helements => exact .inl ⟨_, _, rfl, helements⟩
  | call hreceiver hargs =>
    exact .inr (hargs.append_front fun tree hmem => hreceiver tree (Option.mem_toList.mp hmem))
  | listed hlists hstand hfront hitems => exact .inr (hitems.append_front hfront)
  | plain h => exact .inr (.of_plain h)

/-- a literal without braces stands behind the receiver of a call, or in a construct with an argument list
behind what is in front of that -/
theorem of_bare (h : node.Arranged t span) {child : Tree} (hmem : child ∈ node.children)
    (hbare : child.node.isBare = true) :
    (∃ receiver method selector args, node = .call receiver method selector args ∧
      ∀ tree ∈ receiver, tree.node.Plain) ∨
    ∃ place front items slots, node = .other (front ++ items) ∧ (∀ tree ∈ front, tree.node.Plain) ∧
      Slot.Lists place (front ++ items) items slots ∧ Slot.Stand t span slots := by
  cases h with
  | literal helements =>
    obtain ⟨elements, hnode⟩ := Node.isBare_iff.mp hbare
    have helement := helements child hmem
    rw [hnode] at helement
    exact nomatch helement
  | call hreceiver hargs => exact .inl ⟨_, _, _, _, rfl, hreceiver⟩
  | listed hlists hstand hfront hitems => exact .inr ⟨_, _, _, _, rfl, hfront, hlists, hstand⟩
  | plain h => exact nomatch (h child hmem).bare.symm.trans hbare

end Node.Arranged

/-- all constructs of a tree are arranged -/
inductive Tree.Arranged (t : Text) : Tree → Prop
  | mk {node : Node Tree} {span : Span} (here : node.Arranged t span)
      (below : ∀ child ∈ node.children, Tree.Arranged t child) : Tree.Arranged t ⟨node, span⟩

end Collate
