import Mathlib.Data.List.Chain
import Collate.Proofs.Derivation.Document

/-!
# Commas between items

The elements of a literal, the arguments of a call and the parameters of a definition are separated by
commas: between two neighbours stands one comma and no other token.  A brace touches the first element, and
between the last one and the closing brace stands one more comma at most.  All of it is read off the slots
in which the items are written.

* `Text.Between`        the tokens between two offsets;
* `Text.Edged`          a span from one token to another;
* `Text.Separates`      such spans with a comma between neighbours;
* `Node.Separated`      the items of a construct;
* `Form.separated`      the items of a construct that is written in slots of the text;
* `Document.separated_of_read`   the items of all nodes of a document that was read.
-/

namespace Collate

/-! ## tokens between offsets -/

namespace Text
variable {t : Text}

/-- tokens of these kinds stand between the end of a token and the start of another one -/
def Between (t : Text) (start stop : Nat) (kinds : List Token.Kind) : Prop :=
  ∃ front first middle last back, t.tokens = front ++ first :: (middle ++ last :: back) ∧
    first.span.stop = start ∧ last.span.start = stop ∧ middle.map Token.kind = kinds

/-- a span begins with a token, and ends with one -/
structure Edged (t : Text) (span : Span) : Prop where
  first : ∃ token ∈ t.tokens, token.span.start = span.start
  last : ∃ token ∈ t.tokens, token.span.stop = span.stop

/-- spans from token to token, with one comma and no other token between neighbours -/
def Separates (t : Text) (spans : List Span) : Prop :=
  (∀ span ∈ spans, t.Edged span) ∧ spans.IsChain (fun a b => t.Between a.stop b.start [.comma])

theorem separates_nil : t.Separates [] :=
  ⟨by simp, List.isChain_nil⟩

theorem separates_single {span : Span} (h : t.Edged span) : t.Separates [span] :=
  ⟨by simpa using h, List.isChain_singleton span⟩

theorem separates_cons {span : Span} {spans : List Span} : t.Separates (span :: spans) ↔
    t.Edged span ∧ (∀ start ∈ spans.head?.map Span.start, t.Between span.stop start [.comma]) ∧
      t.Separates spans := by
  rw [Separates, Separates, List.isChain_cons, List.forall_mem_cons]
  simp only [Option.mem_def, Option.map_eq_some_iff, forall_exists_index, and_imp, forall_apply_eq_imp_iff₂]
  exact ⟨fun ⟨⟨hspan, hspans⟩, hnext, hchain⟩ => ⟨hspan, hnext, hspans, hchain⟩,
    fun ⟨hspan, hnext, hspans, hchain⟩ => ⟨⟨hspan, hspans⟩, hnext, hchain⟩⟩

theorem separates_append {a b : List Span} : t.Separates (a ++ b) ↔ t.Separates a ∧ t.Separates b ∧
    ∀ stop ∈ a.getLast?.map Span.stop, ∀ start ∈ b.head?.map Span.start, t.Between stop start [.comma] := by
  rw [Separates, Separates, Separates, List.isChain_append, List.forall_mem_append]
  simp only [Option.mem_def, Option.map_eq_some_iff, forall_exists_index, and_imp, forall_apply_eq_imp_iff₂]
  exact ⟨fun ⟨⟨ha, hb⟩, hchainA, hchainB, hlink⟩ => ⟨⟨ha, hchainA⟩, ⟨hb, hchainB⟩, hlink⟩,
    fun ⟨⟨ha, hchainA⟩, ⟨hb, hchainB⟩, hlink⟩ => ⟨⟨ha, hb⟩, hchainA, hchainB, hlink⟩⟩

end Text

/-! ## items of a construct -/

/-- The items of a construct are separated.  Those of a literal also touch its braces, but for one comma
that may stand in front of the closing one. -/
def Node.Separated {α : Type} (t : Text) (spanOf : α → Span) : Node α → Prop
  | .literal (some braces) elements =>
    t.Separates (elements.map spanOf) ∧
      (∀ start ∈ (elements.map spanOf).head?.map Span.start, t.Between braces.opening.stop start []) ∧
      ∀ stop ∈ (elements.map spanOf).getLast?.map Span.stop,
        t.Between stop braces.closing.start [] ∨ t.Between stop braces.closing.start [.comma]
  | .literal none elements => t.Separates (elements.map spanOf)
  | .call _ _ _ args => t.Separates (args.map spanOf)
  | .definition _ _ _ params _ => t.Separates (params.map spanOf)
  | _ => True

/-! ## items in slots -/

/-- the slots are a run of tokens of the text, and the constructs in them begin and end with a token -/
structure Slot.Within (t : Text) (slots : List Slot) : Prop where
  covers : ∀ place tokens tree, .part place tokens tree ∈ slots → Covers tokens tree.span
  within : Slot.all slots <:+: t.tokens

namespace Slot
variable {t : Text} {place : Place} {closed : Bool} {tokens : List Token} {tree : Tree}
  {trees : List Tree} {a b slots : List Slot}

theorem Within.left (h : Within t (a ++ b)) : Within t a :=
  ⟨fun place tokens tree hmem => h.covers place tokens tree (List.mem_append_left b hmem),
    List.IsInfix.trans ⟨[], all b, by simp⟩ h.within⟩

theorem Within.right (h : Within t (a ++ b)) : Within t b :=
  ⟨fun place tokens tree hmem => h.covers place tokens tree (List.mem_append_right a hmem),
    List.IsInfix.trans ⟨all a, [], by simp⟩ h.within⟩

theorem Within.edged (h : Within t slots) (hmem : .part place tokens tree ∈ slots) : t.Edged tree.span := by
  have hcovers := h.covers place tokens tree hmem
  obtain ⟨first, hhead, hfirst⟩ := Option.map_eq_some_iff.mp hcovers.first
  obtain ⟨last, hend, hlast⟩ := Option.map_eq_some_iff.mp hcovers.last
  have hsub := (tokens_isInfix hmem).trans h.within
  exact ⟨⟨first, hsub.subset (List.mem_of_head? hhead), hfirst⟩,
    ⟨last, hsub.subset (List.mem_of_getLast? hend), hlast⟩⟩

/-- the first token of some items is the first one of the first item -/
theorem Items.exists_first (hitems : Items place closed trees slots) (h : Within t slots) :
    ∃ next rest, all slots = next :: rest ∧ (trees.map Tree.span).head?.map Span.start
      = some next.span.start := by
  have hpart {tokens : List Token} {tree : Tree} {trees : List Tree} {slots : List Slot}
      (h : Within t (.part place tokens tree :: slots)) :
      ∃ next rest, all (.part place tokens tree :: slots) = next :: rest ∧
        ((tree :: trees).map Tree.span).head?.map Span.start = some next.span.start := by
    obtain ⟨next, hhead, hstart⟩ :=
      Option.map_eq_some_iff.mp (h.covers place tokens tree List.mem_cons_self).first
    obtain ⟨rest, rfl⟩ := List.head?_eq_some_iff.mp hhead
    exact ⟨next, rest ++ all slots, rfl, congrArg some hstart.symm⟩
  cases hitems with
  | single tokens tree => exact hpart h
  | trailing tokens tree hclosed hcomma => exact hpart h
  | cons tokens tree hcomma rest => exact hpart h

/-- the last token of some items is the last one of the last item, or the comma behind it -/
theorem Items.exists_last (hitems : Items place closed trees slots) (h : Within t slots) :
    ∃ front last middle, all slots = front ++ last :: middle ∧
      (trees.map Tree.span).getLast?.map Span.stop = some last.span.stop ∧
      (middle.map Token.kind = [] ∨ middle.map Token.kind = [.comma]) := by
  induction hitems with
  | single tokens tree =>
    obtain ⟨last, hend, hstop⟩ :=
      Option.map_eq_some_iff.mp (h.covers place tokens tree List.mem_cons_self).last
    obtain ⟨front, rfl⟩ := List.getLast?_eq_some_iff.mp hend
    exact ⟨front, last, [], by simp, congrArg some hstop.symm, .inl rfl⟩
  | @trailing tokens tree comma hclosed hcomma =>
    obtain ⟨last, hend, hstop⟩ :=
      Option.map_eq_some_iff.mp (h.covers place tokens tree List.mem_cons_self).last
    obtain ⟨front, rfl⟩ := List.getLast?_eq_some_iff.mp hend
    exact ⟨front, last, [comma], by simp, congrArg some hstop.symm, .inr (by simp [hcomma])⟩
  | @cons tokens tree comma trees slots hcomma rest ih =>
    obtain ⟨front, last, middle, hall, hlast, hmiddle⟩ := ih (h.right (a := [.part place tokens tree, .own comma]))
    refine ⟨tokens ++ comma :: front, last, middle, by simp [hall], ?_, hmiddle⟩
    rw [List.map_cons, List.getLast?_cons]
    cases hspans : (trees.map Tree.span).getLast? with
    | none =>
      rw [hspans] at hlast
      cases hlast
    | some found =>
      rw [hspans] at hlast
      exact hlast

/-- items with commas between them are separated -/
theorem Items.separates (hitems : Items place closed trees slots) (h : Within t slots) :
    t.Separates (trees.map Tree.span) := by
  induction hitems with
  | single tokens tree => exact Text.separates_single (h.edged List.mem_cons_self)
  | trailing tokens tree hclosed hcomma => exact Text.separates_single (h.edged List.mem_cons_self)
  | @cons tokens tree comma trees slots hcomma rest ih =>
    have hrest := h.right (a := [.part place tokens tree, .own comma])
    refine Text.separates_cons.mpr ⟨h.edged List.mem_cons_self, fun start hmem => ?_, ih hrest⟩
    -- the comma stands between the last token of the item and the first one of the next item
    obtain ⟨next, behind, hall, hhead⟩ := rest.exists_first hrest
    obtain ⟨last, hend, hstop⟩ :=
      Option.map_eq_some_iff.mp (h.covers place tokens tree List.mem_cons_self).last
    obtain ⟨init, rfl⟩ := List.getLast?_eq_some_iff.mp hend
    obtain ⟨front, back, htokens⟩ := h.within
    rw [hhead] at hmem
    refine ⟨front ++ init, last, [comma], next, behind ++ back, ?_, hstop, Option.some.inj hmem, ?_⟩
    · rw [← htokens]
      simp [hall]
    · rw [List.map_singleton, hcomma]

/-- items between braces are separated, and the braces touch them, but for a comma behind the last one -/
theorem Group.separated {left right : Token.Kind} {marks : Delimiters}
    (hgroup : Group left right closed marks trees slots) (h : Within t slots) :
    (Node.literal (some marks) trees).Separated t Tree.span := by
  cases hgroup with
  | empty => exact ⟨Text.separates_nil, by simp, by simp⟩
  | @items opening closing trees slots hleft hright hitems =>
    have hinner : Within t slots := Within.left (Within.right (a := [.own opening]) h)
    obtain ⟨next, behind, hall, hhead⟩ := hitems.exists_first hinner
    obtain ⟨init, last, middle, hall', hend, hmiddle⟩ := hitems.exists_last hinner
    obtain ⟨front, back, htokens⟩ := h.within
    refine ⟨hitems.separates hinner, fun start hmem => ?_, fun stop hmem => ?_⟩
    · rw [hhead] at hmem
      refine ⟨front, opening, [], next, behind ++ closing :: back, ?_, rfl, Option.some.inj hmem, rfl⟩
      rw [← htokens]
      simp [hall]
    · rw [hend] at hmem
      have hsplit : t.tokens = (front ++ opening :: init) ++ last :: (middle ++ closing :: back) := by
        rw [← htokens]
        simp [hall']
      exact hmiddle.imp (⟨_, last, middle, closing, back, hsplit, Option.some.inj hmem, rfl, ·⟩)
        (⟨_, last, middle, closing, back, hsplit, Option.some.inj hmem, rfl, ·⟩)

theorem Arguments.separates (hargs : Arguments trees slots) (h : Within t slots) :
    t.Separates (trees.map Tree.span) := by
  cases hargs with
  | none => exact Text.separates_nil
  | group hgroup => exact (hgroup.separated h).1
  | command hitems => exact hitems.separates h

theorem Signature.separates (hparams : Signature place trees slots) (h : Within t slots) :
    t.Separates (trees.map Tree.span) := by
  cases hparams with
  | none => exact Text.separates_nil
  | group hgroup => exact (hgroup.separated h).1
  | bare hitems => exact hitems.separates h

end Slot

open Slot in
/-- the items of a construct are separated as its slots are -/
theorem Form.separated {t : Text} {place : Place} {node : Node Tree} {slots : List Slot}
    (form : Form place node slots) (h : Slot.Within t slots) : node.Separated t Tree.span := by
  cases form with
  | braced hgroup => exact hgroup.separated h
  | bare hitems => exact hitems.separates h
  | @bareCall token _ _ _ _ hargs => exact hargs.separates (Within.right (a := [.own token]) h)
  | @dotCall dot token _ _ _ _ _ hargs tokens receiver =>
    exact hargs.separates (Within.right (a := [.part place tokens receiver, .own dot, .own token]) h)
  | @endless keyword sign _ _ _ front middle back _ _ _ hparams _ tokens body =>
    exact hparams.separates (Within.right (Within.left (Within.right (a := [.own keyword]) h)))
  | @definition keyword closing _ _ _ _ front middle back slots _ _ _ hparams =>
    exact hparams.separates
      (Within.right (Within.left (Within.left (Within.right (a := [.own keyword]) h))))
  | _ => trivial

/-! ## documents -/

theorem Node.separated_map {α β : Type} {t : Text} {f : α → β} {spanOf : β → Span} (node : Node α) :
    (node.map f).Separated t spanOf ↔ node.Separated t (spanOf ∘ f) := by
  cases node with
  | literal braces elements => cases braces <;> simp [map, Separated]
  | _ => simp [map, Separated]

/-- the items of every node of a document that was read are separated -/
theorem Document.separated_of_read {t : Text} {d : Document} (h : Document.read t = .ok d) (id : Nat) :
    (d.node id).Separated t d.span := by
  obtain ⟨rfl, hplaced⟩ := Document.placed_of_read h
  by_cases hother : d.node id = .other []
  · rw [hother]
    trivial
  · by_cases hprogram : ∃ body, d.node id = .program body
    · obtain ⟨body, hbody⟩ := hprogram
      rw [hbody]
      trivial
    · obtain ⟨hid, hne⟩ := hplaced.inner hother fun body hbody => hprogram ⟨body, hbody⟩
      rcases Document.written_of_read h hid hne with ⟨place, slots, hwritten⟩ | hlabel
      · have hitems := hwritten.form.separated ⟨hwritten.tree_covers, hwritten.within⟩
        rw [Node.separated_map] at hitems
        exact hitems
      · obtain ⟨name, hname⟩ := hlabel.node_eq
        rw [hname]
        trivial

end Collate
