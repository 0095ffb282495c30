import Mathlib.Data.List.TakeWhile
import Collate.Proofs.Derivation.Form
import Collate.Proofs.Grammar.Argument

/-!
# Derivations between two cursors

A reader moves its cursor over the slots of what it reads.  The lists of the grammar are built up along
the loops of the reader; gathering a run of pairs puts one slot in the place of those of the run.

* `Cursor.Spells`            the slots between two cursors;
* `Cursor.Reads`             a construct between two cursors;
* `Cursor.Spells.reads`      a construct over the slots of its form;
* `Descent.Derives`          all phrases give derived trees;
* `Parse.separated_derives`, `Parse.statements_derives`   the loops.
-/

namespace Collate

namespace Slot

@[simp] theorem all_nil : all [] = [] := rfl

@[simp] theorem all_own (token : Token) (slots : List Slot) :
    all (.own token :: slots) = token :: all slots := rfl

@[simp] theorem all_part (place : Place) (tokens : List Token) (tree : Tree) (slots : List Slot) :
    all (.part place tokens tree :: slots) = tokens ++ all slots := rfl

@[simp] theorem all_append (a b : List Slot) : all (a ++ b) = all a ++ all b :=
  List.flatMap_append

end Slot

namespace Cursor
variable {t : Text} {s s' s'' : Cursor} {place : Place} {tree : Tree} {a b slots : List Slot}

/-! ## slots between two cursors -/

/-- the tokens between two cursors, as slots with derived trees in them -/
structure Spells (s : Cursor) (slots : List Slot) (s' : Cursor) : Prop where
  ahead_eq : s.ahead = Slot.all slots ++ s'.ahead
  eof_eq : s'.eof = s.eof
  derived : ∀ place tokens tree, .part place tokens tree ∈ slots → tree.Derived place tokens

/-- a derived tree over the tokens between two cursors -/
def Reads (place : Place) (s : Cursor) (tree : Tree) (s' : Cursor) : Prop :=
  ∃ tokens, s.Spells [.part place tokens tree] s'

namespace Spells

theorem nil (s : Cursor) : s.Spells [] s :=
  ⟨rfl, rfl, fun _ _ _ h => nomatch h⟩

theorem append (h : s.Spells a s') (h' : s'.Spells b s'') : s.Spells (a ++ b) s'' := by
  refine ⟨?_, h'.eof_eq.trans h.eof_eq, fun place tokens tree hmem => ?_⟩
  · rw [h.ahead_eq, h'.ahead_eq, Slot.all_append, List.append_assoc]
  · rcases List.mem_append.mp hmem with hmem | hmem
    · exact h.derived place tokens tree hmem
    · exact h'.derived place tokens tree hmem

theorem split (h : s.Spells (a ++ b) s') : ∃ mid, s.Spells a mid ∧ mid.Spells b s' := by
  refine ⟨⟨Slot.all b ++ s'.ahead, s'.eof, s'.locals⟩, ⟨?_, h.eof_eq, fun place tokens tree hmem => ?_⟩,
    ⟨rfl, rfl, fun place tokens tree hmem => ?_⟩⟩
  · rw [h.ahead_eq, Slot.all_append, List.append_assoc]
  · exact h.derived place tokens tree (List.mem_append_left b hmem)
  · exact h.derived place tokens tree (List.mem_append_right a hmem)

theorem passes (h : s.Spells slots s') : s.Passes s' :=
  ⟨Slot.all slots, h.ahead_eq, h.eof_eq⟩

theorem locals (h : s.Spells slots s') (names names' : List Text) :
    Spells { s with locals := names } slots { s' with locals := names' } :=
  ⟨h.ahead_eq, h.eof_eq, h.derived⟩

end Spells

theorem spells_advance (hs : s.Valid t) (hk : s.current.kind ≠ .eof) :
    s.Spells [.own s.current] s.advance := by
  obtain ⟨rest, hahead⟩ := exists_ahead hs hk
  refine ⟨?_, rfl, fun _ _ _ h => by simp at h⟩
  rw [advance, hahead]
  rfl

theorem Reads.takes (h : Reads place s tree s') : s.Takes s' tree.span := by
  obtain ⟨tokens, hspells⟩ := h
  have hahead := hspells.ahead_eq
  rw [Slot.all_part, Slot.all_nil, List.append_nil] at hahead
  cases hspells.derived place tokens tree List.mem_cons_self with
  | mk form covers parts => exact ⟨_, hahead, hspells.eof_eq, covers.first, covers.last⟩

theorem Spells.reads {node : Node Tree} {span : Span} (h : s.Spells slots s')
    (htakes : s.Takes s' span) (hform : Form place node slots) :
    Reads place s ⟨node, span⟩ s' := by
  obtain ⟨taken, hahead, -, hfirst, hlast⟩ := htakes
  have hall : taken = Slot.all slots := List.append_cancel_right (hahead.symm.trans h.ahead_eq)
  subst hall
  refine ⟨Slot.all slots, ⟨?_, h.eof_eq, fun inner tokens tree hmem => ?_⟩⟩
  · rw [Slot.all_part, Slot.all_nil, List.append_nil]
    exact h.ahead_eq
  · obtain ⟨rfl, rfl, rfl⟩ := Slot.part.inj (List.mem_singleton.mp hmem)
    exact .mk hform ⟨hfirst, hlast⟩ h.derived

theorem Takes.joined {mid : Cursor} {span span' : Span} (hs : s.Valid t) (h : s.Takes s' span)
    (hp : s'.Passes mid) (h' : mid.Takes s'' span') : s.Takes s'' (span.join span') := by
  rw [h.join_eq hs hp h']
  exact h.passes_takes hp h'

end Cursor

/-! ## items -/

namespace Slot.Items
variable {place : Place} {closed : Bool} {a b trees : List Tree} {slots : List Slot}

theorem ne_nil (h : Items place closed trees slots) : trees ≠ [] := by
  cases h <;> simp

theorem exists_open (h : Items place closed trees slots) : ∃ row, Items place false trees row ∧
    (slots = row ∨ closed = true ∧ ∃ comma, comma.kind = .comma ∧ slots = row ++ [.own comma]) := by
  induction h with
  | single tokens tree => exact ⟨_, .single tokens tree, .inl rfl⟩
  | trailing tokens tree hclosed hcomma =>
    exact ⟨_, .single tokens tree, .inr ⟨hclosed, _, hcomma, rfl⟩⟩
  | cons tokens tree hcomma rest ih =>
    obtain ⟨row, hrow, heq⟩ := ih
    refine ⟨_, .cons tokens tree hcomma hrow, ?_⟩
    rcases heq with rfl | ⟨hclosed, comma, hkind, rfl⟩
    · exact .inl rfl
    · exact .inr ⟨hclosed, comma, hkind, rfl⟩

theorem append (h : Items place false a slots) {comma : Token} (hcomma : comma.kind = .comma)
    {rest : List Slot} (hrest : Items place closed b rest) :
    Items place closed (a ++ b) (slots ++ .own comma :: rest) := by
  induction h with
  | single tokens tree => exact .cons tokens tree hcomma hrest
  | trailing tokens tree hclosed => exact nomatch hclosed
  | cons tokens tree hcomma' _ ih => exact .cons tokens tree hcomma' ih

theorem split (h : Items place closed (a ++ b) slots) (ha : a ≠ []) (hb : b ≠ []) :
    ∃ row comma rest, Items place false a row ∧ comma.kind = .comma ∧ Items place closed b rest ∧
      slots = row ++ .own comma :: rest := by
  induction a generalizing slots with
  | nil => exact absurd rfl ha
  | cons first a ih =>
    rw [List.cons_append] at h
    cases a with
    | nil =>
      cases h with
      | single => exact absurd rfl hb
      | trailing => exact absurd rfl hb
      | cons tokens tree hcomma rest => exact ⟨_, _, _, .single tokens first, hcomma, rest, rfl⟩
    | cons second a =>
      cases h with
      | cons tokens tree hcomma rest =>
        obtain ⟨row, comma, back, hrow, hkind, hback, rfl⟩ := ih rest (by simp)
        exact ⟨_, comma, back, .cons tokens first hcomma hrow, hkind, hback, rfl⟩

end Slot.Items

namespace Cursor
variable {t : Text} {s s' : Cursor} {place : Place} {trees : List Tree} {slots : List Slot}

theorem Spells.items_last (hitems : Slot.Items place false trees slots) :
    ∀ {s : Cursor}, s.Spells slots s' → ∃ last mid, trees.getLast? = some last ∧ s.Passes mid ∧
      mid.Takes s' last.span := by
  induction hitems with
  | single tokens tree =>
    intro s h
    exact ⟨tree, s, rfl, Passes.refl s, Reads.takes ⟨tokens, h⟩⟩
  | trailing tokens tree hclosed => exact nomatch hclosed
  | @cons tokens tree comma trees slots hcomma rest ih =>
    intro s h
    obtain ⟨mid, hfront, hback⟩ := split (a := [.part place tokens tree, .own comma]) h
    obtain ⟨last, mid', hlast, hpasses, htakes⟩ := ih hback
    refine ⟨last, mid', ?_, hfront.passes.trans hpasses, htakes⟩
    rw [List.getLast?_cons, hlast]
    rfl

/-- the items reach from the start of the first one to the end of the last -/
theorem Spells.items_takes {first : Tree} {rest : List Tree} (h : s.Spells slots s')
    (hs : s.Valid t) (hitems : Slot.Items place false (first :: rest) slots) :
    s.Takes s' (first.span.join (rest.getLastD first).span) := by
  cases hitems with
  | single tokens =>
    have htakes : s.Takes s' first.span := Reads.takes ⟨tokens, h⟩
    have hself : first.span.join first.span = first.span := by simp [Span.join]
    rw [List.getLastD_nil, hself]
    exact htakes
  | @cons tokens tree comma trees slots hcomma hrest =>
    obtain ⟨mid, hfirst, hback⟩ := split (a := [.part place tokens first]) h
    obtain ⟨mid', hcommaSpelled, hback⟩ := split (a := [.own comma]) hback
    obtain ⟨last, mid'', hlast, hpasses, htakes⟩ := items_last hrest hback
    have hlastD : rest.getLastD first = last := by rw [List.getLastD_eq_getLast?, hlast]; rfl
    rw [hlastD]
    exact (Reads.takes ⟨tokens, hfirst⟩).joined hs (hcommaSpelled.passes.trans hpasses) htakes
  | trailing _ _ hclosed => exact Bool.noConfusion hclosed

/-! ## lists of items -/

/-- items with commas between them over the tokens between two cursors -/
def Enumerates (place : Place) (closed : Bool) (s : Cursor) (trees : List Tree) (s' : Cursor) : Prop :=
  ∃ slots, Slot.Items place closed trees slots ∧ s.Spells slots s'

/-- one cursor stands in front of a comma, and the other one behind it -/
def Comma (s s' : Cursor) : Prop :=
  ∃ comma, comma.kind = .comma ∧ s.Spells [.own comma] s'

theorem Comma.passes (h : s.Comma s') : s.Passes s' := by
  obtain ⟨comma, -, h⟩ := h
  exact h.passes

namespace Enumerates
variable {closed : Bool} {a b : List Tree} {tree : Tree} {mid mid' : Cursor}

theorem single (h : Reads place s tree s') : Enumerates place closed s [tree] s' := by
  obtain ⟨tokens, h⟩ := h
  exact ⟨_, .single tokens tree, h⟩

theorem trailing (h : Reads place s tree mid) (hcomma : mid.Comma s') :
    Enumerates place true s [tree] s' := by
  obtain ⟨tokens, h⟩ := h
  obtain ⟨comma, hkind, hmark⟩ := hcomma
  exact ⟨_, .trailing tokens tree rfl hkind, h.append hmark⟩

theorem append (h : Enumerates place false s a mid) (hcomma : mid.Comma mid')
    (h' : Enumerates place closed mid' b s') : Enumerates place closed s (a ++ b) s' := by
  obtain ⟨row, hrow, h⟩ := h
  obtain ⟨comma, hkind, hmark⟩ := hcomma
  obtain ⟨rest, hrest, h'⟩ := h'
  exact ⟨_, hrow.append hkind hrest, h.append (hmark.append h')⟩

theorem split (h : Enumerates place closed s (a ++ b) s') (ha : a ≠ []) (hb : b ≠ []) :
    ∃ mid mid', Enumerates place false s a mid ∧ mid.Comma mid' ∧
      Enumerates place closed mid' b s' := by
  obtain ⟨slots, hitems, h⟩ := h
  obtain ⟨row, comma, rest, hrow, hkind, hrest, rfl⟩ := hitems.split ha hb
  obtain ⟨mid, hfront, hback⟩ := h.split
  obtain ⟨mid', hmark, hback⟩ := Spells.split (a := [.own comma]) hback
  exact ⟨mid, mid', ⟨row, hrow, hfront⟩, ⟨comma, hkind, hmark⟩, rest, hrest, hback⟩

theorem passes (h : Enumerates place closed s a s') : s.Passes s' := by
  obtain ⟨slots, -, h⟩ := h
  exact h.passes

/-! ## runs of pairs -/

theorem runLiteral {run : List Tree} (h : Enumerates place closed s run s') (hs : s.Valid t)
    (hrun : ∀ tree ∈ run, tree.isElement = true) :
    Enumerates place closed s (Collate.runLiteral run) s' := by
  obtain ⟨slots, hitems, h⟩ := h
  obtain ⟨row, hrow, heq⟩ := hitems.exists_open
  cases run with
  | nil => exact absurd rfl hitems.ne_nil
  | cons first rest =>
    rcases heq with rfl | ⟨rfl, comma, hcomma, rfl⟩
    · exact single (h.reads (h.items_takes hs hrow) (.bare hrow hrun))
    · obtain ⟨mid, hfront, hback⟩ := h.split
      exact trailing (hfront.reads (hfront.items_takes hs hrow) (.bare hrow hrun)) ⟨comma, hcomma, hback⟩

/-- the step over a positional argument: the run in front of it is gathered, and it stays -/
theorem gatherRuns (args : List Argument)
    (hargs : ∀ arg ∈ args, ∀ tree, arg = .element tree → tree.isElement = true) :
    ∀ {s : Cursor} (run : List Tree), s.Valid t →
      Enumerates place closed s (run ++ args.map Argument.tree) s' →
      (∀ tree ∈ run, tree.isElement = true) →
      Enumerates place closed s (Collate.gatherRuns run args) s' := by
  induction args with
  | nil =>
    intro s run hs h hrun
    rw [List.map_nil, List.append_nil] at h
    exact h.runLiteral hs hrun
  | cons arg args ih =>
    obtain ⟨harg, hrest⟩ := List.forall_mem_cons.mp hargs
    replace ih := @ih hrest
    intro s run hs h hrun
    cases arg with
    | element tree =>
      rw [run_append_element] at h
      refine ih _ hs h fun x hx => ?_
      rcases List.mem_append.mp hx with hx | hx
      · exact hrun x hx
      · rw [List.mem_singleton.mp hx]
        exact harg tree rfl
    | positional tree =>
      -- the positional argument and all behind it
      have hpositional {s : Cursor} (hs : s.Valid t)
          (h : Enumerates place closed s ([tree] ++ args.map Argument.tree) s') :
          Enumerates place closed s ([tree] ++ Collate.gatherRuns [] args) s' := by
        by_cases hnil : args = []
        · subst hnil
          exact h
        · have hne : args.map Argument.tree ≠ [] := fun h => hnil (List.map_eq_nil_iff.mp h)
          obtain ⟨mid, mid', hfirst, hcomma, hbehind⟩ := h.split (by simp) hne
          have hpasses := hfirst.passes.trans hcomma.passes
          exact hfirst.append hcomma (ih [] (hpasses.valid hs) hbehind (by simp))
      by_cases hnil : run = []
      · subst hnil
        exact hpositional hs h
      · obtain ⟨mid, mid', hfront, hcomma, hbehind⟩ := h.split hnil (by simp)
        have hpasses := hfront.passes.trans hcomma.passes
        exact (hfront.runLiteral hs hrun).append hcomma (hpositional (hpasses.valid hs) hbehind)

theorem last (h : Enumerates place false s trees s') : ∃ last mid, trees.getLast? = some last ∧
    s.Passes mid ∧ mid.Takes s' last.span := by
  obtain ⟨slots, hitems, h⟩ := h
  exact Spells.items_last hitems h

end Enumerates

/-- items between two marks over the tokens between two cursors -/
def Groups (left right : Token.Kind) (closed : Bool) (marks : Delimiters) (s : Cursor)
    (trees : List Tree) (s' : Cursor) : Prop :=
  ∃ slots, Slot.Group left right closed marks trees slots ∧ s.Spells slots s'

/-- there are no items between two cursors, or a list of them -/
def Holds (place : Place) (closed : Bool) (s : Cursor) (trees : List Tree) (s' : Cursor) : Prop :=
  trees = [] ∧ s' = s ∨ Enumerates place closed s trees s'

theorem Holds.passes {closed : Bool} (h : Holds place closed s trees s') : s.Passes s' := by
  rcases h with ⟨-, rfl⟩ | h
  · exact Passes.refl _
  · exact h.passes

theorem groups_advance {closed : Bool} (hs : s.Valid t) (hk : s.current.kind ≠ .eof)
    (hitems : Holds .free closed s.advance trees s') (hk' : s'.current.kind ≠ .eof) :
    Groups s.current.kind s'.current.kind closed ⟨s.current.span, s'.current.span⟩ s trees s'.advance := by
  have hopening := spells_advance hs hk
  have hclosing := spells_advance (hitems.passes.valid (hopening.passes.valid hs)) hk'
  rcases hitems with ⟨rfl, rfl⟩ | ⟨slots, hitems, h⟩
  · exact ⟨_, .empty rfl rfl, hopening.append hclosing⟩
  · exact ⟨_, .items rfl rfl hitems, hopening.append (h.append hclosing)⟩

theorem takes_advance_joined (hs : s.Valid t) (hk : s.current.kind ≠ .eof)
    (hpasses : s.advance.Passes s') (hk' : s'.current.kind ≠ .eof) :
    s.Takes s'.advance (s.current.span.join s'.current.span) := by
  have htakes := takes_advance hs hk
  exact htakes.joined hs hpasses (takes_advance (hpasses.valid (htakes.valid hs)) hk')

theorem comma_advance (hs : s.Valid t) (hk : s.current.kind = .comma) : s.Comma s.advance :=
  ⟨s.current, hk, spells_advance hs (by simp [hk])⟩

/-! ## statements -/

def States (s : Cursor) (trees : List Tree) (s' : Cursor) : Prop :=
  ∃ slots, Slot.Body trees slots ∧ s.Spells slots s'

theorem States.nil (s : Cursor) : States s [] s :=
  ⟨[], .nil, Spells.nil s⟩

theorem States.cons {mid : Cursor} {tree : Tree} (h : Reads .free s tree mid)
    (h' : States mid trees s') : States s (tree :: trees) s' := by
  obtain ⟨tokens, h⟩ := h
  obtain ⟨slots, hbody, h'⟩ := h'
  exact ⟨_, .statement tokens tree hbody, h.append h'⟩

theorem States.passes (h : States s trees s') : s.Passes s' := by
  obtain ⟨slots, -, h⟩ := h
  exact h.passes

theorem States.skip
    (h : States { s with ahead := s.ahead.dropWhile (fun t => decide (t.kind = .semicolon)) } trees s') :
    States s trees s' := by
  obtain ⟨slots, hbody, h⟩ := h
  generalize hmarks : s.ahead.takeWhile (fun t => decide (t.kind = .semicolon)) = marks
  have hkinds : ∀ token ∈ marks, token.kind = .semicolon := by
    intro token hmem
    rw [← hmarks] at hmem
    have hmark := List.mem_takeWhile_imp hmem
    exact of_decide_eq_true hmark
  have hahead : s.ahead = marks ++ (Slot.all slots ++ s'.ahead) := by
    rw [← h.ahead_eq, ← hmarks]
    exact List.takeWhile_append_dropWhile.symm
  clear hmarks
  refine ⟨marks.map .own ++ slots, ?_, ?_, h.eof_eq, fun place tokens tree hmem => ?_⟩
  · clear hahead
    induction marks with
    | nil => exact hbody
    | cons mark marks ih =>
      obtain ⟨hmark, hmarks⟩ := List.forall_mem_cons.mp hkinds
      exact .semicolon hmark (ih hmarks)
  · have hall : Slot.all (marks.map .own) = marks := by
      rw [Slot.all, List.flatMap_map]
      exact List.flatMap_singleton' marks
    rw [Slot.all_append, hall, List.append_assoc]
    exact hahead
  · rcases List.mem_append.mp hmem with hmem | hmem
    · simp at hmem
    · exact h.derived place tokens tree hmem

end Cursor

/-! ## readers -/

/-- every phrase gives derived trees; a branch inside a conditional is only read at its word -/
def Descent.Derives (t : Text) (descend : Descent) : Prop :=
  ∀ phrase place s, s.Valid t → (phrase = .branch → s.current.kind = .keyword .elsif_) →
    Parse.Outcome (descend phrase place) s (Cursor.Reads place s) ReadError.Any

namespace Parse
open Cursor
variable {t : Text} {descend : Descent} {place : Place} {s : Cursor}

theorem separatedIn_derives {α : Type} {item : Parse α} (tree : α → Tree) {P : α → Prop}
    {closer : Option Token.Kind}
    (hitem : ∀ s, s.Valid t →
      Outcome item s (fun a s' => Reads place s (tree a) s' ∧ P a) ReadError.Any) (n : Nat) :
    ∀ s, s.Valid t → Outcome (separatedIn item closer n) s
      (fun items s' => Enumerates place closer.isSome s (items.map tree) s' ∧ ∀ a ∈ items, P a)
      ReadError.Any := by
  induction n with
  | zero => intro s hs; trivial
  | succ n ih =>
    intro s hs
    unfold separatedIn
    refine (hitem s hs).bind ?_
    rintro a s' ⟨hread, ha⟩
    have hs' := hread.takes.valid hs
    rw [outcome_bind, outcome_eat]
    split
    next hcomma =>
      have hmark := comma_advance hs' hcomma
      have hcons : Outcome (do return a :: (← separatedIn item closer n)) s'.advance
          (fun items s'' => Enumerates place closer.isSome s (items.map tree) s'' ∧ ∀ a ∈ items, P a)
          ReadError.Any := by
        refine (ih s'.advance (hmark.passes.valid hs')).bind ?_
        rintro items s'' ⟨hitems, hall⟩
        exact ⟨(Enumerates.single hread).append hmark hitems, List.forall_mem_cons.mpr ⟨ha, hall⟩⟩
      cases closer with
      | none =>
        rw [if_pos rfl, outcome_bind, outcome_closes_none]
        exact hcons
      | some kind =>
        rw [if_pos rfl, outcome_bind, outcome_closes_some]
        split
        next => exact ⟨Enumerates.trailing hread hmark, by simpa using ha⟩
        next => exact hcons
    next => exact ⟨Enumerates.single hread, by simpa using ha⟩

theorem separated_derives {α : Type} {item : Parse α} (tree : α → Tree) {P : α → Prop}
    {closer : Option Token.Kind}
    (hitem : ∀ s, s.Valid t →
      Outcome item s (fun a s' => Reads place s (tree a) s' ∧ P a) ReadError.Any) (hs : s.Valid t) :
    Outcome (separated item closer) s
      (fun items s' => Enumerates place closer.isSome s (items.map tree) s' ∧ ∀ a ∈ items, P a)
      ReadError.Any := by
  unfold separated
  rw [outcome_bind, outcome_rounds]
  exact separatedIn_derives tree hitem _ s hs

theorem grouped_derives {β : Type} {items : Parse (List Tree)} {left right : Token.Kind}
    {closed : Bool} {wanted : String} {rest : List Tree → Token → Parse β} {R : β → Cursor → Prop}
    (hs : s.Valid t) (hk : s.current.kind = left) (hleft : left ≠ .eof) (hright : right ≠ .eof)
    (hitems : Outcome items s.advance (Holds .free closed s.advance) ReadError.Any)
    (hrest : ∀ trees slots s',
      Slot.Group left right closed ⟨s.current.span, s'.current.span⟩ trees slots →
      s.Spells slots s'.advance → s.advance.Passes s' → s'.Takes s'.advance s'.current.span →
      Outcome (rest trees s'.current) s'.advance R ReadError.Any) :
    Outcome (do
        let trees ← items
        let closing ← expect right wanted
        rest trees closing)
      s.advance R ReadError.Any := by
  subst hk
  refine hitems.bind ?_
  intro trees s' htrees
  have hs' := htrees.passes.valid ((passes_advance s).valid hs)
  rw [outcome_bind, outcome_expect]
  split
  next hk' =>
    have hne' : s'.current.kind ≠ .eof := by rwa [hk']
    obtain ⟨slots, hgroup, h⟩ := groups_advance hs hleft htrees hne'
    rw [hk'] at hgroup
    exact hrest trees slots s' hgroup h htrees.passes (takes_advance hs' hne')
  next => trivial

theorem statementsIn_derives (hd : descend.Derives t) (stop : Token.Kind → Bool) (n : Nat) :
    ∀ s, s.Valid t →
      Outcome (statementsIn descend .free stop n) s (States s) ReadError.Any := by
  induction n with
  | zero => intro s hs; trivial
  | succ n ih =>
    intro s hs
    unfold statementsIn skipSemicolons
    rw [outcome_bind, outcome_modify, outcome_bind, outcome_finished]
    have hs' := (passes_skipSemicolons s).valid hs
    refine Outcome.mono (Q := States
      { s with ahead := s.ahead.dropWhile (fun t => decide (t.kind = .semicolon)) }) ?_
      fun trees s' h => h.skip
    split
    next => exact States.nil _
    next =>
      refine (hd .statement .free _ hs' (by simp)).bind ?_
      intro first s₁ hfirst
      simp only [outcome_bind, outcome_finished, outcome_sees, outcome_sameLine]
      split
      next =>
        refine (ih s₁ (hfirst.takes.valid hs')).bind ?_
        intro rest s₂ hrest
        exact .cons hfirst hrest
      next => trivial

theorem statements_derives (hd : descend.Derives t) (stop : Token.Kind → Bool) (hs : s.Valid t) :
    Outcome (statements descend .free stop) s (States s) ReadError.Any := by
  unfold statements
  rw [outcome_bind, outcome_rounds]
  exact statementsIn_derives hd stop _ s hs

end Parse

end Collate
