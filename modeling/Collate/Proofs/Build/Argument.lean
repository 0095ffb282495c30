import Collate.Proofs.Build.Loops
import Collate.Proofs.Grammar.Argument

/-!
# Argument lists follow the grammar

The grammar reads all items of an argument list and gathers the runs of pairs afterwards.  The program has the
arguments that are complete and the elements of the run in progress, and its table holds them in the order in
which they were completed.

* `Build.Gathered`            the arguments and the run in progress, with what was pushed for them;
* `Build.argumentsIn_follows` a list is gathered item by item as it is gathered at the end;
* `Build.arguments_follows`, `Build.braced_follows`   argument lists and braced literals.
-/

namespace Collate

namespace Build
open Cursor NodeTable
variable {t : Text} {base table table' : NodeTable} {s s' : Cursor} {start : Nat}
  {build : Build.Descent} {descend : Collate.Descent}

/-! ## pairs -/

theorem beforeLast_eq {span : Span} (h : 0 < span.stop) : Build.beforeLast span = pure (span.stop - 1) :=
  if_neg (Nat.ne_of_gt h)

theorem labelPair_follows (hd : Descent.Follows t build descend) (place : Place) (hs : s.Ready t) :
    Follows t table (Build.labelPair build place) (Parse.labelPair descend place) s
      (Pushed table s.offset) := by
  rw [Build.labelPair, Parse.labelPair]
  refine Follows.advance hs ?_
  have hs' := hs.advance
  split
  next name hk =>
    have hne : s.current.kind ≠ .eof := by rw [hk]; simp
    have hlt := (Parse.labelKey_placed (hs.current_fits hne) hk).2
    have hstop := hs.stop_le_advance hne
    have hstart : s.offset = s.current.span.start := rfl
    have hkey := table.pushTree_symbol name ⟨s.current.span.start, s.current.span.stop - 1⟩
    have hstands := table.stands_push (.symbol name) (.symbol name)
      ⟨s.current.span.start, s.current.span.stop - 1⟩
    -- the other side branches in the same way; if it has a match of its own, this takes its case too
    try rw [hk]
    rw [beforeLast_eq (by omega), pure_bind, pushFrom_eq (Nat.le_of_lt hlt)]
    refine Follows.push (fun _ hmem => nomatch hmem) (Follows.valueOmitted hs' ?_)
    split
    next =>
      rw [pushFrom_eq hs.start_le_stop]
      refine Follows.push_last (by simp [Node.children]) (Pushed.mk' ?_ rfl
        ⟨hs.start_le_stop, hs.offset_le_advance⟩)
      simp only [pushNode, pushOption, hkey]
    next =>
      refine (hd .expression place _ _ hs').bind fun value s' id table' hpasses hext hvalue => ?_
      have hle := hpasses.offset_le hs'.toValid
      have hvalueStop := hvalue.start_le
      refine Follows.spanOf hvalue.stands ?_
      rw [pushFrom_eq (by omega)]
      refine Follows.push_last ?_ (Pushed.mk' ?_ rfl ⟨Nat.le_trans hs.offset_le_advance hvalueStop,
        Nat.le_trans hs.offset_le_advance hle⟩)
      · simp [Node.children, hvalue.stands.lt_size, (hstands.extends hext).lt_size]
      · simp only [pushNode, pushOption, hkey, hvalue.push]
  next hk =>
    try simp only
    exact Follows.refuse hs.current_slice

theorem arrowPair_follows (hd : Descent.Follows t build descend) (place : Place) {key : Tree} {keyId : Nat}
    (hs : s.Ready t) (hkey : Pushed base start key s keyId table) :
    Follows t table (Build.arrowPair build place keyId) (Parse.arrowPair descend place key) s
      (Pushed base start) := by
  rw [Build.arrowPair, Parse.arrowPair]
  refine Follows.expect hs fun _ => ?_
  refine (hd .expression place _ _ hs.advance).bind fun value s' id table' hpasses hext hvalue => ?_
  have hstands := hkey.stands.extends hext
  refine Follows.spanOf hstands (Follows.spanOf hvalue.stands (Follows.push_last ?_ (Pushed.mk' ?_ rfl
    (hkey.join hs ((passes_advance s).trans hpasses) _))))
  · simp [Node.children, hvalue.stands.lt_size, hstands.lt_size]
  · simp only [pushNode, pushOption, hkey.push, hvalue.push]

/-- a construct of one child is pushed over it -/
structure Single (node : Tree → Node Tree) (node' : Nat → Node Nat) : Prop where
  pushNode_eq : ∀ {base table : NodeTable} {tree id}, base.pushTree tree = (table, id) →
    base.pushNode (node tree) = (table, node' id)
  children_eq : ∀ id, (node' id).children = [id]
  isRun_eq : ∀ tree span, Tree.isRun ⟨node tree, span⟩ = false

theorem marked_follows (hd : Descent.Follows t build descend) (place : Place) {node : Tree → Node Tree}
    {node' : Nat → Node Nat} (hnode : Single node node') (hs : s.Ready t) :
    Follows t table (Build.marked build place node') (Parse.marked descend place node) s
      (Pushed table s.offset) := by
  rw [Build.marked, Parse.marked]
  refine Follows.advance hs ?_
  refine (hd .expression place _ _ hs.advance).bind fun value s' id table' hpasses hext hvalue => ?_
  refine Follows.spanOf hvalue.stands (Follows.push_last ?_ (Pushed.mk' (hnode.pushNode_eq hvalue.push)
    (hnode.isRun_eq _ _) (join_current hs ((passes_advance s).trans hpasses) _)))
  simp [hnode.children_eq, hvalue.stands.lt_size]

theorem single_splat : Single .splat .splat :=
  ⟨fun h => by simp only [pushNode, h], fun _ => rfl, fun _ _ => rfl⟩

theorem single_doubleSplat : Single .doubleSplat .doubleSplat :=
  ⟨fun h => by simp only [pushNode, h], fun _ => rfl, fun _ _ => rfl⟩

theorem single_other : Single (fun tree => .other [tree]) (fun id => .other [id]) :=
  ⟨fun h => by simp only [pushNode, pushAll_single h], fun _ => rfl, fun _ _ => rfl⟩

/-! ## runs of pairs -/

inductive Taken (base : NodeTable) (start : Nat) : Argument → Cursor → Item → NodeTable → Prop where
  | positional {tree s id table} : Pushed base start tree s id table →
      Taken base start (.positional tree) s (.positional id) table
  | element {tree s id table} : Pushed base start tree s id table →
      Taken base start (.element tree) s (.element id) table

theorem argument_follows (hd : Descent.Follows t build descend) (place : Place) (hs : s.Ready t) :
    Follows t table (Build.argument build place) (Parse.argument descend place) s
      (Taken table s.offset) := by
  have hpositional {run : Build Nat} {p : Parse Tree} (h : Follows t table run p s (Pushed table s.offset)) :
      Follows t table (do return .positional (← run)) (do return .positional (← p)) s
        (Taken table s.offset) :=
    h.bind fun _ _ _ _ _ _ h => Follows.pure (.positional h)
  have helement {run : Build Nat} {p : Parse Tree} (h : Follows t table run p s (Pushed table s.offset)) :
      Follows t table (do return .element (← run)) (do return .element (← p)) s
        (Taken table s.offset) :=
    h.bind fun _ _ _ _ _ _ h => Follows.pure (.element h)
  rw [Build.argument, Parse.argument]
  refine Follows.peek hs ?_
  split
  next hk => simpa only [hk] using hpositional (marked_follows hd place single_splat hs)
  next hk => simpa only [hk] using helement (marked_follows hd place single_doubleSplat hs)
  next hk => simpa only [hk] using hpositional (marked_follows hd place single_other hs)
  next hk => simpa only [hk] using helement (labelPair_follows hd place hs)
  next hstar hdouble hampersand hlabel =>
    try simp only
    refine (hd .expression place _ _ hs).bind fun key s' id table' hpasses hext hkey => ?_
    refine Follows.sees (hpasses.ready hs) ?_
    split
    next =>
      refine (arrowPair_follows hd place (hpasses.ready hs) hkey).bind fun _ _ _ _ _ _ h => ?_
      exact Follows.pure (.element h)
    next => exact Follows.pure (.positional hkey)

/-- The arguments that are complete and the run in progress, with their numbers.  Whatever follows, the arguments
were pushed first and then the elements of the run. -/
structure Gathered (base : NodeTable) (start : Nat) (front run : List Tree) (args ids : List Nat)
    (table : NodeTable) : Prop where
  opens : ∃ mid, Opens base front args mid ∧ Opens mid run ids table
  front_stands : List.Forall₂ table.Stands args front
  run_stands : List.Forall₂ table.Stands ids run
  start_le : ∀ tree ∈ front ++ run, start ≤ tree.span.stop

section
variable {front run : List Tree} {args ids : List Nat} {tree : Tree} {id start' : Nat}

theorem Gathered.nil (base : NodeTable) (start : Nat) : Gathered base start [] [] [] [] base :=
  ⟨⟨base, Opens.nil base, Opens.nil base⟩, .nil, .nil, fun _ hmem => nomatch hmem⟩

theorem Gathered.element (h : Gathered base start front run args ids table) (hext : table.Extends table')
    (hle : start ≤ start') (h' : Pushed table start' tree s id table') :
    Gathered base start front (run ++ [tree]) args (ids ++ [id]) table' := by
  obtain ⟨mid, hfront, hrun⟩ := h.opens
  refine ⟨⟨mid, hfront, hrun.trans (Opens.single h'.isRun h'.push)⟩, Stands.forall_extends h.front_stands hext,
    List.rel_append (Stands.forall_extends h.run_stands hext) (.cons h'.stands .nil), ?_⟩
  intro x hx
  rw [← List.append_assoc] at hx
  rcases List.mem_append.mp hx with hx | hx
  · exact h.start_le x hx
  · rw [List.mem_singleton.mp hx]
    exact Nat.le_trans hle h'.start_le

theorem stands_getLastD {first : Tree} {rest : List Tree} {firstId : Nat} {restIds : List Nat}
    (h : table.Stands firstId first) (hrest : List.Forall₂ table.Stands restIds rest) :
    table.Stands (restIds.getLastD firstId) (rest.getLastD first) := by
  induction hrest generalizing first firstId with
  | nil => exact h
  | cons hnext _ ih =>
    rw [List.getLastD_cons, List.getLastD_cons]
    exact ih hnext

/-- the literal over a run is pushed behind everything that was pushed so far -/
theorem Follows.flush {α β : Type} {f : List Nat → Build α} {p : Parse β}
    {Q : β → Cursor → α → NodeTable → Prop} {first : Tree} {rest : List Tree}
    (hrun : List.Forall₂ table.Stands ids (first :: rest))
    (h : Follows t (table.push (.literal none ids) (first.span.join (rest.getLastD first).span))
      (f (args ++ [table.size])) p s Q) :
    Follows t table (Build.flush args ids >>= f) p s Q := by
  cases hrun with
  | @cons firstId _ restIds _ hfirst hrest =>
    have hlast : (firstId :: restIds).getLast? = some (restIds.getLastD firstId) := by
      rw [List.getLast?_cons, List.getLastD_eq_getLast?]
    have hflush : Build.flush args (firstId :: restIds) = do
        let literal ← Build.push (.literal none (firstId :: restIds))
          ((← Build.spanOf firstId).join (← Build.spanOf (restIds.getLastD firstId)))
        return args ++ [literal] := by
      rw [Build.flush, hlast]
      rfl
    rw [hflush, bind_assoc]
    refine Follows.spanOf hfirst ?_
    rw [bind_assoc]
    refine Follows.spanOf (stands_getLastD hfirst hrest) ?_
    rw [bind_assoc]
    refine Follows.push (fun child hchild => Stands.lt_of_mem (.cons hfirst hrest) hchild) ?_
    rw [pure_bind]
    exact h

theorem flush_follows {β : Type} {b : β} (h : Gathered base start front run args ids table) :
    Follows t table (Build.flush args ids) (pure b) s
      (fun b' _ ids' table' => b' = b ∧ PushedAll base start (front ++ runLiteral run) ids' table') := by
  obtain ⟨mid, hfront, hrun⟩ := h.opens
  have hstands := h.run_stands
  cases run with
  | nil =>
    cases hstands
    refine Follows.pure ⟨rfl, ?_, ?_, ?_⟩
    · exact (hfront.trans hrun).pushAll_eq.trans (by rw [List.append_nil])
    · simpa [runLiteral] using h.front_stands
    · exact h.start_le
  | cons first rest =>
    rw [← bind_pure (Build.flush args ids)]
    refine Follows.flush hstands (Follows.pure ⟨rfl, ?_, ?_, ?_⟩)
    · refine hfront _ _ _ (pushAll_single (pushTree_mk ?_ _))
      simp only [pushNode, hrun.pushAll_eq]
    · exact List.rel_append (Stands.forall_extends h.front_stands (extends_push _ _))
        (.cons (stands_push _ _ _ _) .nil)
    · intro tree hmem
      rcases List.mem_append.mp hmem with hmem | hmem
      · exact h.start_le tree (List.mem_append_left _ hmem)
      · rw [List.mem_singleton.mp hmem]
        exact Nat.le_trans (h.start_le first (by simp)) (Nat.le_max_left _ _)

theorem positional_follows {α β : Type} {f : List Nat → Build α} {p : Parse β}
    {Q : β → Cursor → α → NodeTable → Prop} (h : Gathered base start front run args ids table)
    (hext : table.Extends table') (hle : start ≤ start') (h' : Pushed table start' tree s' id table')
    (hf : ∀ args' table'', table'.Extends table'' →
      Gathered base start (front ++ (runLiteral run ++ [tree])) [] (args' ++ [id]) [] table'' →
      Follows t table'' (f args') p s Q) :
    Follows t table' (Build.flush args ids >>= f) p s Q := by
  obtain ⟨mid, hfront, hrun⟩ := h.opens
  have hstands := Stands.forall_extends h.run_stands hext
  have hbound : ∀ x ∈ front ++ (runLiteral run ++ [tree]) ++ [], start ≤ x.span.stop := by
    intro x hx
    rw [List.append_nil] at hx
    rcases List.mem_append.mp hx with hx | hx
    · exact h.start_le x (List.mem_append_left _ hx)
    · rcases List.mem_append.mp hx with hx | hx
      · cases run with
        | nil => cases hx
        | cons first rest =>
          rw [List.mem_singleton.mp hx]
          exact Nat.le_trans (h.start_le first (by simp)) (Nat.le_max_left _ _)
      · rw [List.mem_singleton.mp hx]
        exact Nat.le_trans hle h'.start_le
  cases run with
  | nil =>
    cases hstands
    refine hf _ table' (Extends.refl _) ⟨⟨table', ?_, Opens.nil _⟩, ?_, .nil, hbound⟩
    · have hopens := (hfront.trans hrun).trans (Opens.single h'.isRun h'.push)
      rwa [List.append_nil, List.append_nil] at hopens
    · exact List.rel_append (Stands.forall_extends h.front_stands hext) (.cons h'.stands .nil)
  | cons first rest =>
    refine Follows.flush hstands (hf _ _ (extends_push _ _) ⟨⟨_, ?_, Opens.nil _⟩, ?_, .nil, hbound⟩)
    · rw [List.append_assoc]
      exact hfront.trans (Opens.run hrun.pushAll_eq h'.push)
    · rw [List.append_assoc]
      exact List.rel_append (Stands.forall_extends h.front_stands (hext.trans (extends_push _ _)))
        (.cons (stands_push _ _ _ _) (.cons (h'.stands.extends (extends_push _ _)) .nil))

end

/-! ## argument lists -/

/-- One list is gathered item by item, the other one at its end.  The arguments that are complete and the run in
progress stand for the items that were read. -/
theorem argumentsIn_follows (hd : Descent.Follows t build descend) (place : Place)
    (closer : Option Token.Kind) (n : Nat) :
    ∀ (s : Cursor) table front run args ids, s.Ready t → start ≤ s.offset →
      Gathered base start front run args ids table →
        Follows t table (Build.argumentsIn build place closer n args ids)
          (Parse.separatedIn (Parse.argument descend place) closer n) s
          (fun items _ => PushedAll base start (front ++ gatherRuns run items)) := by
  induction n with
  | zero => exact fun s table _ _ _ _ hs _ _ => Follows.outOfSteps hs
  | succ n ih =>
    intro s table front run args ids hs hle h
    -- what is left to do behind an item, whichever it was
    have hbehind {item : Argument} {s' : Cursor} {table' : NodeTable} {front' run' : List Tree}
        {args' ids' : List Nat} (hpasses : s.Passes s') (h' : Gathered base start front' run' args' ids' table')
        (hgather : ∀ items, front' ++ gatherRuns run' items = front ++ gatherRuns run (item :: items)) :
        Follows t table'
          (do if ← Build.eat .comma then
                if ← Build.closes closer then Build.flush args' ids'
                else Build.argumentsIn build place closer n args' ids'
              else Build.flush args' ids')
          (do if ← Parse.eat .comma then
                if ← Parse.closes closer then return [item]
                else return item :: (← Parse.separatedIn (Parse.argument descend place) closer n)
              else return [item]) s'
          (fun items _ => PushedAll base start (front ++ gatherRuns run items)) := by
      have hs' := hpasses.ready hs
      have hend {s' : Cursor} : Follows t table' (Build.flush args' ids') (pure [item]) s'
          (fun items _ => PushedAll base start (front ++ gatherRuns run items)) :=
        (flush_follows h').mono fun items _ _ _ _ _ hall => by
          obtain ⟨rfl, hall⟩ := hall
          rw [← hgather]
          exact hall
      refine Follows.eat hs' (fun _ => ?_) (fun _ => hend)
      rw [if_pos rfl, if_pos rfl]
      refine Follows.closes hs'.advance fun closed => ?_
      cases closed with
      | true => exact hend
      | false =>
        rw [← bind_pure (Build.argumentsIn build place closer n args' ids')]
        have hle' := (hpasses.trans (passes_advance s')).offset_le hs.toValid
        refine (ih s'.advance table' front' run' args' ids' hs'.advance (Nat.le_trans hle hle') h').bind
          fun items s'' ids'' table'' _ _ hall => Follows.pure ?_
        rw [← hgather]
        exact hall
    rw [Build.argumentsIn, Parse.separatedIn]
    refine (argument_follows hd place hs).bind fun item s' itemId table' hpasses hext hitem => ?_
    cases hitem with
    | element hpushed =>
      refine hbehind hpasses (h.element hext hle hpushed) fun items => ?_
      rfl
    | positional hpushed =>
      dsimp only
      refine positional_follows h hext hle hpushed fun args' table'' _ h' => ?_
      refine hbehind hpasses h' fun items => ?_
      rw [gatherRuns, List.append_assoc, List.append_assoc]
      rfl

theorem arguments_follows (hd : Descent.Follows t build descend) (place : Place)
    (closer : Option Token.Kind) (hs : s.Ready t) :
    Follows t table (Build.arguments build place closer) (Parse.arguments descend place closer) s
      (fun trees _ => PushedAll table s.offset trees) := by
  rw [Build.arguments, Parse.arguments]
  refine Follows.closes hs fun closed => ?_
  cases closed with
  | true => exact Follows.pure (PushedAll.nil table s.offset)
  | false =>
    have hall := argumentsIn_follows hd place closer (s.ahead.length + 1) s table [] [] [] [] hs (Nat.le_refl _)
      (Gathered.nil table s.offset)
    have hgathered := hall.bind (f := pure) (g := fun items => pure (gatherRuns [] items))
      (R := fun trees _ => PushedAll table s.offset trees) fun items s' ids table' _ _ h => Follows.pure h
    rw [bind_pure] at hgathered
    refine Follows.lookUp (rounds_eq hs) ?_
    exact Follows.move (Passes.refl s) rfl (fun _ => rfl) hgathered

/-! ## braced literals -/

theorem bracedElement_follows (hd : Descent.Follows t build descend) (hs : s.Ready t) :
    Follows t table (Build.bracedElement build) (Parse.bracedElement descend) s (Pushed table s.offset) := by
  rw [Build.bracedElement, Parse.bracedElement]
  refine Follows.peek hs ?_
  split
  next hk => simpa only [hk] using labelPair_follows hd .free hs
  next hk => simpa only [hk] using marked_follows hd .free single_doubleSplat hs
  next hlabel hdouble =>
    try simp only
    refine (hd .expression .free _ _ hs).bind fun key s' id table' hpasses hext hkey => ?_
    have hs' := hpasses.ready hs
    refine Follows.sees hs' ?_
    split
    next => exact arrowPair_follows hd .free hs' hkey
    next => exact Follows.failHere hs'

theorem braced_follows (hd : Descent.Follows t build descend) (hs : s.Ready t) :
    Follows t table (Build.braced build) (Parse.braced descend) s (Pushed table s.offset) := by
  rw [Build.braced, Parse.braced]
  refine Follows.advance hs (Follows.sees hs.advance ?_)
  have hrest {elements : List Tree} {ids : List Nat} {s' : Cursor} {table' : NodeTable} {start : Nat}
      (hpasses : s.Passes s') (hids : PushedAll table start elements ids table') :
      Follows t table'
        (do let closing ← Build.expect .rightBrace "`\x7d`"
            Build.push (.literal (some ⟨s.current.span, closing.span⟩) ids) (s.current.span.join closing.span))
        (do let closing ← Parse.expect .rightBrace "`\x7d`"
            return ⟨.literal (some ⟨s.current.span, closing.span⟩) elements,
              s.current.span.join closing.span⟩) s' (Pushed table s.offset) := by
    have hs' := hpasses.ready hs
    refine Follows.expect hs' fun _ => Follows.push_last (fun _ => Stands.lt_of_mem hids.stands) ?_
    refine Pushed.mk' ?_ rfl (join_current hs (hpasses.trans (passes_advance s')) _)
    simp only [pushNode, hids.push]
  split
  next =>
    rw [pure_bind, pure_bind]
    exact hrest (passes_advance s) (PushedAll.nil table 0)
  next =>
    refine (separated_follows _ (fun s table hs => bracedElement_follows hd hs) hs.advance).bind
      fun elements s' ids table' hpasses _ hids => ?_
    exact hrest ((passes_advance s).trans hpasses) hids

end Build

end Collate
