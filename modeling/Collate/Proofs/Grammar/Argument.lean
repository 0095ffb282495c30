import Collate.Proofs.Grammar.Loops

/-!
# Arguments in their places

Arguments, pairs and literals are placed over the tokens they are read from, given that the phrases
inside them are.  Gathering a run of pairs keeps the row of arguments and where it ends.
-/

namespace Collate

/-- the tree of an item -/
def Argument.tree : Argument → Tree
  | .positional tree => tree
  | .element tree => tree

/-! ## runs of pairs -/

section
variable {t : Text} {start stop : Nat}

theorem lastStop?_cons_getLastD (first : Tree) (rest : List Tree) :
    Tree.lastStop? (first :: rest) = some (rest.getLastD first).span.stop := by
  rw [Tree.lastStop?, List.getLast?_cons, List.getLastD_eq_getLast?]
  rfl

/-- a row of placed trees reaches from its first one to its last one -/
theorem row_between {first : Tree} {rest : List Tree}
    (hrow : Tree.InRow (first :: rest) start stop) (hplaced : ∀ tree ∈ first :: rest, tree.Placed t) :
    Tree.InRow (first :: rest) first.span.start (rest.getLastD first).span.stop := by
  refine ⟨hrow.ordered, fun tree hmem => ?_, fun tree hmem => ?_⟩
  · rcases List.mem_cons.mp hmem with rfl | hmem
    · exact Nat.le_refl _
    · have h₁ : first.span.stop ≤ tree.span.start := (List.pairwise_cons.mp hrow.ordered).1 tree hmem
      have h₂ := (hplaced first List.mem_cons_self).nonempty
      omega
  · have hlast : (first :: rest).getLast? = some (rest.getLastD first) := by
      rw [List.getLast?_cons, List.getLastD_eq_getLast?]
    obtain ⟨front, hfront⟩ := List.getLast?_eq_some_iff.mp hlast
    rw [hfront] at hmem
    rcases List.mem_append.mp hmem with hmem | hmem
    · have hp := hrow.ordered
      rw [hfront, List.pairwise_append] at hp
      have h₁ : tree.span.stop ≤ (rest.getLastD first).span.start :=
        hp.2.2 tree hmem _ (List.mem_singleton.mpr rfl)
      have h₂ := (hplaced _ List.getLastD_mem_cons).nonempty
      omega
    · have heq := List.mem_singleton.mp hmem
      subst heq
      exact Nat.le_refl _

theorem row_to_lastStop {trees : List Tree} {last : Nat} (hrow : Tree.InRow trees start stop)
    (hplaced : ∀ tree ∈ trees, tree.Placed t) (hlast : Tree.lastStop? trees = some last) :
    Tree.InRow trees start last := by
  cases trees with
  | nil => exact Tree.InRow.nil _ _
  | cons first rest =>
    rw [lastStop?_cons_getLastD] at hlast
    rw [← Option.some.inj hlast]
    exact (row_between hrow hplaced).widen (hrow.start_le first List.mem_cons_self) (Nat.le_refl _)

theorem runLiteral_placed {first : Tree} {rest : List Tree}
    (hrow : Tree.InRow (first :: rest) start stop) (hplaced : ∀ tree ∈ first :: rest, tree.Placed t) :
    Tree.Placed t ⟨.literal none (first :: rest),
      ⟨first.span.start, (rest.getLastD first).span.stop⟩⟩ := by
  have hbetween := row_between hrow hplaced
  refine Tree.Placed.mk _ _ ?_ ⟨(hplaced first List.mem_cons_self).boundary.1,
    (hplaced _ List.getLastD_mem_cons).boundary.2⟩ ⟨(hplaced first List.mem_cons_self).clear.1,
    (hplaced _ List.getLastD_mem_cons).clear.2⟩ hplaced hbetween
    ⟨rfl, lastStop?_cons_getLastD first rest⟩
  exact Nat.lt_of_lt_of_le (hplaced first List.mem_cons_self).nonempty
    (hbetween.le_stop first List.mem_cons_self)

theorem runLiteral_row {run : List Tree} (hrow : Tree.InRow run start stop)
    (hplaced : ∀ tree ∈ run, tree.Placed t) :
    Tree.InRow (runLiteral run) start stop ∧ (∀ tree ∈ runLiteral run, tree.Placed t) ∧
      Tree.lastStop? (runLiteral run) = Tree.lastStop? run := by
  cases run with
  | nil => exact ⟨hrow, hplaced, rfl⟩
  | cons first rest =>
    have hbetween := row_between hrow hplaced
    have hjoin : first.span.join (rest.getLastD first).span
        = ⟨first.span.start, (rest.getLastD first).span.stop⟩ :=
      Span.join_eq (hbetween.start_le _ List.getLastD_mem_cons)
        (hbetween.le_stop first List.mem_cons_self)
    rw [runLiteral, hjoin, lastStop?_cons_getLastD first rest]
    have hstop := hrow.le_stop (rest.getLastD first) List.getLastD_mem_cons
    refine ⟨Tree.InRow.single (hrow.start_le first List.mem_cons_self) hstop, ?_, rfl⟩
    intro tree hmem
    rw [List.mem_singleton.mp hmem]
    exact runLiteral_placed hrow hplaced

theorem lastStop?_append_cons (front : List Tree) (tree : Tree) (rest : List Tree) :
    Tree.lastStop? (front ++ tree :: rest) = some ((Tree.lastStop? rest).getD tree.span.stop) := by
  rw [← Tree.lastStop?_cons, Tree.lastStop?, List.getLast?_append, List.getLast?_cons]
  rw [Tree.lastStop?, List.getLast?_cons]
  rfl

theorem run_append_element (run : List Tree) (tree : Tree) (args : List Argument) :
    run ++ (Argument.element tree :: args).map Argument.tree = (run ++ [tree]) ++ args.map Argument.tree := by
  rw [List.append_assoc]
  rfl

/-- the step over a positional argument: what stands before it is gathered, and it stays -/
theorem gatherRuns_row (args : List Argument) :
    ∀ {run : List Tree} {start : Nat}, Tree.InRow (run ++ args.map Argument.tree) start stop →
      (∀ tree ∈ run ++ args.map Argument.tree, tree.Placed t) →
      Tree.InRow (gatherRuns run args) start stop ∧
        (∀ tree ∈ gatherRuns run args, tree.Placed t) ∧
        Tree.lastStop? (gatherRuns run args) = Tree.lastStop? (run ++ args.map Argument.tree) := by
  induction args with
  | nil =>
    intro run start hrow hplaced
    rw [List.map_nil, List.append_nil] at hrow hplaced ⊢
    exact runLiteral_row hrow hplaced
  | cons arg args ih =>
    intro run start hrow hplaced
    cases arg with
    | element tree =>
      rw [run_append_element] at hrow hplaced ⊢
      exact ih hrow hplaced
    | positional tree =>
      change Tree.InRow (run ++ tree :: args.map Argument.tree) start stop at hrow
      change ∀ x ∈ run ++ tree :: args.map Argument.tree, x.Placed t at hplaced
      obtain ⟨hbefore, hbehind⟩ := hrow.split
      have hmem : tree ∈ run ++ tree :: args.map Argument.tree := by simp
      have htree := hplaced tree hmem
      have hne := htree.nonempty
      obtain ⟨hrun, hrunPlaced, -⟩ :=
        runLiteral_row hbefore (fun x hx => hplaced x (List.mem_append_left _ hx))
      obtain ⟨hrest, hrestPlaced, hlast⟩ := @ih [] _ hbehind
        (fun x hx => hplaced x (List.mem_append_right _ (List.mem_cons_of_mem _ hx)))
      have hstart := hrow.start_le tree hmem
      have hstop := hrow.le_stop tree hmem
      refine ⟨?_, ?_, ?_⟩
      · have hcons := Tree.InRow.cons (Nat.le_refl _) (Nat.le_of_lt hne) (Nat.le_refl _) hstop hrest
        exact hrun.append hcons (Nat.le_refl _) hstart (by omega)
      · intro x hx
        rcases List.mem_append.mp hx with hx | hx
        · exact hrunPlaced x hx
        · rcases List.mem_cons.mp hx with rfl | hx
          · exact htree
          · exact hrestPlaced x hx
      · show Tree.lastStop? (runLiteral run ++ tree :: gatherRuns [] args)
          = Tree.lastStop? (run ++ tree :: args.map Argument.tree)
        rw [lastStop?_append_cons, lastStop?_append_cons, hlast]
        rfl

end

namespace Parse
open Cursor
variable {t : Text} {descend : Descent} {depth : Nat} {s : Cursor}

/-! ## pairs -/

theorem labelKey_placed {token : Token} {name : Text} (h : token.Fits t)
    (hk : token.kind = .label name) :
    Tree.Placed t ⟨.symbol name, ⟨token.span.start, token.span.stop - 1⟩⟩ ∧
      token.span.start < token.span.stop - 1 := by
  have hspelled := h.spelled
  rw [hk] at hspelled
  obtain ⟨htext, hne⟩ := hspelled
  obtain ⟨front, rest, ht, hstart, hstop⟩ := Text.slice?_eq_some.mp h.slice
  have hpos := Text.size_pos_of_ne_nil hne
  have hcolon : Text.size [':'] = 1 := rfl
  rw [htext, Text.size_append, hcolon] at hstop
  have hb : t.isBoundary (token.span.stop - 1) = true := by
    refine Text.isBoundary_iff.mpr ⟨front ++ name, ':' :: rest, ?_, ?_⟩
    · rw [ht, htext]
      simp
    · rw [Text.size_append]
      omega
  have hlt : token.span.start < token.span.stop - 1 := by omega
  have hclear : t.Clear token.span.start ∧ t.Clear (token.span.stop - 1) :=
    ⟨h.clear (Nat.le_refl _) (by omega), h.clear (by omega) (by omega)⟩
  exact ⟨Tree.Placed.of_leaf rfl trivial hlt ⟨h.boundary.1, hb⟩ hclear, hlt⟩

/-- A label with a value stands in front of a token on its line, with which the value begins.  The
next token is not the end of the text, where a label has no value. -/
theorem labelValue_next (hs : s.Valid t) (hk : s.current.kind ≠ .eof)
    (hvalue : ¬(s.advance.current.newlineBefore || endsLabel s.advance.current.kind) = true) :
    ∃ front rest, t.tokens = front ++ s.current :: s.advance.current :: rest ∧
      s.advance.current.newlineBefore = false := by
  rw [Bool.or_eq_true, not_or, Bool.not_eq_true] at hvalue
  have hs' := (takes_advance hs hk).valid hs
  have hk' : s.advance.current.kind ≠ .eof := by
    intro heof
    rw [heof] at hvalue
    exact hvalue.2 rfl
  obtain ⟨rest, hahead⟩ := exists_ahead hs hk
  obtain ⟨rest', hahead'⟩ := exists_ahead hs' hk'
  obtain ⟨front, hfront⟩ := hs.suffix
  have hrest : rest = s.advance.ahead := by rw [Cursor.advance, hahead]; rfl
  refine ⟨front, rest', ?_, hvalue.1⟩
  rw [← hfront, hahead, hrest, hahead']

/-- a pair over tokens that were taken, with its key and value in their places -/
theorem pair_reads {s' : Cursor} {key value : Tree} {colon : Bool} {span : Span} (hs : s.Valid t)
    (htakes : s.Takes s' span) (hkey : key.Placed t) (hvalue : value.Placed t)
    (hstart : span.start ≤ key.span.start) (hmid : key.span.stop ≤ value.span.start)
    (hstop : value.span.stop ≤ span.stop)
    (hmarked : (Node.pair key (some value) colon).Marked t span) :
    Tree.ReadFrom t s ⟨.pair key (some value) colon, span⟩ s' := by
  have hk := hkey.nonempty
  have hv := hvalue.nonempty
  refine Tree.readFrom_mk hs htakes ?_ ?_ hmarked
  · intro child hchild
    rcases List.mem_cons.mp hchild with rfl | hchild
    · exact hkey
    · rw [List.mem_singleton.mp hchild]
      exact hvalue
  · exact Tree.InRow.cons hstart (Nat.le_of_lt hk) hmid (by omega) (Tree.InRow.single (Nat.le_refl _) hstop)

theorem labelPair_reads (hd : descend.Sound t depth) (place : Place) (hs : s.Valid t)
    (hdepth : s.ahead.length ≤ depth) : ReadsTree t (labelPair descend place) s := by
  unfold ReadsTree labelPair
  rw [outcome_bind, outcome_advance]
  split
  next name hk =>
    have hne : s.current.kind ≠ .eof := by rw [hk]; simp
    have ht := takes_advance hs hne
    have hs' := ht.valid hs
    have hlt := ht.length_lt
    obtain ⟨hkey, hkeyLt⟩ := labelKey_placed (hs.current_fits hne) hk
    rw [outcome_bind, outcome_valueOmitted]
    split
    next =>
      refine Tree.readFrom_mk hs ht (by simpa [Node.children] using hkey) ?_ trivial
      exact Tree.InRow.single (Nat.le_refl _) (Nat.sub_le _ _)
    next hgiven =>
      refine (hd .expression place s.advance hs' (by omega) (by simp)).bind ?_
      intro value s' hvalue
      have hstop := ht.stop_le hs
      have hstart := hvalue.takes.start_eq
      obtain ⟨front, rest, htokens, hline⟩ := labelValue_next hs hne hgiven
      have hcolon : s.current.span = ⟨s.current.span.start, s.current.span.stop - 1 + 1⟩ := by
        have h : s.current.span.stop - 1 + 1 = s.current.span.stop := by omega
        rw [h]
      refine pair_reads hs (ht.trans hvalue.takes) hkey hvalue.placed (Nat.le_refl _) ?_
        (Nat.le_refl _)
        ⟨rfl, rfl, front, s.current, s.advance.current, rest, name, htokens, rfl, hk, hcolon, hline,
          hstart.symm⟩
      show s.current.span.stop - 1 ≤ value.span.start
      omega
  next => exact proper_here hs (by simp)

theorem arrowPair_reads (hd : descend.Sound t depth) (place : Place) {key : Tree} {s' : Cursor}
    (hs : s.Valid t) (hkey : key.ReadFrom t s s') (hdepth : s'.ahead.length ≤ depth) :
    Outcome (arrowPair descend place key) s' (Tree.ReadFrom t s) (ReadError.Proper t) := by
  have hs' := hkey.takes.valid hs
  unfold arrowPair
  rw [outcome_bind, outcome_expect]
  split
  next hk =>
    have ht := takes_advance hs' (by rw [hk]; simp)
    have hlt := ht.length_lt
    have hle := ht.passes.offset_le hs'
    refine (hd .expression place s'.advance (ht.valid hs') (by omega) (by simp)).bind ?_
    intro value s'' hvalue
    have hjoin := hkey.takes.join_eq hs ht.passes hvalue.takes
    have hstop := hkey.takes.stop_le hs
    have hstart := hvalue.takes.start_eq
    rw [outcome_pure, hjoin]
    exact pair_reads hs (hkey.takes.passes_takes ht.passes hvalue.takes) hkey.placed hvalue.placed
      (Nat.le_refl _) (by omega) (Nat.le_refl _) trivial
  next => exact proper_here hs' (by simp)

theorem marked_reads (hd : descend.Sound t depth) (place : Place) (build : Tree → Node Tree)
    (hchildren : ∀ tree, (build tree).children = [tree])
    (hmarked : ∀ tree span, (build tree).Marked t span) (hs : s.Valid t)
    (hk : s.current.kind ≠ .eof) (hdepth : s.ahead.length ≤ depth) :
    ReadsTree t (marked descend place build) s := by
  have ht := takes_advance hs hk
  have hlt := ht.length_lt
  unfold ReadsTree marked
  rw [outcome_bind, outcome_advance]
  refine (hd .expression place s.advance (ht.valid hs) (by omega) (by simp)).bind ?_
  intro value s' hvalue
  have hrow : (build value).inOrder = [value] := by
    have := (build value).inOrder_perm
    rw [hchildren] at this
    exact List.perm_singleton.mp this
  exact (Lists.nil s.advance).upTo hs hk hvalue hrow (fun _ => hmarked _ _)

/-! ## argument lists -/

theorem argument_reads (hd : descend.Sound t depth) (place : Place) (hs : s.Valid t)
    (hdepth : s.ahead.length < depth) :
    Outcome (argument descend place) s (fun arg => arg.tree.ReadFrom t s) (ReadError.Proper t) := by
  have hle : s.ahead.length ≤ depth := Nat.le_of_lt hdepth
  unfold argument
  rw [outcome_bind, outcome_peek]
  split
  next hk =>
    exact (marked_reads hd place Node.splat (fun _ => rfl) (fun _ _ => trivial) hs
      (by rw [hk]; simp) hle).bind (fun tree s' h => h)
  next hk =>
    exact (marked_reads hd place Node.doubleSplat (fun _ => rfl) (fun _ _ => trivial) hs
      (by rw [hk]; simp) hle).bind (fun tree s' h => h)
  next hk =>
    exact (marked_reads hd place (fun value => .other [value]) (fun _ => rfl) (fun _ _ => trivial) hs
      (by rw [hk]; simp) hle).bind (fun tree s' h => h)
  next => exact (labelPair_reads hd place hs hle).bind (fun tree s' h => h)
  next =>
    refine (hd .expression place s hs hdepth (by simp)).bind ?_
    intro key s' hkey
    have hlt := hkey.takes.length_lt
    rw [outcome_bind, outcome_sees]
    split
    next => exact (arrowPair_reads hd place hs hkey (by omega)).bind (fun tree s' h => h)
    next => exact hkey

/-- the arguments follow each other, and without a closing token they end where the last of them
does -/
theorem separatedArguments_lists (hd : descend.Sound t depth) (place : Place)
    (closer : Option Token.Kind) (hs : s.Valid t) (hdepth : s.ahead.length < depth) :
    Outcome (do return gatherRuns [] (← separated (argument descend place) closer)) s
      (fun args s' => Lists t s args s' ∧
        (closer = none → ∃ stop, Tree.lastStop? args = some stop ∧ s.Takes s' ⟨s.offset, stop⟩))
      (ReadError.Proper t) := by
  refine (separated_lists Argument.tree (fun s hs h => argument_reads hd place hs h) hs hdepth).bind ?_
  rintro args s' ⟨hlists, hexact⟩
  obtain ⟨hrow, hplaced, hlast⟩ := @gatherRuns_row t s'.offset args [] s.offset hlists.row hlists.placed
  refine ⟨⟨hlists.passes, hplaced, hrow⟩, ?_⟩
  rw [hlast]
  exact hexact

theorem arguments_lists (hd : descend.Sound t depth) (place : Place) (closer : Token.Kind)
    (hs : s.Valid t) (hdepth : s.ahead.length < depth) :
    Outcome (arguments descend place (some closer)) s (Lists t s) (ReadError.Proper t) := by
  unfold arguments
  exact Outcome.unlessClosed (some closer) (Lists.nil s)
    ((separatedArguments_lists hd place (some closer) hs hdepth).mono (fun _ _ h => h.1))

/-! ## literals between braces -/

theorem bracedElement_reads (hd : descend.Sound t depth) (hs : s.Valid t)
    (hdepth : s.ahead.length < depth) : ReadsTree t (bracedElement descend) s := by
  have hle : s.ahead.length ≤ depth := Nat.le_of_lt hdepth
  unfold ReadsTree bracedElement
  rw [outcome_bind, outcome_peek]
  split
  next => exact labelPair_reads hd .free hs hle
  next hk =>
    exact marked_reads hd .free Node.doubleSplat (fun _ => rfl) (fun _ _ => trivial) hs (by rw [hk]; simp) hle
  next =>
    refine (hd .expression .free s hs hdepth (by simp)).bind ?_
    intro key s' hkey
    have hlt := hkey.takes.length_lt
    rw [outcome_bind, outcome_sees]
    split
    next => exact arrowPair_reads hd .free hs hkey (by omega)
    next => exact proper_here (hkey.takes.valid hs) (by simp)

theorem bracedRest_reads {s' : Cursor} {elements : List Tree} (hs : s.Valid t)
    (hk : s.current.kind = .leftBrace) (hlists : Lists t s.advance elements s') :
    Outcome (do
        let closing ← expect .rightBrace "`\x7d`"
        return ⟨.literal (some ⟨s.current.span, closing.span⟩) elements,
          s.current.span.join closing.span⟩)
      s' (Tree.ReadFrom t s) (ReadError.Proper t) := by
  have hne : s.current.kind ≠ .eof := by rw [hk]; simp
  have ht := takes_advance hs hne
  have hs' := hlists.passes.valid (ht.valid hs)
  rw [outcome_bind, outcome_expect]
  split
  next hclose =>
    have hne' : s'.current.kind ≠ .eof := by rw [hclose]; simp
    have hopening := (hs.current_fits hne).slice_of_spelled hk (fun _ h => h)
    have hclosing := (hs'.current_fits hne').slice_of_spelled hclose (fun _ h => h)
    have hrow := hlists.row.widen (ht.stop_le hs) (Nat.le_refl _)
    exact Lists.enclosed hlists hs hne hne' ⟨hopening, hclosing, rfl, rfl, hrow⟩
  next => exact proper_here hs' (by simp)

theorem braced_reads (hd : descend.Sound t depth) (hs : s.Valid t)
    (hk : s.current.kind = .leftBrace) (hdepth : s.ahead.length ≤ depth) :
    ReadsTree t (braced descend) s := by
  have ht := takes_advance hs (by rw [hk]; simp)
  have hs' := ht.valid hs
  have hlt := ht.length_lt
  unfold ReadsTree braced
  rw [outcome_bind, outcome_advance, outcome_bind, outcome_sees]
  dsimp only
  split
  next => exact bracedRest_reads hs hk (Lists.nil s.advance)
  next =>
    refine (separated_lists id (fun s hs h => bracedElement_reads hd hs h) hs' (by omega)).bind ?_
    intro elements s' h
    rw [List.map_id] at h
    exact bracedRest_reads hs hk h.1

end Parse

end Collate
