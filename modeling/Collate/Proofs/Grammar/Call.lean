import Collate.Grammar.Call
import Collate.Proofs.Grammar.Argument

/-!
# Parameters, calls and blocks in their places

A call ends behind its arguments, or behind its name if it has none.  A block ends with its closing
token, and holds the call it is attached to, its parameters and its body in this order.
-/

namespace Collate

namespace Parse
open Cursor
variable {t : Text} {descend : Descent} {depth : Nat} {s s₀ : Cursor}

/-! ## parameters -/

/-- a parameter over tokens that were taken, which then comes in sight -/
theorem namedParameter_reads {kind : ParameterKind} {name : Text} {fallback : Option Tree}
    {span : Span} (hs₀ : s₀.Valid t) (htakes : s₀.Takes s span)
    (hplaced : ∀ tree ∈ fallback.toList, tree.Placed t)
    (hrow : Tree.InRow fallback.toList span.start span.stop)
    (hmarked : (Node.parameter kind (some name) fallback).Marked t span) :
    Outcome (namedParameter kind name fallback span) s (Tree.ReadFrom t s₀) (ReadError.Proper t) := by
  unfold namedParameter
  rw [outcome_bind, outcome_declare]
  have h : Tree.ReadFrom t s₀ ⟨.parameter kind (some name) fallback, span⟩ s :=
    Tree.readFrom_mk hs₀ htakes hplaced hrow hmarked
  exact h.congr rfl rfl

theorem namedParameter_fallback_reads {kind : ParameterKind} {name : Text} {fallback : Tree}
    {start stop : Nat} {mid : Cursor} (hs₀ : s₀.Valid t) (htakes : s₀.Takes mid ⟨start, stop⟩)
    (hfallback : fallback.ReadFrom t mid s) :
    Outcome (namedParameter kind name (some fallback) ⟨start, fallback.span.stop⟩) s
      (Tree.ReadFrom t s₀) (ReadError.Proper t) := by
  have h₁ : start < stop := htakes.nonempty hs₀
  have h₂ : stop ≤ mid.offset := htakes.stop_le hs₀
  have h₃ := hfallback.takes.start_eq
  have hbehind : start < fallback.span.start := by omega
  refine namedParameter_reads hs₀ (htakes.trans hfallback.takes) ?_ ?_ hbehind
  · simpa using hfallback.placed
  · exact Tree.InRow.single (Nat.le_of_lt hbehind) (Nat.le_refl _)

theorem restParameter_reads (kind : ParameterKind) (hs : s.Valid t) (hk : s.current.kind ≠ .eof) :
    Outcome (restParameter kind s.current) s.advance (Tree.ReadFrom t s) (ReadError.Proper t) := by
  have ht := takes_advance hs hk
  have hs' := ht.valid hs
  have hrow (start stop : Nat) : Tree.InRow [] start stop := Tree.InRow.nil start stop
  unfold restParameter
  rw [outcome_bind, outcome_current]
  split
  next name hnext _ =>
    have ht' := takes_advance hs' (by rw [hnext]; simp)
    rw [outcome_bind, outcome_advance]
    exact namedParameter_reads hs (ht.trans ht') (by simp) (hrow _ _) trivial
  next hnext _ =>
    have ht' := takes_advance hs' (by rw [hnext]; simp)
    rw [outcome_bind, outcome_advance]
    exact Tree.readFrom_mk hs (ht.trans ht') (by simp [Node.children]) (hrow _ _) trivial
  next => exact Tree.readFrom_mk hs ht (by simp [Node.children]) (hrow _ _) trivial

theorem parameter_reads (hd : descend.Sound t depth) (place : Place) (hs : s.Valid t)
    (hdepth : s.ahead.length ≤ depth) : ReadsTree t (parameter descend place) s := by
  unfold ReadsTree parameter
  rw [outcome_bind, outcome_advance]
  split
  next name hk =>
    have ht := takes_advance hs (by rw [hk]; simp)
    have hs' := ht.valid hs
    have hlt := ht.length_lt
    rw [outcome_bind, outcome_eat]
    split
    next heq =>
      have ht' := takes_advance hs' (by rw [heq]; simp)
      have hlt' := ht'.length_lt
      refine (hd .expression place _ (ht'.valid hs') (by omega) (by simp)).bind ?_
      intro fallback s' hfallback
      exact namedParameter_fallback_reads hs (ht.trans ht') hfallback
    next => exact namedParameter_reads hs ht (by simp) (Tree.InRow.nil _ _) trivial
  next name hk =>
    have ht := takes_advance hs (by rw [hk]; simp)
    have hs' := ht.valid hs
    have hlt := ht.length_lt
    rw [outcome_bind, outcome_valueOmitted]
    split
    next => exact namedParameter_reads hs ht (by simp) (Tree.InRow.nil _ _) trivial
    next =>
      refine (hd .expression place _ hs' (by omega) (by simp)).bind ?_
      intro fallback s' hfallback
      exact namedParameter_fallback_reads hs ht hfallback
  next hk => exact restParameter_reads .rest hs (by rw [hk]; simp)
  next hk => exact restParameter_reads .keywordRest hs (by rw [hk]; simp)
  next hk => exact restParameter_reads .block hs (by rw [hk]; simp)
  next => exact proper_here hs (by simp)

theorem separatedParameters_lists (hd : descend.Sound t depth) (place : Place) (hs : s.Valid t)
    (hdepth : s.ahead.length < depth) :
    Outcome (separated (parameter descend place) none) s (Lists t s) (ReadError.Proper t) := by
  have hitem : ∀ s, s.Valid t → s.ahead.length < depth →
      Outcome (parameter descend place) s (fun a => (id a : Tree).ReadFrom t s) (ReadError.Proper t) :=
    fun s hs h => parameter_reads hd place hs (Nat.le_of_lt h)
  refine (separated_lists id hitem hs hdepth).mono ?_
  intro params s' h
  rw [List.map_id] at h
  exact h.1

theorem parameters_lists (hd : descend.Sound t depth) (place : Place) (closer : Option Token.Kind)
    (hs : s.Valid t) (hdepth : s.ahead.length < depth) :
    Outcome (parameters descend place closer) s (Lists t s) (ReadError.Proper t) := by
  unfold parameters
  exact Outcome.unlessClosed closer (Lists.nil s) (separatedParameters_lists hd place hs hdepth)

/-! ## arguments of a call -/

/-- what stands behind a name that ends at `stop`: nothing, or arguments over some tokens -/
structure Supplied (t : Text) (s : Cursor) (stop : Nat) (args : List Tree) (stop' : Nat)
    (s' : Cursor) : Prop where
  placed : ∀ tree ∈ args, tree.Placed t
  row : (s' = s ∧ args = [] ∧ stop' = stop) ∨
    (s.Takes s' ⟨s.offset, stop'⟩ ∧ Tree.InRow args s.offset stop')

theorem callArguments_supplied (hd : descend.Sound t depth) (stop : Nat) (hs : s.Valid t)
    (hdepth : s.ahead.length < depth) :
    Outcome (callArguments descend stop) s (fun r => Supplied t s stop r.1 r.2)
      (ReadError.Proper t) := by
  unfold callArguments
  rw [outcome_bind, outcome_tightParen]
  split
  next hparen =>
    have hk : s.current.kind = .leftParen := by
      simp only [Bool.and_eq_true, decide_eq_true_eq] at hparen
      exact hparen.1
    have ht := takes_advance hs (by rw [hk]; simp)
    have hs' := ht.valid hs
    have hlt := ht.length_lt
    rw [outcome_bind, outcome_advance]
    refine (arguments_lists hd .free .rightParen hs' (by omega)).bind ?_
    intro args s' hargs
    have hs'' := hargs.passes.valid hs'
    rw [outcome_bind, outcome_expect]
    split
    next hclose =>
      have ht' := takes_advance hs'' (by rw [hclose]; simp)
      have hall : s.Takes s'.advance ⟨s.offset, s'.current.span.stop⟩ :=
        ht.passes_takes hargs.passes ht'
      refine ⟨hargs.placed, .inr ⟨hall, hargs.row.widen (ht.passes.offset_le hs) ?_⟩⟩
      exact Nat.le_of_lt (ht'.nonempty hs'')
    next => exact proper_here hs'' (by simp)
  next =>
    rw [outcome_bind, outcome_startsCommand]
    split
    next =>
      unfold arguments
      rw [outcome_bind, outcome_bind, outcome_closes_none]
      refine (separatedArguments_lists hd .command none hs hdepth).mono ?_
      rintro args s' ⟨hlists, hexact⟩
      obtain ⟨stop', hlast, htakes⟩ := hexact rfl
      have hgetD : (args.getLast?.map (·.span.stop)).getD stop = stop' := by
        rw [← Tree.lastStop?, hlast]
        rfl
      refine ⟨hlists.placed, .inr ?_⟩
      show s.Takes s' ⟨s.offset, (args.getLast?.map (·.span.stop)).getD stop⟩ ∧
        Tree.InRow args s.offset ((args.getLast?.map (·.span.stop)).getD stop)
      rw [hgetD]
      exact ⟨htakes, row_to_lastStop hlists.row hlists.placed hlast⟩
    next => exact ⟨by simp, .inl ⟨rfl, rfl, rfl⟩⟩

theorem Supplied.takes {s' : Cursor} {start stop stop' : Nat} {args : List Tree}
    (h : Supplied t s stop args stop' s') (hs₀ : s₀.Valid t) (htakes : s₀.Takes s ⟨start, stop⟩) :
    s₀.Takes s' ⟨start, stop'⟩ ∧ Tree.InRow args stop stop' ∧ stop ≤ stop' := by
  have hs := htakes.valid hs₀
  have hle : stop ≤ s.offset := htakes.stop_le hs₀
  rcases h.row with ⟨rfl, rfl, rfl⟩ | ⟨htail, hrow⟩
  · exact ⟨htakes, Tree.InRow.nil _ _, Nat.le_refl _⟩
  · have hne := htail.nonempty hs
    refine ⟨htakes.trans htail, hrow.widen hle (Nat.le_refl _), ?_⟩
    exact Nat.le_trans hle (Nat.le_of_lt hne)

/-! ## blocks -/

/-- a tree that began earlier, read on from a cursor -/
structure ReadOn (t : Text) (s₀ s : Cursor) (tree : Tree) (s' : Cursor) : Prop where
  reads : tree.ReadFrom t s₀ s'
  passes : s.Passes s'

theorem passes_locals (s : Cursor) (locals : List Text) : s.Passes { s with locals := locals } :=
  ⟨[], rfl, rfl⟩

/-- the names in sight are set back behind a scope, which changes no tokens -/
theorem withinScope_outcome {sight : Sight} {body : Parse Tree} {Q : Tree → Cursor → Prop}
    (hQ : ∀ tree s' locals, Q tree s' → Q tree { s' with locals := locals })
    (h : Outcome body { s with locals := if sight = .closed then [] else s.locals } Q
      (ReadError.Proper t)) :
    Outcome (withinScope sight body) s Q (ReadError.Proper t) := by
  rw [outcome_withinScope]
  exact h.mono (fun tree s' htree => hQ tree s' s.locals htree)

theorem ReadOn.locals {tree : Tree} {s' : Cursor} (h : ReadOn t s₀ s tree s') (locals : List Text) :
    ReadOn t s₀ s tree { s' with locals := locals } :=
  ⟨h.reads.congr rfl rfl, h.passes.trans (passes_locals s' locals)⟩

/-- the body of a block and its closing token, behind the parameters -/
theorem blockBody_readOn (hd : descend.Sound t depth) {closer : Token.Kind} {wanted : String}
    {owner : Tree} {params : List Tree} {mid s : Cursor} (hcloser : closer ≠ .eof)
    (hs₀ : s₀.Valid t) (howner : owner.ReadFrom t s₀ mid) (hparams : Lists t mid params s)
    (hdepth : s.ahead.length < depth) :
    Outcome (do
        let body ← statements descend .free (fun kind => decide (kind = closer))
        let closing ← expect closer wanted
        return ⟨.block owner params body, owner.span.join closing.span⟩)
      s (ReadOn t s₀ mid) (ReadError.Proper t) := by
  have hmid := howner.takes.valid hs₀
  have hs := hparams.passes.valid hmid
  refine (statements_lists hd .free _ hs hdepth).bind ?_
  intro body s' hbody
  have hinner := Lists.append hmid hparams hbody
  have hs' := hinner.passes.valid hmid
  rw [outcome_bind, outcome_expect]
  split
  next hclose =>
    have ht' := takes_advance hs' (by rw [hclose]; exact hcloser)
    have hne := howner.placed.nonempty
    have hstop := howner.takes.stop_le hs₀
    have hle := hinner.passes.offset_le hmid
    have hoffset : s'.offset ≤ s'.current.span.stop := Nat.le_of_lt (ht'.nonempty hs')
    rw [outcome_pure, howner.takes.join_eq hs₀ hinner.passes ht']
    refine ⟨Tree.readFrom_mk hs₀ (howner.takes.passes_takes hinner.passes ht') ?_ ?_ trivial,
      hinner.passes.trans ht'.passes⟩
    · intro child hchild
      rcases List.mem_cons.mp hchild with rfl | hchild
      · exact howner.placed
      · exact hinner.placed child hchild
    · exact Tree.InRow.cons (Nat.le_refl _) (Nat.le_of_lt hne) hstop
        (by show owner.span.stop ≤ s'.current.span.stop; omega)
        (hinner.row.widen (Nat.le_refl _) hoffset)
  next => exact proper_here hs' (by simp)

theorem blockRest_readOn (hd : descend.Sound t depth) {closer : Token.Kind} {wanted : String}
    {owner : Tree} (hcloser : closer ≠ .eof) (hs₀ : s₀.Valid t) (howner : owner.ReadFrom t s₀ s)
    (hk : s.current.kind ≠ .eof) (hdepth : s.ahead.length ≤ depth) :
    Outcome (blockRest descend closer wanted owner) s (ReadOn t s₀ s) (ReadError.Proper t) := by
  have hs := howner.takes.valid hs₀
  have ht := takes_advance hs hk
  have hlt := ht.length_lt
  unfold blockRest
  rw [outcome_bind, outcome_advance]
  refine withinScope_outcome (fun _ _ locals h => h.locals locals) ?_
  rw [if_neg (by simp)]
  change Outcome _ s.advance _ _
  have hs' := ht.valid hs
  rw [outcome_bind, outcome_eat]
  split
  next hpipe =>
    have ht' := takes_advance hs' (by rw [hpipe]; simp)
    have hs'' := ht'.valid hs'
    have hlt' := ht'.length_lt
    dsimp only
    rw [if_pos rfl]
    refine (parameters_lists hd .free (some .pipe) hs'' (by omega)).bind ?_
    intro params s' hparams
    have hs''' := hparams.passes.valid hs''
    have hlt'' := hparams.passes.length_le
    rw [outcome_bind, outcome_expect]
    split
    next hclose =>
      have ht'' := takes_advance hs''' (by rw [hclose]; simp)
      have hlt''' := ht''.length_lt
      have hall := (hparams.passes_right hs'' ht''.passes).passes_left (ht.passes.trans ht'.passes) hs
      exact blockBody_readOn hd hcloser hs₀ howner hall (by omega)
    next => exact proper_here hs''' (by simp)
  next =>
    have hnone : Lists t s [] s.advance := (Lists.nil s.advance).passes_left ht.passes hs
    exact blockBody_readOn hd hcloser hs₀ howner hnone (by omega)

theorem block_readOn (hd : descend.Sound t depth) (place : Place) {owner : Tree} (hs₀ : s₀.Valid t)
    (howner : owner.ReadFrom t s₀ s) (hdepth : s.ahead.length ≤ depth) :
    Outcome (block descend place owner) s (ReadOn t s₀ s) (ReadError.Proper t) := by
  unfold block
  rw [outcome_bind, outcome_current]
  split
  next => exact ⟨howner, Passes.refl s⟩
  next =>
    split
    next hk =>
      exact blockRest_readOn hd (by simp) hs₀ howner (by rw [hk]; simp) hdepth
    next hk =>
      exact blockRest_readOn hd (by simp) hs₀ howner (by rw [hk]; simp) hdepth
    next => exact ⟨howner, Passes.refl s⟩

/-! ## calls -/

/-- a call behind its method name, which was taken with the receiver in front of it -/
theorem call_readOn (hd : descend.Sound t depth) (place : Place) {receiver : Option Tree}
    {method : Text} {selector : Span} (hs₀ : s₀.Valid t)
    (htakes : s₀.Takes s ⟨(receiver.map (·.span.start)).getD selector.start, selector.stop⟩)
    (hmethod : t.slice? selector = some method) (hne : selector.start < selector.stop)
    (hstart : (receiver.map (·.span.start)).getD selector.start ≤ selector.start)
    (hreceiver : ∀ tree ∈ receiver.toList, tree.Placed t)
    (hrow : Tree.InRow receiver.toList ((receiver.map (·.span.start)).getD selector.start)
      selector.start) (hdepth : s.ahead.length < depth) :
    Outcome (call descend place receiver method selector) s (ReadOn t s₀ s)
      (ReadError.Proper t) := by
  have hs := htakes.valid hs₀
  unfold call
  dsimp only
  generalize (receiver.map (·.span.start)).getD selector.start = start at htakes hstart hrow ⊢
  refine (callArguments_supplied hd selector.stop hs hdepth).bind ?_
  rintro ⟨args, stop⟩ s' hargs
  obtain ⟨hall, hargsRow, hle⟩ := Supplied.takes hargs hs₀ htakes
  have hpasses : s.Passes s' := by
    rcases hargs.row with ⟨heq, _⟩ | ⟨htail, _⟩
    · rw [heq]
      exact Passes.refl s
    · exact htail.passes
  have hlen := hpasses.length_le
  have howner : Tree.ReadFrom t s₀ ⟨.call receiver method selector args, ⟨start, stop⟩⟩ s' := by
    refine Tree.readFrom_mk hs₀ hall ?_ ?_ ⟨hmethod, hne, hstart, hle, hrow, hargsRow⟩
    · intro child hchild
      rcases List.mem_append.mp hchild with hchild | hchild
      · exact hreceiver child hchild
      · exact hargs.placed child hchild
    · exact hrow.append hargsRow (Nat.le_of_lt hne) (Nat.le_trans hstart (Nat.le_of_lt hne))
        (Nat.le_trans (Nat.le_of_lt hne) hle)
  refine (block_readOn hd place hs₀ howner (by omega)).mono ?_
  intro tree s'' htree
  exact ⟨htree.reads, hpasses.trans htree.passes⟩

end Parse

end Collate
