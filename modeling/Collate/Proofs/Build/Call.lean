import Collate.Proofs.Build.Argument

/-!
# Parameters and calls follow the grammar

The program looks up where a receiver begins and where the last argument ends, and asserts that no span is
reversed.  A tree that was pushed begins in front of the cursor and ends behind the offset it was read from,
which is all that these spans need.

* `Build.parameters_follows`     parameters up to a closing token;
* `Build.callArguments_follows`  the arguments behind a name, and where they end;
* `Build.call_follows`           a call behind its method name.
-/

namespace Collate

namespace Build
open Cursor NodeTable
variable {t : Text} {base table table' : NodeTable} {s s' : Cursor} {start : Nat}
  {build : Build.Descent} {descend : Collate.Descent}

structure PushedOption (base : NodeTable) (tree : Option Tree) (id : Option Nat) (table : NodeTable) : Prop where
  push : base.pushOption tree = (table, id)
  stands : List.Forall₂ table.Stands id.toList tree.toList

theorem PushedOption.none (base : NodeTable) : PushedOption base none none base :=
  ⟨rfl, .nil⟩

theorem PushedOption.some {tree : Tree} {id : Nat} (h : Pushed base start tree s id table) :
    PushedOption base (some tree) (some id) table :=
  ⟨by simp only [pushOption, h.push], .cons h.stands .nil⟩

/-! ## parameters -/

theorem namedParameter_follows {kind : ParameterKind} {name : Text} {fallback : Option Tree}
    {fallbackId : Option Nat} {start' stop : Nat} (h : PushedOption base fallback fallbackId table)
    (hle : start' ≤ stop) (hstop : start ≤ stop) (hoffset : start' ≤ s.offset) :
    Follows t table (Build.namedParameter kind name fallbackId start' stop)
      (Parse.namedParameter kind name fallback ⟨start', stop⟩) s (Pushed base start) := by
  rw [Build.namedParameter, Parse.namedParameter, pushFrom_eq hle]
  refine Follows.declare (Follows.push_last (fun _ => Stands.lt_of_mem h.stands) ?_)
  refine Pushed.mk' ?_ rfl ⟨hstop, hoffset⟩
  simp only [pushNode, h.push]

theorem restParameter_follows {kind : ParameterKind} (hs : s.Ready t) :
    Follows t table (Build.restParameter kind s.current) (Parse.restParameter kind s.current) s.advance
      (Pushed table s.offset) := by
  have hs' := hs.advance
  have hle : s.current.span.start ≤ s.advance.current.span.stop :=
    Nat.le_trans hs.offset_le_advance hs'.start_le_stop
  have hoffset : s.offset ≤ s.advance.advance.offset :=
    Nat.le_trans hs.offset_le_advance hs'.offset_le_advance
  rw [Build.restParameter, Parse.restParameter]
  refine Follows.current hs' ?_
  split
  next name hnext hspace =>
    try rw [hnext, hspace]
    exact Follows.advance hs' (namedParameter_follows (PushedOption.none table) hle hle hoffset)
  next hnext hspace =>
    try rw [hnext, hspace]
    refine Follows.advance hs' ?_
    rw [pushFrom_eq hle]
    exact Follows.push_last (fun _ hmem => nomatch hmem) (Pushed.mk' rfl rfl ⟨hle, hoffset⟩)
  next hident hnil =>
    try simp only
    exact Follows.push_last (fun _ hmem => nomatch hmem)
      (Pushed.mk' rfl rfl ⟨hs.start_le_stop, hs.offset_le_advance⟩)

theorem parameter_follows (hd : Descent.Follows t build descend) (place : Place) (hs : s.Ready t) :
    Follows t table (Build.parameter build place) (Parse.parameter descend place) s
      (Pushed table s.offset) := by
  have hs' := hs.advance
  have hplain {kind : ParameterKind} {name : Text} :
      Follows t table (Build.namedParameter kind name none s.current.span.start s.current.span.stop)
        (Parse.namedParameter kind name none s.current.span) s.advance (Pushed table s.offset) :=
    namedParameter_follows (PushedOption.none table) hs.start_le_stop hs.start_le_stop hs.offset_le_advance
  have hfallback {kind : ParameterKind} {name : Text} {s₁ : Cursor} (hpasses : s.Passes s₁) :
      Follows t table
        (do let fallback ← build .expression place
            Build.namedParameter kind name (some fallback) s.current.span.start (← Build.spanOf fallback).stop)
        (do let fallback ← descend .expression place
            Parse.namedParameter kind name (some fallback) ⟨s.current.span.start, fallback.span.stop⟩)
        s₁ (Pushed table s.offset) := by
    have hle := hpasses.offset_le hs.toValid
    refine (hd .expression place _ _ (hpasses.ready hs)).bind fun value s' id table' hpasses' _ hvalue => ?_
    have hle' := Nat.le_trans hle hvalue.start_le
    exact Follows.spanOf hvalue.stands (namedParameter_follows (PushedOption.some hvalue) hle' hle'
      ((hpasses.trans hpasses').offset_le hs.toValid))
  rw [Build.parameter, Parse.parameter]
  refine Follows.advance hs ?_
  split
  next name hk =>
    try rw [hk]
    exact Follows.eat hs' (fun _ => hfallback ((passes_advance s).trans (passes_advance s.advance)))
      (fun _ => hplain)
  next name hk =>
    try rw [hk]
    refine Follows.valueOmitted hs' ?_
    split
    next => exact hplain
    next => exact hfallback (passes_advance s)
  next hk => simpa only [hk] using restParameter_follows hs
  next hk => simpa only [hk] using restParameter_follows hs
  next hk => simpa only [hk] using restParameter_follows hs
  next hident hlabel hstar hdouble hampersand =>
    try simp only
    exact Follows.refuse hs.current_slice

theorem parameters_follows (hd : Descent.Follows t build descend) (place : Place)
    (closer : Option Token.Kind) (hs : s.Ready t) :
    Follows t table (Build.parameters build place closer) (Parse.parameters descend place closer) s
      (fun trees _ => PushedAll table s.offset trees) := by
  rw [Build.parameters, Parse.parameters]
  refine Follows.closes hs fun closed => ?_
  cases closed with
  | true => exact Follows.pure (PushedAll.nil table s.offset)
  | false => exact separated_follows _ (fun s table hs => parameter_follows hd place hs) hs

/-! ## arguments of a call -/

/-- the arguments behind a name that ends at `stop` were pushed, and end at the same offset on both sides -/
structure Supplied (base : NodeTable) (stop start : Nat) (args : List Tree × Nat) (ids : List Nat × Nat)
    (table : NodeTable) : Prop where
  pushed : PushedAll base start args.1 ids.1 table
  stop_eq : ids.2 = args.2
  stop_le : stop ≤ args.2

theorem callArguments_follows (hd : Descent.Follows t build descend) {stop : Nat} (hs : s.Ready t)
    (hle : stop ≤ s.offset) :
    Follows t table (Build.callArguments build stop) (Parse.callArguments descend stop) s
      (fun args _ => Supplied table stop s.offset args) := by
  rw [Build.callArguments, Parse.callArguments]
  refine Follows.tightParen hs ?_
  split
  next =>
    have hs' := hs.advance
    refine Follows.advance hs ?_
    refine (arguments_follows hd .free _ hs').bind fun args s' ids table' hpasses _ hids => ?_
    have hs'' := hpasses.ready hs'
    have hle' := hs.offset_le_advance
    refine Follows.expect hs'' fun _ => Follows.pure ⟨⟨hids.push, hids.stands, ?_⟩, rfl, ?_⟩
    · exact fun tree hmem => Nat.le_trans hle' (hids.start_le tree hmem)
    · exact Nat.le_trans hle (Nat.le_trans hle' (Nat.le_trans (hpasses.offset_le hs'.toValid) hs''.start_le_stop))
  next =>
    refine Follows.startsCommand hs ?_
    split
    next =>
      refine (arguments_follows hd .command none hs).bind fun args s' ids table' hpasses _ hids => ?_
      have hstands := hids.stands
      have hstart := hids.start_le
      cases hstands with
      | nil => exact Follows.pure ⟨hids, rfl, Nat.le_refl _⟩
      | @cons firstId first restIds rest hfirst hrest =>
        rw [List.getLast?_cons, List.getLast?_cons, ← List.getLastD_eq_getLast?, ← List.getLastD_eq_getLast?]
        refine Follows.spanOf (stands_getLastD hfirst hrest) (Follows.pure ⟨hids, rfl, ?_⟩)
        exact Nat.le_trans hle (hstart _ List.getLastD_mem_cons)
    next => exact Follows.pure ⟨PushedAll.nil table s.offset, rfl, Nat.le_refl _⟩

/-! ## blocks -/

/-- the parts of a block were pushed behind the call they belong to -/
structure BlockParts (owner : Tree) (base : NodeTable) (block : Tree)
    (parts : List Nat × List Nat × Token) (table : NodeTable) : Prop where
  pushed : ∃ params body mid, block = ⟨.block owner params body, owner.span.join parts.2.2.span⟩ ∧
    base.pushAll params = (mid, parts.1) ∧ mid.pushAll body = (table, parts.2.1)
  lt_size : ∀ id ∈ parts.1 ++ parts.2.1, id < table.size

theorem blockRest_follows (hd : Descent.Follows t build descend) {closer : Token.Kind} {wanted : String}
    {owner : Tree} {ownerId : Nat} (hs : s.Ready t) (howner : Pushed base start owner s ownerId table) :
    Follows t table (Build.blockRest build closer wanted ownerId)
      (Parse.blockRest descend closer wanted owner) s (Pushed base start) := by
  have hbody {params : List Tree} {ids : List Nat} {s₁ : Cursor} {table₁ : NodeTable} {start₁ : Nat}
      (hs₁ : s₁.Ready t) (hparams : PushedAll table start₁ params ids table₁) :
      Follows t table₁
        (do let body ← Build.statements build .free (fun kind => decide (kind = closer))
            let closing ← Build.expect closer wanted
            return (ids, body, closing))
        (do let body ← Parse.statements descend .free (fun kind => decide (kind = closer))
            let closing ← Parse.expect closer wanted
            return ⟨.block owner params body, owner.span.join closing.span⟩) s₁
        (fun block _ => BlockParts owner table block) := by
    refine (statements_follows hd .free _ hs₁).bind fun body s₂ bodyIds table₂ hpasses hext hids => ?_
    refine Follows.expect (hpasses.ready hs₁) fun _ => Follows.pure ⟨⟨params, body, table₁, rfl, hparams.push,
      hids.push⟩, fun id hmem => ?_⟩
    rcases List.mem_append.mp hmem with hmem | hmem
    · exact Nat.lt_of_lt_of_le (Stands.lt_of_mem hparams.stands hmem) hext.size_le
    · exact Stands.lt_of_mem hids.stands hmem
  have hs' := hs.advance
  rw [Build.blockRest, Parse.blockRest]
  refine Follows.advance hs ?_
  rw [← bind_pure (Parse.withinScope _ _)]
  refine (Follows.withinScope (Q := fun block _ => BlockParts owner table block) ?_).bind
    fun block s' parts table' hpasses hext hparts => ?_
  · rw [if_neg (by simp)]
    refine Follows.eat hs' (fun _ => ?_) (fun _ => hbody hs' (PushedAll.nil table 0))
    dsimp only
    rw [if_pos rfl, if_pos rfl]
    have hs'' := hs'.advance
    refine (parameters_follows hd .free (some .pipe) hs'').bind fun params s₁ ids table₁ hpasses _ hids => ?_
    have hs₁ := hpasses.ready hs''
    exact Follows.expect hs₁ fun _ => hbody hs₁.advance hids
  · obtain ⟨⟨params, body, mid, rfl, hparams, hbody⟩, hlt⟩ := hparts
    have hstands := howner.stands.extends hext
    refine Follows.spanOf hstands (Follows.push_last ?_ (Pushed.mk' ?_ rfl
      (howner.join hs ((passes_advance s).trans hpasses) _)))
    · intro child hchild
      rcases List.mem_cons.mp hchild with rfl | hchild
      · exact hstands.lt_size
      · exact hlt child hchild
    · simp only [pushNode, howner.push, hparams, hbody]

theorem block_follows (hd : Descent.Follows t build descend) (place : Place) {owner : Tree} {ownerId : Nat}
    (hs : s.Ready t) (howner : Pushed base start owner s ownerId table) :
    Follows t table (Build.block build place ownerId) (Parse.block descend place owner) s
      (Pushed base start) := by
  rw [Build.block, Parse.block]
  refine Follows.current hs ?_
  split
  next => exact Follows.pure howner
  next =>
    split
    next hk => simpa only [hk] using blockRest_follows hd hs howner
    next hk => simpa only [hk] using blockRest_follows hd hs howner
    next hbrace hdo =>
      try simp only
      exact Follows.pure howner

/-! ## calls -/

theorem call_follows (hd : Descent.Follows t build descend) (place : Place) {receiver : Option Tree}
    {receiverId : Option Nat} {method : Text} {selector : Span} (hs : s.Ready t)
    (hreceiver : PushedOption base receiver receiverId table) (hselector : selector.stop ≤ s.offset)
    (hstart : (receiver.map (·.span.start)).getD selector.start ≤ selector.stop)
    (hle : start ≤ selector.stop) :
    Follows t table (Build.call build place receiverId method selector)
      (Parse.call descend place receiver method selector) s (Pushed base start) := by
  have hcall {begin : Nat} (hbegin : begin ≤ selector.stop) :
      Follows t table
        (do let args ← Build.callArguments build selector.stop
            Build.block build place (← Build.pushFrom (.call receiverId method selector args.1) begin args.2))
        (do let args ← Parse.callArguments descend selector.stop
            Parse.block descend place ⟨.call receiver method selector args.1, ⟨begin, args.2⟩⟩) s
        (Pushed base start) := by
    refine (callArguments_follows hd hs hselector).bind fun args s' ids table' hpasses hext hargs => ?_
    rw [hargs.stop_eq, pushFrom_eq (Nat.le_trans hbegin hargs.stop_le)]
    have hstop := hargs.stop_le
    have hoffset := hpasses.offset_le hs.toValid
    refine Follows.push (fun child hchild => ?_) (block_follows hd place (hpasses.ready hs) ?_)
    · rcases List.mem_append.mp hchild with hchild | hchild
      · exact Nat.lt_of_lt_of_le (Stands.lt_of_mem hreceiver.stands hchild) hext.size_le
      · exact Stands.lt_of_mem hargs.pushed.stands hchild
    · refine Pushed.mk' ?_ rfl ⟨Nat.le_trans hle hstop, ?_⟩
      · simp only [pushNode, hreceiver.push, hargs.pushed.push]
      · exact Nat.le_trans hbegin (Nat.le_trans hselector hoffset)
  unfold Build.call Parse.call
  obtain ⟨hpush, hstands⟩ := hreceiver
  cases receiver with
  | none =>
    cases receiverId with
    | none => exact hcall hstart
    | some id => cases hstands
  | some receiver =>
    cases receiverId with
    | none => cases hstands
    | some id =>
      cases hstands with
      | cons hid _ => exact Follows.spanOf hid (hcall hstart)

end Build

end Collate
