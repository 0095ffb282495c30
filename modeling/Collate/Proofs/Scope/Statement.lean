import Collate.Proofs.Scope.Body

/-!
# Names through all phrases

A name is a local variable if it is in sight and no parenthesis touches it, and else a call; this is the
one place where the names in sight are looked at.  The target of an assignment comes in sight before the
value is read.

* `Parse.name_scans`      the decision between variable and call;
* `Parse.phrase_tracks`   all phrases, down to a depth;
* `Parse.program_scans`   the statements of a whole file.
-/

namespace Collate

namespace Parse
open Cursor
variable {t : Text} {descend : Descent} {depth : Nat} {s s₀ : Cursor}

/-! ## atoms -/

theorem bareCall_scans (hd : descend.Tracks t depth) (place : Place) {name : Text} (hs : s.Valid t)
    (hk : s.current.kind ≠ .eof) (hident : ∀ held, s.current.kind = .ident held → name = held)
    (hsight : s.current.kind = .ident name → t.parenTouches s.current.span.stop = false → name ∉ s.locals)
    (hdepth : s.ahead.length ≤ depth) :
    Outcome (call descend place none name s.current.span) s.advance (fun tree => Scans t s [tree])
      ReadError.Any := by
  have ht := takes_advance hs hk
  have hlt := ht.length_lt
  refine call_scans hd place (ht.valid hs) ht.passes (.nil _) ?_ ?_ (by omega)
  · intro args stop
    refine ⟨rfl, fun token htoken hkind hparen => ?_⟩
    obtain rfl := Option.some.inj ((hs.tokenFrom hk).symm.trans htoken)
    exact hsight hkind hparen
  · exact hs.covers_advance hk fun held hheld => .inr (.inl ⟨rfl, hident held hheld, rfl⟩)

theorem name_scans (hd : descend.Tracks t depth) (place : Place) {text : Text} (hs : s.Valid t)
    (hk : s.current.kind = .ident text) (hdepth : s.ahead.length ≤ depth) :
    Outcome (name descend place text) s (fun tree => Scans t s [tree]) ReadError.Any := by
  have hne : s.current.kind ≠ .eof := by simp [hk]
  have hparen := hs.parenTouches_eq hne
  have hident (held : Text) (hheld : s.current.kind = .ident held) : text = held :=
    Token.Kind.ident.inj (hk.symm.trans hheld)
  unfold name
  simp only [outcome_bind, outcome_advance, outcome_isLocal, outcome_tightParen]
  split
  next hlocal =>
    rw [Bool.and_eq_true, Bool.not_eq_true', List.contains_iff_mem] at hlocal
    refine Scans.plain (takes_advance hs hne).passes rfl ⟨hlocal.1, hparen.trans hlocal.2⟩ (.nil _) rfl ?_
    exact hs.covers_advance hne fun held hheld => .inr (.inl ⟨hident held hheld, rfl⟩)
  next hcall =>
    refine bareCall_scans hd place hs hne hident (fun _ hnot hmem => hcall ?_) hdepth
    rw [Bool.and_eq_true, Bool.not_eq_true', List.contains_iff_mem]
    exact ⟨hmem, hparen.symm.trans hnot⟩

theorem constant_scans (hd : descend.Tracks t depth) (place : Place) {text : Text} (hs : s.Valid t)
    (hk : s.current.kind = .const text) (hdepth : s.ahead.length ≤ depth) :
    Outcome (constant descend place text) s (fun tree => Scans t s [tree]) ReadError.Any := by
  unfold constant
  simp only [outcome_bind, outcome_advance, outcome_tightParen]
  split
  next =>
    refine bareCall_scans hd place hs (by simp [hk]) (fun held hheld => ?_) (fun hheld => ?_) hdepth
    · cases hk.symm.trans hheld
    · cases hk.symm.trans hheld
  next => exact Scans.wrap (Scans.mark hs (by simp [hk])) rfl trivial rfl rfl

theorem single_scans {node : Node Tree} (hs : s.Valid t)
    (hk : s.current.kind ≠ .eof ∧ ∀ name, s.current.kind ≠ .ident name)
    (hnode : node = .other [] ∨ (∃ content, node = .str content) ∨ ∃ name, node = .symbol name) :
    Outcome (single node) s (fun tree => Scans t s [tree]) ReadError.Any := by
  have hmark := Scans.mark hs hk
  unfold single
  rw [outcome_bind, outcome_advance]
  rcases hnode with rfl | ⟨content, rfl⟩ | ⟨name, rfl⟩ <;> exact Scans.wrap hmark rfl trivial rfl rfl

theorem array_scans (hd : descend.Tracks t depth) (hs : s.Valid t) (hk : s.current.kind = .leftBracket)
    (hdepth : s.ahead.length ≤ depth) :
    Outcome (array descend) s (fun tree => Scans t s [tree]) ReadError.Any := by
  have hopening := Scans.mark hs (by simp [hk])
  have hs' := hopening.passes.valid hs
  have hlt := (takes_advance hs (by simp [hk])).length_lt
  unfold array
  rw [outcome_bind, outcome_advance]
  refine (arguments_scans hd .free (some .rightBracket) hs' (by omega)).bind ?_
  intro items s' hitems
  rw [outcome_bind, outcome_expect]
  split
  next hclose =>
    have hall := hitems.append (Scans.mark (hitems.passes.valid hs') (by simp [hclose]))
    rw [List.append_nil] at hall
    exact (hopening.append hall).other_of_kind hs (start_join hs (hopening.passes.trans hitems.passes))
      (by simp [hk]) (by simp [hk]) (by simp [hk])
  next => trivial

theorem parenthesized_scans (hd : descend.Tracks t depth) (hs : s.Valid t)
    (hk : s.current.kind = .leftParen) (hdepth : s.ahead.length ≤ depth) :
    Outcome (parenthesized descend) s (fun tree => Scans t s [tree]) ReadError.Any := by
  have hopening := Scans.mark hs (by simp [hk])
  have hs' := hopening.passes.valid hs
  have hlt := (takes_advance hs (by simp [hk])).length_lt
  unfold parenthesized
  rw [outcome_bind, outcome_advance]
  refine (hd.reads .statement .free hs' (by omega) (by simp)).bind ?_
  rintro inner s' ⟨-, hinner⟩
  rw [outcome_bind, outcome_expect]
  split
  next hclose =>
    have hall := (hopening.append hinner).append (Scans.mark (hinner.passes.valid hs') (by simp [hclose]))
    exact hall.other_of_kind hs (start_join hs (hopening.passes.trans hinner.passes))
      (by simp [hk]) (by simp [hk]) (by simp [hk])
  next => trivial

theorem atom_scans (hd : descend.Tracks t depth) (place : Place) (hs : s.Valid t)
    (hdepth : s.ahead.length ≤ depth) :
    Outcome (atom descend place) s (fun tree => Scans t s [tree]) ReadError.Any := by
  unfold atom
  rw [outcome_bind, outcome_peek]
  split
  next hk => exact name_scans hd place hs hk hdepth
  next hk => exact constant_scans hd place hs hk hdepth
  next hk => exact single_scans hs (by simp [hk]) (.inl rfl)
  next hk => exact single_scans hs (by simp [hk]) (.inl rfl)
  next hk => exact single_scans hs (by simp [hk]) (.inl rfl)
  next hk => exact single_scans hs (by simp [hk]) (.inl rfl)
  next hk => exact single_scans hs (by simp [hk]) (.inl rfl)
  next hk => exact single_scans hs (by simp [hk]) (.inl rfl)
  next hk => exact single_scans hs (by simp [hk]) (.inr (.inl ⟨_, rfl⟩))
  next hk => exact single_scans hs (by simp [hk]) (.inr (.inr ⟨_, rfl⟩))
  next hk => exact definition_scans hd place hs hk hdepth
  next hk => exact branch_scans hd place hs (by simp [hk]) hdepth
  next hk => exact branch_scans hd place hs (by simp [hk]) hdepth
  next hk => exact repetition_scans hd hs (by simp [hk]) hdepth
  next hk => exact repetition_scans hd hs (by simp [hk]) hdepth
  next hk => exact namespaced_scans hd place hs (.inl hk) hdepth
  next hk => exact namespaced_scans hd place hs (.inr hk) hdepth
  next hk => exact jump_scans hd hs (.inl hk) hdepth
  next hk => exact jump_scans hd hs (.inr hk) hdepth
  next hk => exact array_scans hd hs hk hdepth
  next hk => exact braced_scans hd hs hk hdepth
  next hk => exact parenthesized_scans hd hs hk hdepth
  next => trivial
  next => trivial

/-! ## terms -/

theorem methodName_scans (hs : s.Valid t) (h : s.current.kind ≠ .eof → t.Selects s.current) :
    Outcome methodName s (fun _ => Scans t s []) ReadError.Any := by
  have htoken (hk : s.current.kind ≠ .eof) : Scans t s [] s.advance :=
    Scans.token hs hk fun _ _ => h hk
  unfold methodName
  rw [outcome_bind, outcome_advance]
  split
  next hk => exact htoken (by simp [hk])
  next hk => exact htoken (by simp [hk])
  next hk => exact htoken (by simp [hk])
  next => trivial

theorem dotCall_scans (hd : descend.Tracks t depth) (place : Place) {tree : Tree} (hs : s.Valid t)
    (htree : Scans t s₀ [tree] s) (hk : s.current.kind = .dot ∨ s.current.kind = .safeDot)
    (hdepth : s.ahead.length ≤ depth) :
    Outcome (do
        let _ ← advance
        let (method, selector) ← methodName
        return some (← call descend place (some tree) method selector))
      s (Lengthened t s₀ s) ReadError.Any := by
  have hplain : s.current.kind ≠ .eof ∧ ∀ name, s.current.kind ≠ .ident name := by
    rcases hk with hk | hk <;> simp [hk]
  have hmark := Scans.mark hs hplain
  have hs' := hmark.passes.valid hs
  have hlt := (takes_advance hs hplain.1).length_lt
  rw [outcome_bind, outcome_advance]
  refine (methodName_scans hs' (hs.selects (by rcases hk with hk | hk <;> simp [hk]))).bind ?_
  rintro ⟨method, selector⟩ s' hname
  have hlen := hname.passes.length_le
  have hfront := htree.append (hmark.append hname)
  have hcall : Outcome (call descend place (some tree) method selector) s' (fun tree => Scans t s₀ [tree])
      ReadError.Any :=
    call_scans hd place (hname.passes.valid hs') hfront.passes hfront.resolved (fun _ _ => trivial)
      (hfront.covered.mono fun _ _ => .inr) (by omega)
  refine hcall.bind ?_
  intro longer s'' hlonger
  exact hlonger

theorem start_join_of_tree {tree : Tree} {other : Span} (hs₀ : s₀.Valid t)
    (htree : tree.ReadFrom t s₀ s) (hle : s.offset ≤ other.start) :
    tree.span.start = (tree.span.join other).start := by
  have h₁ := htree.placed.nonempty
  have h₂ := htree.takes.stop_le hs₀
  exact (Nat.min_eq_left (by omega)).symm

theorem access_scans (hd : descend.Tracks t depth) (place : Place) {tree : Tree} (hs₀ : s₀.Valid t)
    (hread : tree.ReadFrom t s₀ s) (htree : Scans t s₀ [tree] s) (hdepth : s.ahead.length ≤ depth) :
    Outcome (access descend place tree) s (Lengthened t s₀ s) ReadError.Any := by
  have hs := hread.takes.valid hs₀
  unfold access
  rw [outcome_bind, outcome_current]
  split
  next hk => exact dotCall_scans hd place hs htree (.inl hk) hdepth
  next hk => exact dotCall_scans hd place hs htree (.inr hk) hdepth
  next hk =>
    have hmark := Scans.mark hs (by simp [hk])
    have hs' := hmark.passes.valid hs
    have hname (hne : s.advance.current.kind ≠ .eof) : Scans t s₀
        [⟨.other [tree], tree.span.join s.advance.current.span⟩] s.advance.advance := by
      have htoken := Scans.token hs' hne fun _ _ => hs.selects (.inr (.inr hk)) hne
      exact (htree.append (hmark.append htoken)).other_from
        (start_join_of_tree hs₀ hread (hmark.passes.offset_le hs))
    rw [outcome_bind, outcome_advance, outcome_bind, outcome_advance]
    split
    next hnext => exact hname (by simp [hnext])
    next hnext => exact hname (by simp [hnext])
    next => trivial
  next hk _ =>
    have hmark := Scans.mark hs (by simp [hk])
    have hs' := hmark.passes.valid hs
    have hlt := (takes_advance hs (by simp [hk])).length_lt
    rw [outcome_bind, outcome_advance]
    refine (arguments_scans hd .free (some .rightBracket) hs' (by omega)).bind ?_
    intro items s' hitems
    rw [outcome_bind, outcome_expect]
    split
    next hclose =>
      have hall := hitems.append (Scans.mark (hitems.passes.valid hs') (by simp [hclose]))
      rw [List.append_nil] at hall
      exact (htree.append (hmark.append hall)).other_from
        (start_join_of_tree hs₀ hread ((hmark.passes.trans hitems.passes).offset_le hs))
    next => trivial
  next => exact rfl

theorem term_scans (hd : descend.Tracks t depth) (place : Place) (hs : s.Valid t)
    (hdepth : s.ahead.length ≤ depth) :
    Outcome (term descend place) s (fun tree => Scans t s [tree]) ReadError.Any := by
  refine chained_scans ((atom_reads hd.sound place hs hdepth).and (atom_scans hd place hs hdepth)) ?_
  intro tree s' hread htree
  have hlt := hread.takes.length_lt
  exact (access_extended hd.sound place hs hread (by omega)).and
    (access_scans hd place hs hread htree (by omega))

/-! ## operators -/

theorem isLeading_plain {kind : Token.Kind} (h : isLeading kind = true) :
    (kind ≠ .eof ∧ ∀ name, kind ≠ .ident name) ∧ kind ≠ .keyword .class_ ∧ kind ≠ .keyword .module_ := by
  refine ⟨⟨?_, ?_⟩, ?_, ?_⟩
  · rintro rfl
    cases h
  · rintro name rfl
    cases h
  · rintro rfl
    cases h
  · rintro rfl
    cases h

theorem isBinary_plain {token : Token} (h : isBinary token = true) :
    token.kind ≠ .eof ∧ ∀ name, token.kind ≠ .ident name := by
  refine ⟨isBinary_ne_eof h, fun name hk => ?_⟩
  unfold isBinary at h
  rw [hk] at h
  cases h

theorem isAssigning_plain {kind : Token.Kind} (h : isAssigning kind = true) :
    kind ≠ .eof ∧ ∀ name, kind ≠ .ident name := by
  refine ⟨isAssigning_ne_eof h, ?_⟩
  rintro name rfl
  cases h

theorem operand_scans (hd : descend.Tracks t depth) (place : Place) (hs : s.Valid t)
    (hdepth : s.ahead.length ≤ depth) :
    Outcome (operand descend place) s (fun tree => Scans t s [tree]) ReadError.Any := by
  unfold operand
  rw [outcome_bind, outcome_peek]
  split
  next h =>
    obtain ⟨hplain, hclass, hmodule⟩ := isLeading_plain h
    have hmark := Scans.mark hs hplain
    have hlt := (takes_advance hs hplain.1).length_lt
    rw [outcome_bind, outcome_advance]
    refine (hd.reads .operand place (hmark.passes.valid hs) (by omega) (by simp)).bind ?_
    rintro inner s' ⟨hread, hinner⟩
    exact (hmark.append hinner).other_of_kind hs (start_join_tree hs hmark.passes hread) hplain.1 hclass
      hmodule
  next => exact term_scans hd place hs hdepth

theorem binary_scans (hd : descend.Tracks t depth) (place : Place) {tree : Tree} (hs₀ : s₀.Valid t)
    (hread : tree.ReadFrom t s₀ s) (htree : Scans t s₀ [tree] s) (hdepth : s.ahead.length ≤ depth) :
    Outcome (binary descend place tree) s (Lengthened t s₀ s) ReadError.Any := by
  have hs := hread.takes.valid hs₀
  unfold binary
  rw [outcome_bind, outcome_current]
  split
  next h =>
    have hplain := isBinary_plain h
    have hmark := Scans.mark hs hplain
    have hs' := hmark.passes.valid hs
    have hlt := (takes_advance hs hplain.1).length_lt
    rw [outcome_bind, outcome_advance]
    refine ((operand_reads hd.sound place hs' (by omega)).and
      (operand_scans hd place hs' (by omega))).bind ?_
    rintro right s' ⟨hright, hscans⟩
    have hle := hmark.passes.offset_le hs
    exact (htree.append (hmark.append hscans)).other_from
      (start_join_of_tree hs₀ hread (hright.takes.start_eq ▸ hle))
  next => exact rfl

theorem expression_scans (hd : descend.Tracks t depth) (place : Place) (hs : s.Valid t)
    (hdepth : s.ahead.length ≤ depth) :
    Outcome (expression descend place) s (fun tree => Scans t s [tree]) ReadError.Any := by
  refine chained_scans ((operand_reads hd.sound place hs hdepth).and (operand_scans hd place hs hdepth)) ?_
  intro tree s' hread htree
  have hlt := hread.takes.length_lt
  exact (binary_extended hd.sound place hs hread (by omega)).and
    (binary_scans hd place hs hread htree (by omega))

/-! ## statements -/

/-- an assignment to a local name, which comes in sight before the value is read -/
theorem localAssignment_scans (hd : descend.Tracks t depth) (place : Place) {name : Text} (hs : s.Valid t)
    (hk : s.current.kind = .ident name) (hassign : isAssigning s.second.kind = true)
    (hdepth : s.ahead.length ≤ depth) :
    Outcome (do
        let value ← descend .assignment place
        return ⟨.assignment name value, s.current.span.join value.span⟩)
      { s.advance.advance with locals := name :: s.locals } (fun tree => Scans t s [tree])
      ReadError.Any := by
  have hne : s.current.kind ≠ .eof := by simp [hk]
  have ht := takes_advance hs hne
  have hs' := ht.valid hs
  have hsign := Scans.mark hs' (isAssigning_plain hassign)
  have hlt := ht.length_lt
  have hlen := hsign.passes.length_le
  have hpasses := hsign.passes.trans (passes_locals s.advance.advance (name :: s.locals))
  refine (hd.reads .assignment place (hpasses.valid hs')
    (show s.advance.advance.ahead.length < depth by omega) (by simp)).bind ?_
  rintro value s' ⟨hread, hvalue⟩
  have hjoin := start_join_tree hs (ht.passes.trans hpasses) hread
  have hbehind : (s.current.span.join value.span).start < value.span.start := by
    have h₁ := ht.nonempty hs
    have h₂ := ht.stop_le hs
    have h₃ := hpasses.offset_le hs'
    have h₄ := hread.takes.start_eq
    have h₅ : s.offset = s.current.span.start := rfl
    omega
  refine Scans.plain ((ht.passes.trans hpasses).trans hvalue.passes) rfl hbehind hvalue.resolved rfl ?_
  have htarget : s.Covers t s.advance (fun held place =>
      (Node.assignment name value).Owns t (s.current.span.join value.span) held place ∨
        Tree.AnyOwns t (Node.assignment name value).inOrder held place) :=
    hs.covers_advance hne fun held hheld =>
      .inr (.inl ⟨Token.Kind.ident.inj (hk.symm.trans hheld), hjoin⟩)
  have hrest : s.advance.advance.Covers t s' (Tree.AnyOwns t [value]) := hvalue.covered
  refine (htarget.trans (hsign.covered.mono ?_)).trans (hrest.mono fun _ _ => .inr)
  rintro _ _ ⟨tree, hmem, -⟩
  cases hmem

theorem otherAssignment_scans (hd : descend.Tracks t depth) (place : Place) (hs : s.Valid t)
    (hk : (s.current.kind ≠ .eof ∧ ∀ name, s.current.kind ≠ .ident name) ∧
      s.current.kind ≠ .keyword .class_ ∧ s.current.kind ≠ .keyword .module_)
    (hassign : isAssigning s.second.kind = true) (hdepth : s.ahead.length ≤ depth) :
    Outcome (do
        let value ← descend .assignment place
        return ⟨.other [value], s.current.span.join value.span⟩)
      s.advance.advance (fun tree => Scans t s [tree]) ReadError.Any := by
  have htarget := Scans.mark hs hk.1
  have hs' := htarget.passes.valid hs
  have hsign := Scans.mark hs' (isAssigning_plain hassign)
  have hlt := (takes_advance hs hk.1.1).length_lt
  have hlen := hsign.passes.length_le
  have hfront := htarget.append hsign
  refine (hd.reads .assignment place (hfront.passes.valid hs) (by omega) (by simp)).bind ?_
  rintro value s' ⟨hread, hvalue⟩
  exact (hfront.append hvalue).other_of_kind hs (start_join_tree hs hfront.passes hread) hk.1.1 hk.2.1
    hk.2.2

theorem assignment_scans (hd : descend.Tracks t depth) (place : Place) (hs : s.Valid t)
    (hdepth : s.ahead.length ≤ depth) :
    Outcome (assignment descend place) s (fun tree => Scans t s [tree]) ReadError.Any := by
  unfold assignment
  rw [outcome_bind, outcome_get]
  split
  next name hk hassign => exact localAssignment_scans hd place hs hk hassign hdepth
  next hk hassign => exact otherAssignment_scans hd place hs (by simp [hk]) hassign hdepth
  next hk hassign => exact otherAssignment_scans hd place hs (by simp [hk]) hassign hdepth
  next => exact expression_scans hd place hs hdepth

theorem statement_scans (hd : descend.Tracks t depth) (place : Place) (hs : s.Valid t)
    (hdepth : s.ahead.length ≤ depth) :
    Outcome (statement descend place) s (fun tree => Scans t s [tree]) ReadError.Any := by
  refine chained_scans
    ((assignment_reads hd.sound place hs hdepth).and (assignment_scans hd place hs hdepth)) ?_
  intro tree s' hread htree
  have hlt := hread.takes.length_lt
  exact (modifier_extended hd.sound place hs hread (by omega)).and
    (modifier_scans hd place (hread.takes.valid hs) htree (by omega))

/-! ## all phrases -/

theorem level_tracks (hd : descend.Tracks t depth) : (level descend).Tracks t (depth + 1) := by
  refine ⟨level_sound hd.sound, fun phrase place s hs hlen hbranch => ?_⟩
  have hdepth : s.ahead.length ≤ depth := by omega
  cases phrase with
  | statement => exact statement_scans hd place hs hdepth
  | assignment => exact assignment_scans hd place hs hdepth
  | expression => exact expression_scans hd place hs hdepth
  | operand => exact operand_scans hd place hs hdepth
  | term => exact term_scans hd place hs hdepth
  | branch =>
    obtain ⟨word, hk⟩ := hbranch rfl
    exact branch_scans hd place hs (by simp [hk]) hdepth

theorem phrase_tracks (depth : Nat) : (phrase depth).Tracks t depth := by
  induction depth with
  | zero =>
    refine ⟨phrase_sound 0, fun phrase place s hs hlen => ?_⟩
    omega
  | succ depth ih => exact level_tracks ih

/-- the names go through the statements of a whole file, which stand for all its identifiers -/
theorem program_scans (hs : s.Valid t) :
    Outcome program s (fun body s' => Scans t s body s' ∧ s'.current.kind = .eof) ReadError.Any := by
  unfold program
  rw [outcome_bind, outcome_rounds]
  refine (statements_scans (phrase_tracks _) .free _ hs (Nat.lt_succ_self _)).bind ?_
  intro body s' hbody
  rw [outcome_bind, outcome_peek]
  split
  next hk => exact ⟨hbody, hk⟩
  next => trivial

end Parse

end Collate
