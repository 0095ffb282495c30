import Collate.Grammar.Statement
import Collate.Proofs.Grammar.Body

/-!
# All phrases in their places

From atoms up to whole files: every phrase is placed over the tokens it is read from.  A phrase
inside another stands behind one of its tokens at least, so by induction on the depth no reader
ever runs out of steps.

* `Parse.phrase_sound`   all phrases, down to a depth;
* `Parse.program_lists`  the statements of a whole file.
-/

namespace Collate

namespace Parse
open Cursor
variable {t : Text} {descend : Descent} {depth : Nat} {s s₀ : Cursor}

/-! ## atoms -/

theorem bareCall_reads (hd : descend.Sound t depth) (place : Place) {name : Text} (hs : s.Valid t)
    (hk : s.current.kind ≠ .eof) (hname : t.slice? s.current.span = some name)
    (hdepth : s.ahead.length ≤ depth) :
    Outcome (call descend place none name s.current.span) s.advance (Tree.ReadFrom t s)
      (ReadError.Proper t) := by
  have ht := takes_advance hs hk
  have hlt := ht.length_lt
  have hcall : Outcome (call descend place none name s.current.span) s.advance
      (ReadOn t s s.advance) (ReadError.Proper t) :=
    call_readOn hd place hs ht hname (ht.nonempty hs) (Nat.le_refl _) (by simp)
      (Tree.InRow.nil _ _) (by omega)
  exact hcall.mono (fun _ _ h => h.reads)

theorem token_reads {node : Node Tree} (hs : s.Valid t) (hk : s.current.kind ≠ .eof)
    (hnode : node.children = []) (hmarked : node.Marked t s.current.span) :
    Tree.ReadFrom t s ⟨node, s.current.span⟩ s.advance := by
  have ht := takes_advance hs hk
  exact ⟨ht, Tree.Placed.of_leaf hnode hmarked (ht.nonempty hs) (ht.boundary hs) (ht.clear hs)⟩

theorem name_reads (hd : descend.Sound t depth) (place : Place) {text : Text} (hs : s.Valid t)
    (hk : s.current.kind = .ident text) (hdepth : s.ahead.length ≤ depth) :
    ReadsTree t (name descend place text) s := by
  have hne : s.current.kind ≠ .eof := by rw [hk]; simp
  have hslice := (hs.current_fits hne).slice_of_spelled hk (fun _ h => h)
  unfold ReadsTree name
  simp only [outcome_bind, outcome_advance, outcome_isLocal, outcome_tightParen]
  split
  next => exact token_reads hs hne rfl ⟨s.current, hs.current_mem hne, hk, rfl⟩
  next => exact bareCall_reads hd place hs hne hslice hdepth

theorem constant_reads (hd : descend.Sound t depth) (place : Place) {text : Text} (hs : s.Valid t)
    (hk : s.current.kind = .const text) (hdepth : s.ahead.length ≤ depth) :
    ReadsTree t (constant descend place text) s := by
  have hne : s.current.kind ≠ .eof := by rw [hk]; simp
  have hslice := (hs.current_fits hne).slice_of_spelled hk (fun _ h => h)
  unfold ReadsTree constant
  simp only [outcome_bind, outcome_advance, outcome_tightParen]
  split
  next => exact bareCall_reads hd place hs hne hslice hdepth
  next => exact token_reads hs hne rfl trivial

theorem array_reads (hd : descend.Sound t depth) (hs : s.Valid t) (hk : s.current.kind ≠ .eof)
    (hdepth : s.ahead.length ≤ depth) : ReadsTree t (array descend) s := by
  have ht := takes_advance hs hk
  have hs' := ht.valid hs
  have hlt := ht.length_lt
  unfold ReadsTree array
  rw [outcome_bind, outcome_advance]
  refine (arguments_lists hd .free .rightBracket hs' (by omega)).bind ?_
  intro items s' hitems
  rw [outcome_bind, outcome_expect]
  split
  next hclose => exact Lists.enclosed hitems hs hk (by rw [hclose]; simp) trivial
  next => exact proper_here (hitems.passes.valid hs') (by simp)

theorem parenthesized_reads (hd : descend.Sound t depth) (hs : s.Valid t)
    (hk : s.current.kind ≠ .eof) (hdepth : s.ahead.length ≤ depth) :
    ReadsTree t (parenthesized descend) s := by
  have ht := takes_advance hs hk
  have hs' := ht.valid hs
  have hlt := ht.length_lt
  unfold ReadsTree parenthesized
  rw [outcome_bind, outcome_advance]
  refine (hd .statement .free _ hs' (by omega) (by simp)).bind ?_
  intro inner s' hinner
  have hlists := Lists.single hs' hinner
  rw [outcome_bind, outcome_expect]
  split
  next hclose => exact Lists.enclosed hlists hs hk (by rw [hclose]; simp) trivial
  next => exact proper_here (hlists.passes.valid hs') (by simp)

theorem single_reads {node : Node Tree} (hs : s.Valid t) (hk : s.current.kind ≠ .eof)
    (hnode : node.children = []) (hmarked : ∀ span, node.Marked t span) :
    ReadsTree t (single node) s := by
  unfold ReadsTree single
  rw [outcome_bind, outcome_advance]
  exact token_reads hs hk hnode (hmarked _)

theorem atom_reads (hd : descend.Sound t depth) (place : Place) (hs : s.Valid t)
    (hdepth : s.ahead.length ≤ depth) : ReadsTree t (atom descend place) s := by
  unfold ReadsTree atom
  rw [outcome_bind, outcome_peek]
  split
  next hk => exact name_reads hd place hs hk hdepth
  next hk => exact constant_reads hd place hs hk hdepth
  next hk => exact single_reads hs (by rw [hk]; simp) rfl (fun _ => trivial)
  next hk => exact single_reads hs (by rw [hk]; simp) rfl (fun _ => trivial)
  next hk => exact single_reads hs (by rw [hk]; simp) rfl (fun _ => trivial)
  next hk => exact single_reads hs (by rw [hk]; simp) rfl (fun _ => trivial)
  next hk => exact single_reads hs (by rw [hk]; simp) rfl (fun _ => trivial)
  next hk => exact single_reads hs (by rw [hk]; simp) rfl (fun _ => trivial)
  next hk => exact single_reads hs (by rw [hk]; simp) rfl (fun _ => trivial)
  next hk => exact single_reads hs (by rw [hk]; simp) rfl (fun _ => trivial)
  next hk => exact definition_reads hd place hs (by rw [hk]; simp) hdepth
  next hk => exact branch_reads hd place hs (by rw [hk]; simp) hdepth
  next hk => exact branch_reads hd place hs (by rw [hk]; simp) hdepth
  next hk => exact repetition_reads hd hs (by rw [hk]; simp) hdepth
  next hk => exact repetition_reads hd hs (by rw [hk]; simp) hdepth
  next hk => exact namespaced_reads hd place hs (by rw [hk]; simp) hdepth
  next hk => exact namespaced_reads hd place hs (by rw [hk]; simp) hdepth
  next hk => exact jump_reads hd hs (by rw [hk]; simp) hdepth
  next hk => exact jump_reads hd hs (by rw [hk]; simp) hdepth
  next hk => exact array_reads hd hs (by rw [hk]; simp) hdepth
  next hk => exact braced_reads hd hs hk hdepth
  next hk => exact parenthesized_reads hd hs (by rw [hk]; simp) hdepth
  next => exact proper_here hs (by simp)
  next => exact proper_here hs (by simp)

/-! ## terms -/

theorem methodName_takes (hs : s.Valid t) :
    Outcome methodName s (fun r s' => t.slice? r.2 = some r.1 ∧ s.Takes s' r.2)
      (ReadError.Proper t) := by
  have htoken {name : Text} (hk : s.current.kind ≠ .eof) (hname : s.current.text = name) :
      t.slice? s.current.span = some name ∧ s.Takes s.advance s.current.span := by
    rw [← hname]
    exact ⟨(hs.current_fits hk).slice, takes_advance hs hk⟩
  have hspelled (hk : s.current.kind ≠ .eof) := (hs.current_fits hk).spelled
  unfold methodName
  rw [outcome_bind, outcome_advance]
  split
  next hk =>
    rw [hk] at hspelled
    exact htoken (by rw [hk]; simp) (hspelled (by simp))
  next hk =>
    rw [hk] at hspelled
    exact htoken (by rw [hk]; simp) (hspelled (by simp))
  next hk =>
    rw [hk] at hspelled
    exact htoken (by rw [hk]; simp) (hspelled (by simp))
  next => exact proper_here hs (by simp)

theorem dotCall_extended (hd : descend.Sound t depth) (place : Place) {tree : Tree}
    (hs₀ : s₀.Valid t) (htree : tree.ReadFrom t s₀ s) (hk : s.current.kind ≠ .eof)
    (hdepth : s.ahead.length ≤ depth) :
    Outcome (do
        let _ ← advance
        let (method, selector) ← methodName
        return some (← call descend place (some tree) method selector))
      s (Extended t s₀ s) (ReadError.Proper t) := by
  have hs := htree.takes.valid hs₀
  have ht := takes_advance hs hk
  have hs' := ht.valid hs
  have hlt := ht.length_lt
  rw [outcome_bind, outcome_advance]
  refine (methodName_takes hs').bind ?_
  rintro ⟨method, selector⟩ s' ⟨hmethod, hselector⟩
  change t.slice? selector = some method at hmethod
  change s.advance.Takes s' selector at hselector
  have hlt' := hselector.length_lt
  have hne := hselector.nonempty hs'
  have h₁ := htree.placed.nonempty
  have h₂ := htree.takes.stop_le hs₀
  have h₃ := ht.passes.offset_le hs
  have h₄ := hselector.start_eq
  have hall := htree.takes.passes_takes ht.passes hselector
  have hrow : Tree.InRow [tree] tree.span.start selector.start :=
    Tree.InRow.single (Nat.le_refl _) (by omega)
  have hstart : tree.span.start ≤ selector.start := by omega
  have hcall : Outcome (call descend place (some tree) method selector) s' (ReadOn t s₀ s')
      (ReadError.Proper t) :=
    call_readOn hd place hs₀ hall hmethod hne hstart (by simpa using htree.placed) hrow (by omega)
  refine hcall.bind ?_
  intro longer s'' hlonger
  have hlen := hlonger.passes.length_le
  exact ⟨hlonger.reads, by omega⟩

/-- a construct that extends a tree by further children and a last token -/
theorem closed_extended {tree : Tree} {items : List Tree} {s' : Cursor} (hs₀ : s₀.Valid t)
    (htree : tree.ReadFrom t s₀ s) (hk : s.current.kind ≠ .eof)
    (hitems : Lists t s.advance items s') (hk' : s'.current.kind ≠ .eof) :
    Extended t s₀ s (some ⟨.other (tree :: items), tree.span.join s'.current.span⟩) s'.advance := by
  have hs := htree.takes.valid hs₀
  have ht := takes_advance hs hk
  have hall := hitems.passes_left ht.passes hs
  have hs' := hall.passes.valid hs
  have ht' := takes_advance hs' hk'
  have hlen := hall.passes.length_le
  have hlt := ht'.length_lt
  have h₁ := htree.placed.nonempty
  have h₂ := htree.takes.stop_le hs₀
  have h₃ := hall.passes.offset_le hs
  have h₄ : s'.offset < s'.current.span.stop := ht'.nonempty hs'
  refine ⟨?_, by omega⟩
  rw [htree.takes.join_eq hs₀ hall.passes ht']
  refine Tree.readFrom_mk hs₀ (htree.takes.passes_takes hall.passes ht') ?_ ?_ trivial
  · intro child hchild
    rcases List.mem_cons.mp hchild with rfl | hchild
    · exact htree.placed
    · exact hall.placed child hchild
  · exact Tree.InRow.cons (Nat.le_refl _) (Nat.le_of_lt h₁) h₂
      (by show tree.span.stop ≤ s'.current.span.stop; omega)
      (hall.row.widen (Nat.le_refl _) (Nat.le_of_lt h₄))

theorem access_extended (hd : descend.Sound t depth) (place : Place) {tree : Tree}
    (hs₀ : s₀.Valid t) (htree : tree.ReadFrom t s₀ s) (hdepth : s.ahead.length ≤ depth) :
    Outcome (access descend place tree) s (Extended t s₀ s) (ReadError.Proper t) := by
  have hs := htree.takes.valid hs₀
  unfold access
  rw [outcome_bind, outcome_current]
  split
  next hk => exact dotCall_extended hd place hs₀ htree (by rw [hk]; simp) hdepth
  next hk => exact dotCall_extended hd place hs₀ htree (by rw [hk]; simp) hdepth
  next hk =>
    have hne : s.current.kind ≠ .eof := by rw [hk]; simp
    have hs' := (takes_advance hs hne).valid hs
    rw [outcome_bind, outcome_advance, outcome_bind, outcome_advance]
    split
    next hname =>
      exact closed_extended hs₀ htree hne (Lists.nil s.advance) (by rw [hname]; simp)
    next hname =>
      exact closed_extended hs₀ htree hne (Lists.nil s.advance) (by rw [hname]; simp)
    next => exact proper_here hs' (by simp)
  next hk _ =>
    have hne : s.current.kind ≠ .eof := by rw [hk]; simp
    have ht := takes_advance hs hne
    have hlt := ht.length_lt
    have hs' := ht.valid hs
    rw [outcome_bind, outcome_advance]
    refine (arguments_lists hd .free .rightBracket hs' (by omega)).bind ?_
    intro items s' hitems
    rw [outcome_bind, outcome_expect]
    split
    next hclose => exact closed_extended hs₀ htree hne hitems (by rw [hclose]; simp)
    next => exact proper_here (hitems.passes.valid hs') (by simp)
  next => exact rfl

theorem term_reads (hd : descend.Sound t depth) (place : Place) (hs : s.Valid t)
    (hdepth : s.ahead.length ≤ depth) : ReadsTree t (term descend place) s := by
  refine chained_reads (atom_reads hd place hs hdepth) ?_
  intro tree s' htree
  have hlt := htree.takes.length_lt
  exact access_extended hd place hs htree (by omega)

/-! ## operators -/

theorem isLeading_ne_eof {kind : Token.Kind} (h : isLeading kind = true) : kind ≠ .eof := by
  rintro rfl
  exact absurd h (by simp [isLeading])

theorem isBinary_ne_eof {token : Token} (h : isBinary token = true) : token.kind ≠ .eof := by
  intro hk
  unfold isBinary at h
  rw [hk] at h
  exact absurd h (by simp)

theorem isAssigning_ne_eof {kind : Token.Kind} (h : isAssigning kind = true) : kind ≠ .eof := by
  rintro rfl
  exact absurd h (by simp [isAssigning])

theorem operand_reads (hd : descend.Sound t depth) (place : Place) (hs : s.Valid t)
    (hdepth : s.ahead.length ≤ depth) : ReadsTree t (operand descend place) s := by
  unfold ReadsTree operand
  rw [outcome_bind, outcome_peek]
  split
  next h =>
    have hk := isLeading_ne_eof h
    have ht := takes_advance hs hk
    have hlt := ht.length_lt
    rw [outcome_bind, outcome_advance]
    refine (hd .operand place _ (ht.valid hs) (by omega) (by simp)).bind ?_
    intro inner s' hinner
    exact (Lists.nil s.advance).upTo hs hk hinner rfl (fun _ => trivial)
  next => exact term_reads hd place hs hdepth

theorem binary_extended (hd : descend.Sound t depth) (place : Place) {tree : Tree}
    (hs₀ : s₀.Valid t) (htree : tree.ReadFrom t s₀ s) (hdepth : s.ahead.length ≤ depth) :
    Outcome (binary descend place tree) s (Extended t s₀ s) (ReadError.Proper t) := by
  have hs := htree.takes.valid hs₀
  unfold binary
  rw [outcome_bind, outcome_current]
  split
  next h =>
    have ht := takes_advance hs (isBinary_ne_eof h)
    have hlt := ht.length_lt
    rw [outcome_bind, outcome_advance]
    refine (operand_reads hd place (ht.valid hs) (by omega)).bind ?_
    intro right s' hright
    have hlt' := hright.takes.length_lt
    have h₁ := htree.placed.nonempty
    have h₂ := htree.takes.stop_le hs₀
    have h₃ := ht.passes.offset_le hs
    have h₄ := hright.takes.start_eq
    have h₅ := hright.placed.nonempty
    refine ⟨?_, by omega⟩
    rw [htree.takes.join_eq hs₀ ht.passes hright.takes]
    refine Tree.readFrom_mk hs₀ (htree.takes.passes_takes ht.passes hright.takes) ?_ ?_ trivial
    · intro child hchild
      rcases List.mem_cons.mp hchild with rfl | hchild
      · exact htree.placed
      · rw [List.mem_singleton.mp hchild]
        exact hright.placed
    · exact Tree.InRow.cons (Nat.le_refl _) (Nat.le_of_lt h₁) (Nat.le_refl _)
        (by show tree.span.stop ≤ right.span.stop; omega)
        (Tree.InRow.single (by omega) (Nat.le_refl _))
  next => exact rfl

theorem expression_reads (hd : descend.Sound t depth) (place : Place) (hs : s.Valid t)
    (hdepth : s.ahead.length ≤ depth) : ReadsTree t (expression descend place) s := by
  refine chained_reads (operand_reads hd place hs hdepth) ?_
  intro tree s' htree
  have hlt := htree.takes.length_lt
  exact binary_extended hd place hs htree (by omega)

/-! ## statements -/

/-- the value behind a name and an assigning token; `locals` are the names then in sight -/
theorem assigned_reads (hd : descend.Sound t depth) (place : Place) (build : Tree → Node Tree)
    (hchildren : ∀ tree, (build tree).inOrder = [tree])
    (hmarked : ∀ tree span, (build tree).Marked t span) (hs : s.Valid t)
    (hk : s.current.kind ≠ .eof) (hassign : isAssigning s.second.kind = true)
    (hdepth : s.ahead.length ≤ depth) (locals : List Text) :
    Outcome (do
        let value ← descend .assignment place
        return ⟨build value, s.current.span.join value.span⟩)
      { s.advance.advance with locals := locals } (Tree.ReadFrom t s) (ReadError.Proper t) := by
  have ht := takes_advance hs hk
  have hs' := ht.valid hs
  have ht' := takes_advance hs' (isAssigning_ne_eof hassign)
  have hlt := ht.length_lt
  have hlt' := ht'.length_lt
  have hpasses := ht'.passes.trans (passes_locals s.advance.advance locals)
  have hlen : ({ s.advance.advance with locals := locals } : Cursor).ahead.length < depth := by
    show s.advance.advance.ahead.length < depth
    omega
  refine (hd .assignment place _ (hpasses.valid hs') hlen (by simp)).bind ?_
  intro value s' hvalue
  have hnone := (Lists.nil { s.advance.advance with locals := locals }).passes_left hpasses hs'
  exact Lists.upTo hnone hs hk hvalue (hchildren value) (fun _ => hmarked _ _)

theorem assignment_reads (hd : descend.Sound t depth) (place : Place) (hs : s.Valid t)
    (hdepth : s.ahead.length ≤ depth) : ReadsTree t (assignment descend place) s := by
  unfold ReadsTree assignment
  rw [outcome_bind, outcome_get]
  split
  next name hk hassign =>
    exact assigned_reads hd place (.assignment name) (fun _ => rfl) (fun _ _ => trivial) hs
      (by rw [hk]; simp) hassign hdepth _
  next hk hassign =>
    exact assigned_reads hd place (fun value => .other [value]) (fun _ => rfl) (fun _ _ => trivial) hs
      (by rw [hk]; simp) hassign hdepth _
  next hk hassign =>
    exact assigned_reads hd place (fun value => .other [value]) (fun _ => rfl) (fun _ _ => trivial) hs
      (by rw [hk]; simp) hassign hdepth _
  next => exact expression_reads hd place hs hdepth

theorem statement_reads (hd : descend.Sound t depth) (place : Place) (hs : s.Valid t)
    (hdepth : s.ahead.length ≤ depth) : ReadsTree t (statement descend place) s := by
  refine chained_reads (assignment_reads hd place hs hdepth) ?_
  intro tree s' htree
  have hlt := htree.takes.length_lt
  exact modifier_extended hd place hs htree (by omega)

/-! ## all phrases -/

/-- one level of phrases over sound ones is sound one step deeper -/
theorem level_sound (hd : descend.Sound t depth) : (level descend).Sound t (depth + 1) := by
  intro phrase place s hs hlen hbranch
  have hdepth : s.ahead.length ≤ depth := by omega
  cases phrase with
  | statement => exact statement_reads hd place hs hdepth
  | assignment => exact assignment_reads hd place hs hdepth
  | expression => exact expression_reads hd place hs hdepth
  | operand => exact operand_reads hd place hs hdepth
  | term => exact term_reads hd place hs hdepth
  | branch => exact branch_reads hd place hs (hbranch rfl) hdepth

theorem phrase_sound (depth : Nat) : (phrase depth).Sound t depth := by
  induction depth with
  | zero =>
    intro phrase place s hs hlen
    omega
  | succ depth ih => exact level_sound ih

/-- a whole file gives placed statements in a row, and all tokens are taken -/
theorem program_lists (hs : s.Valid t) :
    Outcome program s (fun body s' => Lists t s body s' ∧ s'.current.kind = .eof)
      (ReadError.Proper t) := by
  unfold program
  rw [outcome_bind, outcome_rounds]
  refine (statements_lists (phrase_sound _) .free _ hs (Nat.lt_succ_self _)).bind ?_
  intro body s' hbody
  rw [outcome_bind, outcome_peek]
  split
  next hk => exact ⟨hbody, hk⟩
  next => exact proper_here (hbody.passes.valid hs) (by simp)

end Parse

end Collate
