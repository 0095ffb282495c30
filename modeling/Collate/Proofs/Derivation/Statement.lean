import Collate.Proofs.Derivation.Body
import Collate.Proofs.Grammar.Statement

/-!
# The forms of expressions and statements

Every phrase gives a derived tree at its place, so the statements of a file are derived at a free place
from all its tokens.

* `Parse.phrase_derives`    all phrases, down to a depth;
* `Parse.program_derives`   a whole file.
-/

namespace Collate

namespace Parse
open Cursor
variable {t : Text} {descend : Descent} {place : Place} {s s₀ : Cursor}

/-! ## atoms -/

theorem bareCall_derives (hd : descend.Derives t) {name : Text} (hs : s.Valid t)
    (hk : s.current.kind = .ident name ∨ s.current.kind = .const name) :
    Outcome (call descend place none name s.current.span) s.advance (Reads place s) ReadError.Any := by
  have hne : s.current.kind ≠ .eof := by rcases hk with hk | hk <;> simp [hk]
  exact call_derives hd none hs (spells_advance hs hne) (takes_advance hs hne)
    fun args slots hargs => .bareCall hk hargs

theorem name_derives (hd : descend.Derives t) {text : Text} (hs : s.Valid t)
    (hk : s.current.kind = .ident text) :
    Outcome (name descend place text) s (Reads place s) ReadError.Any := by
  have hne : s.current.kind ≠ .eof := by simp [hk]
  unfold name
  simp only [outcome_bind, outcome_advance, outcome_isLocal, outcome_tightParen]
  split
  next => exact (spells_advance hs hne).reads (takes_advance hs hne) (.localVariable hk)
  next => exact bareCall_derives hd hs (.inl hk)

theorem constant_derives (hd : descend.Derives t) {text : Text} (hs : s.Valid t)
    (hk : s.current.kind = .const text) :
    Outcome (constant descend place text) s (Reads place s) ReadError.Any := by
  have hne : s.current.kind ≠ .eof := by simp [hk]
  unfold constant
  simp only [outcome_bind, outcome_advance, outcome_tightParen]
  split
  next => exact bareCall_derives hd hs (.inr hk)
  next =>
    have hleaf : s.current.kind.isLeaf = true := by rw [hk]; rfl
    exact (spells_advance hs hne).reads (takes_advance hs hne) (.leaf hleaf)

theorem single_derives {node : Node Tree} (hs : s.Valid t) (hk : s.current.kind ≠ .eof)
    (hform : Form place node [.own s.current]) :
    Outcome (single node) s (Reads place s) ReadError.Any := by
  unfold single
  rw [outcome_bind, outcome_advance]
  exact (spells_advance hs hk).reads (takes_advance hs hk) hform

theorem leaf_derives (hs : s.Valid t) (hleaf : s.current.kind.isLeaf = true) :
    Outcome (single (.other [])) s (Reads place s) ReadError.Any := by
  refine single_derives hs ?_ (.leaf hleaf)
  intro heof
  rw [heof] at hleaf
  exact nomatch hleaf

theorem array_derives (hd : descend.Derives t) (hs : s.Valid t) (hk : s.current.kind = .leftBracket) :
    Outcome (array descend) s (Reads place s) ReadError.Any := by
  have hne : s.current.kind ≠ .eof := by simp [hk]
  unfold array
  rw [outcome_bind, outcome_advance]
  refine grouped_derives hs hk (by simp) (by simp)
    (closedArguments_derives hd .rightBracket ((passes_advance s).valid hs)) ?_
  intro items slots s' hgroup h hpasses hclosing
  exact h.reads ((takes_advance hs hne).joined hs hpasses hclosing) (.array hgroup)

theorem parenthesized_derives (hd : descend.Derives t) (hs : s.Valid t)
    (hk : s.current.kind = .leftParen) :
    Outcome (parenthesized descend) s (Reads place s) ReadError.Any := by
  have hne : s.current.kind ≠ .eof := by simp [hk]
  have hopening := spells_advance hs hne
  have hs' := hopening.passes.valid hs
  unfold parenthesized
  rw [outcome_bind, outcome_advance]
  refine (hd .statement .free _ hs' (by simp)).bind ?_
  intro inner s' hinner
  rw [outcome_bind, outcome_expect]
  split
  next hk' =>
    have hne' : s'.current.kind ≠ .eof := by simp [hk']
    have hall := takes_advance_joined hs hne hinner.takes.passes hne'
    have hclosing := spells_advance (hinner.takes.valid hs') hne'
    obtain ⟨tokens, hinner⟩ := hinner
    exact (hopening.append (hinner.append hclosing)).reads hall (.parenthesized hk hk' tokens inner)
  next => trivial

theorem atom_derives (hd : descend.Derives t) (hs : s.Valid t) :
    Outcome (atom descend place) s (Reads place s) ReadError.Any := by
  have hleaf {kind : Token.Kind} (hk : s.current.kind = kind) (hleaf : kind.isLeaf = true) :
      Outcome (single (.other [])) s (Reads place s) ReadError.Any :=
    leaf_derives hs (by rw [hk]; exact hleaf)
  have hkeyword {kind : Token.Kind} {keyword : ConditionalKeyword} (hk : s.current.kind = kind)
      (hof : ConditionalKeyword.ofKind? kind = some keyword) :
      ConditionalKeyword.ofKind? s.current.kind = some keyword := by
    rw [hk]
    exact hof
  unfold atom
  rw [outcome_bind, outcome_peek]
  split
  next hk => exact name_derives hd hs hk
  next hk => exact constant_derives hd hs hk
  next hk => exact hleaf hk rfl
  next hk => exact hleaf hk rfl
  next hk => exact hleaf hk rfl
  next hk => exact hleaf hk rfl
  next hk => exact hleaf hk rfl
  next hk => exact hleaf hk rfl
  next hk => exact single_derives hs (by simp [hk]) (.str hk)
  next hk => exact single_derives hs (by simp [hk]) (.symbol hk)
  next hk => exact definition_derives hd hs hk
  next hk => exact branch_derives hd hs (hkeyword hk rfl) (by simp)
  next hk => exact branch_derives hd hs (hkeyword hk rfl) (by simp)
  next hk => exact repetition_derives hd hs (hkeyword hk rfl) (by simp)
  next hk => exact repetition_derives hd hs (hkeyword hk rfl) (by simp)
  next hk => exact namespaced_derives hd hs (.inl hk)
  next hk => exact namespaced_derives hd hs (.inr hk)
  next hk => exact jump_derives hd hs (.inl hk)
  next hk => exact jump_derives hd hs (.inr hk)
  next hk => exact array_derives hd hs hk
  next hk => exact braced_derives hd hs hk
  next hk => exact parenthesized_derives hd hs hk
  next => trivial
  next => trivial

/-! ## terms -/

theorem methodName_derives :
    Outcome methodName s (fun r s' => s.current.kind.methodName? = some r.1 ∧
      s.current.span = r.2 ∧ s.current.kind ≠ .eof ∧ s' = s.advance) ReadError.Any := by
  unfold methodName
  rw [outcome_bind, outcome_advance]
  split
  next hk => exact ⟨by rw [hk]; rfl, rfl, by simp [hk], rfl⟩
  next hk => exact ⟨by rw [hk]; rfl, rfl, by simp [hk], rfl⟩
  next hk => exact ⟨by rw [hk]; rfl, rfl, by simp [hk], rfl⟩
  next => trivial

theorem dotCall_derives (hd : descend.Derives t) {tree : Tree} (hs₀ : s₀.Valid t)
    (htree : Reads place s₀ tree s) (hk : s.current.kind = .dot ∨ s.current.kind = .safeDot) :
    Outcome (do
        let _ ← advance
        let (method, selector) ← methodName
        return some (← call descend place (some tree) method selector))
      s (Longer (Reads place s₀) s) ReadError.Any := by
  have hs := htree.takes.valid hs₀
  have hdot := spells_advance hs (by rcases hk with hk | hk <;> simp [hk])
  have hs' := hdot.passes.valid hs
  rw [outcome_bind, outcome_advance]
  refine methodName_derives.bind ?_
  rintro ⟨method, selector⟩ s' ⟨hname, rfl, hne, rfl⟩
  have htakes := htree.takes.passes_takes hdot.passes (takes_advance hs' hne)
  obtain ⟨tokens, htree⟩ := htree
  have hfront := htree.append (hdot.append (spells_advance hs' hne))
  exact (call_derives hd (some tree) hs₀ hfront htakes
    fun args slots hargs => .dotCall hk hname hargs tokens tree).bind fun longer s'' h => h

theorem access_derives (hd : descend.Derives t) {tree : Tree} (hs₀ : s₀.Valid t)
    (htree : Reads place s₀ tree s) :
    Outcome (access descend place tree) s (Longer (Reads place s₀) s) ReadError.Any := by
  have hs := htree.takes.valid hs₀
  unfold access
  rw [outcome_bind, outcome_current]
  split
  next hk => exact dotCall_derives hd hs₀ htree (.inl hk)
  next hk => exact dotCall_derives hd hs₀ htree (.inr hk)
  next hk =>
    have hmark := spells_advance hs (by simp [hk])
    have hs' := hmark.passes.valid hs
    have hname (hne : s.advance.current.kind ≠ .eof) : Reads place s₀
        ⟨.other [tree], tree.span.join s.advance.current.span⟩ s.advance.advance := by
      have hall := htree.takes.joined hs₀ hmark.passes (takes_advance hs' hne)
      obtain ⟨tokens, htree⟩ := htree
      exact (htree.append (hmark.append (spells_advance hs' hne))).reads hall (.scope hk tokens tree)
    rw [outcome_bind, outcome_advance, outcome_bind, outcome_advance]
    split
    next hk' => exact hname (by simp [hk'])
    next hk' => exact hname (by simp [hk'])
    next => trivial
  next hk _ =>
    have hopening := passes_advance s
    rw [outcome_bind, outcome_advance]
    refine grouped_derives hs hk (by simp) (by simp)
      (closedArguments_derives hd .rightBracket (hopening.valid hs)) ?_
    intro items slots s' hgroup h hpasses hclosing
    have hall := htree.takes.joined hs₀ (hopening.trans hpasses) hclosing
    obtain ⟨tokens, htree⟩ := htree
    exact (htree.append h).reads hall (.index hgroup tokens tree)
  next => exact rfl

theorem term_derives (hd : descend.Derives t) (hs : s.Valid t) :
    Outcome (term descend place) s (Reads place s) ReadError.Any :=
  chained_keeps (atom_derives hd hs) fun _ _ htree => access_derives hd hs htree

/-! ## operators -/

theorem operand_derives (hd : descend.Derives t) (hs : s.Valid t) :
    Outcome (operand descend place) s (Reads place s) ReadError.Any := by
  unfold operand
  rw [outcome_bind, outcome_peek]
  split
  next h =>
    have hne := isLeading_ne_eof h
    have hmark := spells_advance hs hne
    rw [outcome_bind, outcome_advance]
    refine (hd .operand place _ (hmark.passes.valid hs) (by simp)).bind ?_
    intro inner s' hinner
    have hall := (takes_advance hs hne).joined hs (Passes.refl _) hinner.takes
    obtain ⟨tokens, hinner⟩ := hinner
    exact (hmark.append hinner).reads hall (.leading (.inl h) tokens inner)
  next => exact term_derives hd hs

theorem binary_derives (hd : descend.Derives t) {tree : Tree} (hs₀ : s₀.Valid t)
    (htree : Reads place s₀ tree s) :
    Outcome (binary descend place tree) s (Longer (Reads place s₀) s) ReadError.Any := by
  have hs := htree.takes.valid hs₀
  unfold binary
  rw [outcome_bind, outcome_current]
  split
  next h =>
    have hmark := spells_advance hs (isBinary_ne_eof h)
    rw [outcome_bind, outcome_advance]
    refine (operand_derives hd (hmark.passes.valid hs)).bind ?_
    intro right s' hright
    have hall := htree.takes.joined hs₀ hmark.passes hright.takes
    obtain ⟨front, htree⟩ := htree
    obtain ⟨tokens, hright⟩ := hright
    exact (htree.append (hmark.append hright)).reads hall (.binary h front tree tokens right)
  next => exact rfl

theorem expression_derives (hd : descend.Derives t) (hs : s.Valid t) :
    Outcome (expression descend place) s (Reads place s) ReadError.Any :=
  chained_keeps (operand_derives hd hs) fun _ _ htree => binary_derives hd hs htree

/-! ## statements -/

theorem assignment_derives (hd : descend.Derives t) (hs : s.Valid t) :
    Outcome (assignment descend place) s (Reads place s) ReadError.Any := by
  -- the value stands behind the target and the sign
  have hvalue (build : Tree → Node Tree) (hk : s.current.kind ≠ .eof)
      (hsign : isAssigning s.second.kind = true) (names : List Text)
      (hform : ∀ sign tokens value, isAssigning sign.kind = true →
        Form place (build value) [.own s.current, .own sign, .part place tokens value]) :
      Outcome (do
          let value ← descend .assignment place
          return ⟨build value, s.current.span.join value.span⟩)
        { s.advance.advance with locals := names } (Reads place s) ReadError.Any := by
    have htarget := spells_advance hs hk
    have hs' := htarget.passes.valid hs
    have hsign : isAssigning s.advance.current.kind = true := hsign
    have hmark := (spells_advance hs' (isAssigning_ne_eof hsign)).locals s.locals names
    refine (hd .assignment place _ (hmark.passes.valid hs') (by simp)).bind ?_
    intro value s' hvalue
    have hall := (takes_advance hs hk).joined hs hmark.passes hvalue.takes
    obtain ⟨tokens, hvalue⟩ := hvalue
    exact (htarget.append (hmark.append hvalue)).reads hall (hform _ tokens value hsign)
  unfold assignment
  rw [outcome_bind, outcome_get]
  split
  next name hk hsign =>
    exact hvalue (.assignment name) (by simp [hk]) hsign (name :: s.locals)
      fun sign tokens value h => .assignment hk h tokens value
  next hk hsign =>
    have hleaf : s.current.kind.isLeaf = true := by rw [hk]; rfl
    exact hvalue (fun value => .other [value]) (by simp [hk]) hsign s.locals
      fun sign tokens value h => .otherAssignment hleaf h tokens value
  next hk hsign =>
    have hleaf : s.current.kind.isLeaf = true := by rw [hk]; rfl
    exact hvalue (fun value => .other [value]) (by simp [hk]) hsign s.locals
      fun sign tokens value h => .otherAssignment hleaf h tokens value
  next => exact expression_derives hd hs

theorem statement_derives (hd : descend.Derives t) (hs : s.Valid t) :
    Outcome (statement descend place) s (Reads place s) ReadError.Any :=
  chained_keeps (assignment_derives hd hs) fun _ _ htree => modifier_derives hd hs htree

/-! ## all phrases -/

/-- one level of phrases gives derived trees if the phrases inside do -/
theorem level_derives (hd : descend.Derives t) : (level descend).Derives t := by
  intro phrase place s hs hbranch
  cases phrase with
  | statement => exact statement_derives hd hs
  | assignment => exact assignment_derives hd hs
  | expression => exact expression_derives hd hs
  | operand => exact operand_derives hd hs
  | term => exact term_derives hd hs
  | branch =>
    have hk : ConditionalKeyword.ofKind? s.current.kind = some .elsif_ := by
      rw [hbranch rfl]
      rfl
    exact branch_derives hd hs hk (by simp)

theorem phrase_derives (depth : Nat) : (phrase depth).Derives t := by
  induction depth with
  | zero =>
    intro phrase place s hs hbranch
    trivial
  | succ depth ih => exact level_derives ih

theorem program_derives (hs : s.Valid t) :
    Outcome program s (fun body s' => States s body s' ∧ s'.ahead = []) ReadError.Any := by
  unfold program
  rw [outcome_bind, outcome_rounds]
  refine (statements_derives (phrase_derives _) _ hs).bind ?_
  intro body s' hbody
  rw [outcome_bind, outcome_peek]
  split
  next heof =>
    refine ⟨hbody, ?_⟩
    have hs' := hbody.passes.valid hs
    cases hahead : s'.ahead with
    | nil => rfl
    | cons token rest =>
      rw [current_cons hahead] at heof
      exact absurd heof (hs'.fits token (by simp [hahead])).kind_ne_eof
  next => trivial

end Parse

end Collate
