import Collate.Proofs.Twin.Basic

/-!
# Loops of two runs

Items between commas, constructs that further tokens extend, and statements are read in as many rounds
on both sides.  The second run has fewer tokens ahead and so fewer rounds to spend, but it takes a
token in each of them.
-/

namespace Collate

namespace Parse
open Cursor
variable {omitted : Nat → Bool} {descend descend' : Descent} {depth : Nat} {s s' : Cursor}

/-! ## items between commas -/

theorem separatedIn_twin {α γ : Type} {item item' : Parse α} {closer : Option Token.Kind}
    {lost : α → Prop} {f g : α → γ} {bound : Nat}
    (hitem : ∀ s s', s.Beside omitted s' → s'.ahead.length < bound →
      Twin omitted lost (fun a b s₁' => f a = g b ∧ s₁'.ahead.length < s'.ahead.length) item item' s s')
    (n : Nat) :
    ∀ n' s s', s.Beside omitted s' → s'.ahead.length < bound → s'.ahead.length < n' →
      Twin omitted (fun as => ∃ a ∈ as, lost a)
        (fun as bs s₁' => as.map f = bs.map g ∧ s₁'.ahead.length < s'.ahead.length)
        (separatedIn item closer n) (separatedIn item' closer n') s s' := by
  induction n with
  | zero =>
    intro n' s s' _ _ _
    exact Twin.outOfSteps
  | succ n ih =>
    intro n' s s' hb hbound hn
    obtain ⟨n', rfl⟩ : ∃ k, n' = k + 1 := ⟨n' - 1, by omega⟩
    unfold separatedIn
    refine Twin.bind (hitem s s' hb hbound) ?_ ?_
    · intro a ha
      refine Returns.bind fun comma => ?_
      split
      · refine Returns.bind fun closed => ?_
        split
        · exact Returns.pure ⟨a, List.mem_cons_self, ha⟩
        · exact Returns.bind fun rest => Returns.pure ⟨a, List.mem_cons_self, ha⟩
      · exact Returns.pure ⟨a, List.mem_cons_self, ha⟩
    · rintro a b s₁ s₁' hb₁ ⟨hab, hlen⟩
      refine Twin.eat hb₁ (fun hcomma => ?_) (fun hcomma => ?_)
      · rw [if_pos rfl, if_pos rfl]
        have hb₂ := hb₁.advance (by rw [hcomma]; simp)
        have hlen₂ := hb₁.length_advance (by rw [hcomma]; simp)
        have hrest : Twin omitted (fun as => ∃ a ∈ as, lost a)
            (fun as bs s₁' => as.map f = bs.map g ∧ s₁'.ahead.length < s'.ahead.length)
            (do return a :: (← separatedIn item closer n))
            (do return b :: (← separatedIn item' closer n')) s₁.advance s₁'.advance := by
          refine Twin.bind (ih n' _ _ hb₂ (by omega) (by omega)) ?_ ?_
          · rintro rest ⟨x, hx, hlost⟩
            exact Returns.pure ⟨x, List.mem_cons_of_mem _ hx, hlost⟩
          · rintro as bs s₂ s₂' hb₃ ⟨has, hlen₃⟩
            exact Twin.pure hb₃ ⟨by rw [List.map_cons, List.map_cons, hab, has], by omega⟩
        cases closer with
        | none => exact Twin.step rfl rfl hrest
        | some kind =>
          refine Twin.step rfl rfl ?_
          rw [hb₂.kind_eq]
          refine Twin.ite (fun _ => ?_) (fun _ => hrest)
          exact Twin.pure hb₂ ⟨by rw [List.map_singleton, List.map_singleton, hab], by omega⟩
      · rw [if_neg (by simp), if_neg (by simp)]
        exact Twin.pure hb₁ ⟨by rw [List.map_singleton, List.map_singleton, hab], hlen⟩

theorem separated_twin {α γ : Type} {item item' : Parse α} {closer : Option Token.Kind}
    {lost : α → Prop} {f g : α → γ} {bound : Nat}
    (hitem : ∀ s s', s.Beside omitted s' → s'.ahead.length < bound →
      Twin omitted lost (fun a b s₁' => f a = g b ∧ s₁'.ahead.length < s'.ahead.length) item item' s s')
    (hb : s.Beside omitted s') (hbound : s'.ahead.length < bound) :
    Twin omitted (fun as => ∃ a ∈ as, lost a)
      (fun as bs s₁' => as.map f = bs.map g ∧ s₁'.ahead.length < s'.ahead.length)
      (separated item closer) (separated item' closer) s s' := by
  unfold separated
  exact Twin.step rfl rfl (separatedIn_twin hitem _ _ s s' hb hbound (Nat.lt_succ_self _))

/-! ## constructs that are extended -/

/-- a construct and what may extend it, on both sides -/
def ExtendTwin (omitted : Nat → Bool) (p p' : Parse (Option Tree)) (s s' : Cursor) : Prop :=
  Twin omitted (fun r => ∃ longer, r = some longer ∧ longer.Spoiled omitted)
    (fun r r' s₁' => r.map (Tree.outline omitted) = r'.map Tree.bare ∧
      (r.isSome = true → s₁'.ahead.length < s'.ahead.length) ∧ s₁'.ahead.length ≤ s'.ahead.length)
    p p' s s'

def KeepsSpoiled (omitted : Nat → Bool) (extend : Tree → Parse (Option Tree)) : Prop :=
  ∀ tree : Tree, tree.Spoiled omitted →
    Returns (extend tree) (fun r => ∀ longer, r = some longer → longer.Spoiled omitted)

theorem chainedIn_spoiled {extend : Tree → Parse (Option Tree)} (hkeeps : KeepsSpoiled omitted extend)
    (n : Nat) : ∀ tree : Tree, tree.Spoiled omitted →
      Returns (chainedIn extend n tree) (Tree.Spoiled omitted) := by
  induction n with
  | zero =>
    intro tree _
    exact Returns.outOfSteps
  | succ n ih =>
    intro tree hspoiled s a s₂ hrun
    unfold chainedIn at hrun
    obtain ⟨r, s₁, hextend, hrest⟩ := bind_eq_ok_iff.mp hrun
    have hr := hkeeps tree hspoiled s r s₁ hextend
    cases r with
    | none =>
      obtain ⟨rfl, -⟩ := Prod.mk.inj (Except.ok.inj hrest)
      exact hspoiled
    | some longer => exact ih longer (hr longer rfl) s₁ a s₂ hrest

theorem chainedIn_twin {extend extend' : Tree → Parse (Option Tree)} {bound : Nat}
    (hkeeps : KeepsSpoiled omitted extend)
    (hext : ∀ tree tree' s s', tree.outline omitted = tree'.bare → s.Beside omitted s' →
      s'.ahead.length < bound → ExtendTwin omitted (extend tree) (extend' tree') s s') (n : Nat) :
    ∀ n' tree tree' s s', tree.outline omitted = tree'.bare → s.Beside omitted s' →
      s'.ahead.length < bound → s'.ahead.length < n' →
      TreeTwin omitted bound (chainedIn extend n tree) (chainedIn extend' n' tree') s s' := by
  induction n with
  | zero =>
    intro n' tree tree' s s' _ _ _ _
    exact Twin.outOfSteps
  | succ n ih =>
    intro n' tree tree' s s' htree hb hbound hn
    obtain ⟨n', rfl⟩ : ∃ k, n' = k + 1 := ⟨n' - 1, by omega⟩
    unfold chainedIn
    refine Twin.bind (hext tree tree' s s' htree hb hbound) ?_ ?_
    · rintro r ⟨longer, rfl, hspoiled⟩
      exact chainedIn_spoiled hkeeps n longer hspoiled
    · rintro r r' s₁ s₁' hb₁ ⟨hr, hsome, hle⟩
      cases r with
      | none =>
        cases r' with
        | none => exact Twin.pure hb₁ ⟨htree, by omega⟩
        | some longer' => exact nomatch hr
      | some longer =>
        cases r' with
        | none => exact nomatch hr
        | some longer' =>
          have hlt := hsome rfl
          exact ih n' longer longer' s₁ s₁' (Option.some.inj hr) hb₁ (by omega) (by omega)

theorem chained_twin {p p' : Parse Tree} {extend extend' : Tree → Parse (Option Tree)}
    (hp : TreeTwin omitted s'.ahead.length p p' s s') (hkeeps : KeepsSpoiled omitted extend)
    (hext : ∀ tree tree' s₁ s₁', tree.outline omitted = tree'.bare → s₁.Beside omitted s₁' →
      s₁'.ahead.length < s'.ahead.length → ExtendTwin omitted (extend tree) (extend' tree') s₁ s₁') :
    TreeTwin omitted s'.ahead.length (do chained extend (← p)) (do chained extend' (← p')) s s' := by
  refine Twin.bind hp ?_ ?_
  · intro tree hspoiled
    exact Returns.bind fun n => chainedIn_spoiled hkeeps n tree hspoiled
  · rintro tree tree' s₁ s₁' hb₁ ⟨htree, hlt⟩
    unfold chained
    exact Twin.step rfl rfl
      (chainedIn_twin hkeeps hext _ _ tree tree' s₁ s₁' htree hb₁ hlt (Nat.lt_succ_self _))

/-! ## statements -/

theorem skipSemicolons_run (s : Cursor) : skipSemicolons s = .ok ((), s.pastSemicolons) := rfl

theorem statementsIn_twin (hd : descend.Twins omitted depth descend') (place : Place)
    (stop : Token.Kind → Bool) (n : Nat) :
    ∀ n' s s', s.Beside omitted s' → s'.ahead.length < depth → s'.ahead.length < n' →
      ListTwin omitted (s'.ahead.length + 1) (statementsIn descend place stop n)
        (statementsIn descend' place stop n') s s' := by
  induction n with
  | zero =>
    intro n' s s' _ _ _
    exact Twin.outOfSteps
  | succ n ih =>
    intro n' s s' hb hdepth hn
    obtain ⟨n', rfl⟩ : ∃ k, n' = k + 1 := ⟨n' - 1, by omega⟩
    unfold ListTwin statementsIn
    have hb₁ := hb.pastSemicolons
    have hlen₁ := s'.pastSemicolons_length_le
    refine Twin.step (skipSemicolons_run s) (skipSemicolons_run s') (Twin.step rfl rfl ?_)
    rw [hb₁.kind_eq]
    refine Twin.ite (fun _ => ?_) (fun _ => ?_)
    · exact Twin.pure hb₁ ⟨rfl, by omega⟩
    · refine Twin.bind (hd.reads .statement place _ _ hb₁ (by omega) (by simp)) ?_ ?_
      · intro first hspoiled
        refine Returns.bind fun done => Returns.bind fun semicolon => Returns.bind fun line => ?_
        refine Returns.ite ?_ Returns.failHere
        exact Returns.bind fun rest => Returns.pure ⟨first, List.mem_cons_self, hspoiled⟩
      · rintro first first' s₂ s₂' hb₂ ⟨hfirst, hlen₂⟩
        refine Twin.step rfl rfl (Twin.step rfl rfl (Twin.step rfl rfl ?_))
        rw [hb₂.kind_eq, hb₂.newlineBefore_eq]
        refine Twin.ite (fun _ => ?_) (fun _ => Twin.failHere)
        refine Twin.bind (ih n' s₂ s₂' hb₂ (by omega) (by omega)) ?_ ?_
        · rintro rest ⟨tree, htree, hspoiled⟩
          exact Returns.pure ⟨tree, List.mem_cons_of_mem _ htree, hspoiled⟩
        · rintro rest rest' s₃ s₃' hb₃ ⟨hrest, hlen₃⟩
          exact Twin.pure hb₃ ⟨by rw [List.map_cons, List.map_cons, hfirst, hrest], by omega⟩

theorem statements_twin (hd : descend.Twins omitted depth descend') (place : Place)
    (stop : Token.Kind → Bool) (hb : s.Beside omitted s') (hdepth : s'.ahead.length < depth) :
    ListTwin omitted (s'.ahead.length + 1) (statements descend place stop)
      (statements descend' place stop) s s' := by
  unfold ListTwin statements
  exact Twin.step rfl rfl (statementsIn_twin hd place stop _ _ s s' hb hdepth (Nat.lt_succ_self _))

end Parse

end Collate
