import Collate.Grammar.Call
import Collate.Proofs.Twin.Argument

/-!
# Parameters, calls and blocks of two runs

A parameter has a label too, and its default value stands where a pair has its value.  When the second
run has no token for it, the first one reads a default that cannot be left out, and its tree is
spoiled.
-/

namespace Collate

namespace Parse
open Cursor
variable {omitted : Nat → Bool} {descend descend' : Descent} {depth : Nat} {s s' : Cursor}

/-! ## parameters -/

theorem declare_run (name : Text) (s : Cursor) :
    declare name s = .ok ((), { s with locals := name :: s.locals }) := rfl

theorem namedParameter_twin {kind : ParameterKind} {name : Text} {fallback fallback' : Option Tree}
    {span span' : Span} {n : Nat}
    (hfallback : fallback.map (Tree.outline omitted) = fallback'.map Tree.bare)
    (hb : s.Beside omitted s') (hn : s'.ahead.length < n) :
    TreeTwin omitted n (namedParameter kind name fallback span)
      (namedParameter kind name fallback' span') s s' := by
  refine Twin.step (declare_run name s) (declare_run name s') ?_
  exact Twin.pure (hb.declare name) ⟨by simp [hfallback], hn⟩

theorem namedParameter_spoiled {kind : ParameterKind} {name : Text} {fallback : Tree} {span : Span}
    (h : fallback.Spoiled omitted) :
    Returns (namedParameter kind name (some fallback) span) (Tree.Spoiled omitted) :=
  Returns.bind fun _ => Returns.pure (.child (by simp [Node.children]) h)

theorem fallback_twin (hd : descend.Twins omitted depth descend') (place : Place)
    {kind : ParameterKind} {name : Text} {start start' n : Nat} (hb : s.Beside omitted s')
    (hdepth : s'.ahead.length < depth) (hn : s'.ahead.length < n) :
    TreeTwin omitted n
      (do let fallback ← descend .expression place
          namedParameter kind name (some fallback) ⟨start, fallback.span.stop⟩)
      (do let fallback ← descend' .expression place
          namedParameter kind name (some fallback) ⟨start', fallback.span.stop⟩) s s' := by
  refine Twin.bind (hd.reads .expression place s s' hb hdepth (by simp)) ?_ ?_
  · exact fun fallback hspoiled => namedParameter_spoiled hspoiled
  · rintro fallback fallback' s₁ s₁' hb₁ ⟨hfallback, hlen⟩
    exact namedParameter_twin (by simp [hfallback]) hb₁ (by omega)

theorem restParameter_twin (kind : ParameterKind) (sign sign' : Token) {n : Nat}
    (hb : s.Beside omitted s') (hn : s'.ahead.length < n) :
    TreeTwin omitted n (restParameter kind sign) (restParameter kind sign') s s' := by
  unfold TreeTwin restParameter
  refine Twin.step rfl rfl ?_
  rw [hb.kind_eq, hb.spaceBefore_eq]
  split
  next name hk _ =>
    have hlen := hb.length_advance (by rw [hk]; simp)
    exact Twin.step rfl rfl
      (namedParameter_twin rfl (hb.advance (by rw [hk]; simp)) (by omega))
  next hk _ =>
    have hlen := hb.length_advance (by rw [hk]; simp)
    exact Twin.step rfl rfl (Twin.pure (hb.advance (by rw [hk]; simp)) ⟨by simp, by omega⟩)
  next => exact Twin.pure hb ⟨by simp, hn⟩

theorem parameter_twin (hd : descend.Twins omitted depth descend') (place : Place)
    (hb : s.Beside omitted s') (hdepth : s'.ahead.length ≤ depth) :
    TreeTwin omitted s'.ahead.length (parameter descend place) (parameter descend' place) s s' := by
  unfold TreeTwin parameter
  refine Twin.step rfl rfl ?_
  rw [hb.kind_eq]
  split
  next name hk =>
    have hb₁ := hb.advance (by rw [hk]; simp)
    have hlen := hb.length_advance (by rw [hk]; simp)
    refine Twin.eat hb₁ (fun hassign => ?_) (fun _ => ?_)
    · have hb₂ := hb₁.advance (by rw [hassign]; simp)
      have hlen₂ := hb₁.length_advance (by rw [hassign]; simp)
      exact fallback_twin hd place hb₂ (by omega) (by omega)
    · exact namedParameter_twin rfl hb₁ hlen
  next name hk =>
    have hlen := hb.length_advance (by rw [hk]; simp)
    refine Twin.step rfl rfl ?_
    rcases hb.advance_label hk with ⟨hb₁, -⟩ | ⟨-, hat, hvalue, hline, -⟩
    · rw [hb₁.newlineBefore_eq, hb₁.kind_eq]
      refine Twin.ite (fun _ => ?_) (fun _ => ?_)
      · exact namedParameter_twin rfl hb₁ hlen
      · exact fallback_twin hd place hb₁ (by omega) hlen
    · rw [if_neg (by rw [hline, hvalue]; simp [endsLabel])]
      exact Twin.of_lost (Returns.bind fun fallback => Returns.bind fun _ =>
        Returns.pure (.parameter hat))
  next hk =>
    exact restParameter_twin .rest _ _ (hb.advance (by rw [hk]; simp))
      (hb.length_advance (by rw [hk]; simp))
  next hk =>
    exact restParameter_twin .keywordRest _ _ (hb.advance (by rw [hk]; simp))
      (hb.length_advance (by rw [hk]; simp))
  next hk =>
    exact restParameter_twin .block _ _ (hb.advance (by rw [hk]; simp))
      (hb.length_advance (by rw [hk]; simp))
  next => exact Twin.throw

theorem parameters_twin (hd : descend.Twins omitted depth descend') (place : Place)
    (closer : Option Token.Kind) (hb : s.Beside omitted s') (hdepth : s'.ahead.length < depth) :
    ListTwin omitted (s'.ahead.length + 1) (parameters descend place closer)
      (parameters descend' place closer) s s' := by
  have hitem : ∀ s s', s.Beside omitted s' → s'.ahead.length < depth →
      TreeTwin omitted s'.ahead.length (parameter descend place) (parameter descend' place) s s' :=
    fun s s' hb h => parameter_twin hd place hb (Nat.le_of_lt h)
  have hlist : ListTwin omitted (s'.ahead.length + 1) (separated (parameter descend place) none)
      (separated (parameter descend' place) none) s s' :=
    (separated_twin hitem hb hdepth).mono (fun _ _ _ h => ⟨h.1, by omega⟩)
  unfold ListTwin parameters
  cases closer with
  | none => exact Twin.step rfl rfl hlist
  | some kind =>
    refine Twin.step rfl rfl ?_
    rw [hb.kind_eq]
    exact Twin.ite (fun _ => Twin.pure hb ⟨rfl, by omega⟩) (fun _ => hlist)

/-! ## arguments of a call -/

/-- The arguments have the same outlines, and less than so many tokens are left.  Nothing is said
about the offset where they end. -/
def SuppliedTwin (omitted : Nat → Bool) (n : Nat) (p p' : Parse (List Tree × Nat)) (s s' : Cursor) :
    Prop :=
  Twin omitted (fun r => Tree.AnySpoiled omitted r.1)
    (fun r r' s₁' => r.1.map (Tree.outline omitted) = r'.1.map Tree.bare ∧ s₁'.ahead.length < n)
    p p' s s'

/-- a command begins at both cursors or at neither; the token behind a label does not matter -/
theorem opensCommand_eq (hb : s.Beside omitted s') :
    opensCommand s'.current.kind (!s'.second.spaceBefore)
      = opensCommand s.current.kind (!s.second.spaceBefore) := by
  rw [hb.kind_eq]
  by_cases hlabel : ∃ name, s.current.kind = .label name
  · obtain ⟨name, hk⟩ := hlabel
    rw [hk]
    rfl
  · rw [(hb.second_like (fun name hk => hlabel ⟨name, hk⟩)).spaceBefore]

theorem callArguments_twin (hd : descend.Twins omitted depth descend') (stop stop' : Nat)
    (hb : s.Beside omitted s') (hdepth : s'.ahead.length < depth) :
    SuppliedTwin omitted (s'.ahead.length + 1) (callArguments descend stop)
      (callArguments descend' stop') s s' := by
  unfold SuppliedTwin callArguments
  refine Twin.step rfl rfl ?_
  rw [hb.kind_eq, hb.spaceBefore_eq]
  refine Twin.ite (fun hparen => ?_) (fun _ => ?_)
  · have hk : s.current.kind = .leftParen := by
      rw [Bool.and_eq_true, decide_eq_true_eq] at hparen
      exact hparen.1
    have hb₁ := hb.advance (by rw [hk]; simp)
    have hlen := hb.length_advance (by rw [hk]; simp)
    refine Twin.step rfl rfl (Twin.bind (arguments_twin hd .free _ hb₁ (by omega)) ?_ ?_)
    · exact fun args hspoiled => Returns.bind fun _ => Returns.pure hspoiled
    · rintro args args' s₂ s₂' hb₂ ⟨hargs, hlen₂⟩
      refine Twin.expect hb₂ fun hclose => ?_
      have hlen₃ := hb₂.length_advance (by rw [hclose]; simp)
      exact Twin.pure (hb₂.advance (by rw [hclose]; simp)) ⟨hargs, by omega⟩
  · refine Twin.step rfl rfl ?_
    rw [opensCommand_eq hb, hb.spaceBefore_eq, hb.newlineBefore_eq]
    refine Twin.ite (fun _ => ?_) (fun _ => Twin.pure hb ⟨rfl, by omega⟩)
    refine Twin.bind (arguments_twin hd .command none hb hdepth) ?_ ?_
    · exact fun args hspoiled => Returns.pure hspoiled
    · rintro args args' s₂ s₂' hb₂ hargs
      exact Twin.pure hb₂ hargs

/-! ## blocks -/

/-- the body of a block and its closing token, behind the parameters -/
theorem blockBody_twin (hd : descend.Twins omitted depth descend') {closer : Token.Kind}
    {wanted : String} {owner owner' : Tree} {params params' : List Tree} {n : Nat}
    (hcloser : ∀ name, closer ≠ .label name) (howner : owner.outline omitted = owner'.bare)
    (hparams : params.map (Tree.outline omitted) = params'.map Tree.bare)
    (hb : s.Beside omitted s') (hdepth : s'.ahead.length < depth) (hn : s'.ahead.length < n) :
    TreeTwin omitted n
      (do let body ← statements descend .free (fun kind => decide (kind = closer))
          let closing ← expect closer wanted
          return ⟨.block owner params body, owner.span.join closing.span⟩)
      (do let body ← statements descend' .free (fun kind => decide (kind = closer))
          let closing ← expect closer wanted
          return ⟨.block owner' params' body, owner'.span.join closing.span⟩) s s' := by
  refine Twin.bind (statements_twin hd .free _ hb hdepth) ?_ ?_
  · exact fun body hspoiled => Returns.bind fun closing =>
      Returns.pure (hspoiled.parent (by simp [Node.children]))
  · rintro body body' s₁ s₁' hb₁ ⟨hbody, hlen⟩
    refine Twin.expect hb₁ fun hclose => ?_
    have hle : s₁'.advance.ahead.length ≤ s₁'.ahead.length := s₁'.length_advance_le
    exact Twin.pure (hb₁.advance (by rw [hclose]; exact hcloser)) ⟨by simp [howner, hparams, hbody], by omega⟩

theorem blockBody_spoiled {closer : Token.Kind} {wanted : String} {owner : Tree} {params : List Tree}
    (h : Tree.AnySpoiled omitted (owner :: params)) :
    Returns
      (do let body ← statements descend .free (fun kind => decide (kind = closer))
          let closing ← expect closer wanted
          return ⟨.block owner params body, owner.span.join closing.span⟩) (Tree.Spoiled omitted) :=
  Returns.bind fun _ => Returns.bind fun _ =>
    Returns.pure (h.parent (List.cons_subset_cons _ (List.subset_append_left _ _)))

theorem blockRest_twin (hd : descend.Twins omitted depth descend') {closer : Token.Kind}
    {wanted : String} {owner owner' : Tree} {n : Nat} (hcloser : ∀ name, closer ≠ .label name)
    (howner : owner.outline omitted = owner'.bare) (hb : s.Beside omitted s')
    (hk : s.current.kind ≠ .eof) (hlabel : ∀ name, s.current.kind ≠ .label name)
    (hdepth : s'.ahead.length ≤ depth) (hn : s'.ahead.length < n) :
    TreeTwin omitted n (blockRest descend closer wanted owner) (blockRest descend' closer wanted owner')
      s s' := by
  have hb₁ := hb.advance hlabel
  have hlen := hb.length_advance hk
  unfold TreeTwin blockRest
  refine Twin.step rfl rfl (Twin.withinScope hb₁.locals (fun _ _ _ _ h => h) ?_)
  rw [if_neg (by simp), if_neg (by simp)]
  change Twin _ _ _ _ _ s.advance s'.advance
  refine Twin.eat hb₁ (fun hpipe => ?_) (fun _ => ?_)
  · have hb₂ := hb₁.advance (by rw [hpipe]; simp)
    have hlen₂ := hb₁.length_advance (by rw [hpipe]; simp)
    dsimp only
    rw [if_pos rfl, if_pos rfl]
    refine Twin.bind (parameters_twin hd .free (some .pipe) hb₂ (by omega)) ?_ ?_
    · exact fun params hspoiled => Returns.bind fun _ =>
        blockBody_spoiled (hspoiled.mono (List.subset_cons_self _ _))
    · rintro params params' s₃ s₃' hb₃ ⟨hparams, hlen₃⟩
      refine Twin.expect hb₃ fun hclose => ?_
      have hlen₄ := hb₃.length_advance (by rw [hclose]; simp)
      exact blockBody_twin hd hcloser howner hparams (hb₃.advance (by rw [hclose]; simp)) (by omega)
        (by omega)
  · exact blockBody_twin hd hcloser howner rfl hb₁ (by omega) (by omega)

theorem blockRest_spoiled {closer : Token.Kind} {wanted : String} {owner : Tree}
    (h : owner.Spoiled omitted) :
    Returns (blockRest descend closer wanted owner) (Tree.Spoiled omitted) := by
  have hbody {params : List Tree} := @blockBody_spoiled omitted descend closer wanted owner params
    ⟨owner, List.mem_cons_self, h⟩
  refine Returns.bind fun _ => Returns.withinScope (Returns.bind fun pipe => ?_)
  exact Returns.ite (Returns.bind fun params => Returns.bind fun _ => hbody) hbody

theorem block_twin (hd : descend.Twins omitted depth descend') (place : Place) {owner owner' : Tree}
    {n : Nat} (howner : owner.outline omitted = owner'.bare) (hb : s.Beside omitted s')
    (hdepth : s'.ahead.length ≤ depth) (hn : s'.ahead.length < n) :
    TreeTwin omitted n (block descend place owner) (block descend' place owner') s s' := by
  unfold TreeTwin block
  refine Twin.step rfl rfl ?_
  rw [hb.newlineBefore_eq, hb.kind_eq]
  refine Twin.ite (fun _ => Twin.pure hb ⟨howner, hn⟩) (fun _ => ?_)
  split
  next hk =>
    exact blockRest_twin hd (by simp) howner hb (by rw [hk]; simp) (by rw [hk]; simp) hdepth hn
  next hk =>
    exact blockRest_twin hd (by simp) howner hb (by rw [hk]; simp) (by rw [hk]; simp) hdepth hn
  next => exact Twin.pure hb ⟨howner, hn⟩

theorem block_spoiled (place : Place) {owner : Tree} (h : owner.Spoiled omitted) :
    Returns (block descend place owner) (Tree.Spoiled omitted) := by
  refine Returns.bind fun token => Returns.ite (Returns.pure h) ?_
  split
  · exact blockRest_spoiled h
  · exact blockRest_spoiled h
  · exact Returns.pure h

/-! ## calls -/

theorem call_twin (hd : descend.Twins omitted depth descend') (place : Place)
    {receiver receiver' : Option Tree} {method : Text} {selector selector' : Span}
    (hreceiver : receiver.map (Tree.outline omitted) = receiver'.map Tree.bare)
    (hb : s.Beside omitted s') (hdepth : s'.ahead.length < depth) :
    TreeTwin omitted (s'.ahead.length + 1) (call descend place receiver method selector)
      (call descend' place receiver' method selector') s s' := by
  unfold TreeTwin call
  refine Twin.bind (callArguments_twin hd selector.stop selector'.stop hb hdepth) ?_ ?_
  · rintro ⟨args, stop⟩ hspoiled
    exact block_spoiled place (hspoiled.parent (by simp [Node.children]))
  · rintro ⟨args, stop⟩ ⟨args', stop'⟩ s₁ s₁' hb₁ ⟨hargs, hlen⟩
    change args.map _ = args'.map _ at hargs
    exact block_twin hd place (by simp [hreceiver, hargs]) hb₁ (by omega) hlen

theorem call_spoiled (place : Place) {receiver : Tree} {method : Text} {selector : Span}
    (h : receiver.Spoiled omitted) :
    Returns (call descend place (some receiver) method selector) (Tree.Spoiled omitted) :=
  Returns.bind fun r => block_spoiled place (.child (by simp [Node.children]) h)

end Parse

end Collate
