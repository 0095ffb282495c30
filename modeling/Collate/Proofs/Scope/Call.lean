import Collate.Proofs.Scope.Argument

/-!
# Names through parameters, calls and blocks

A parameter comes in sight behind its default value.  The parameters and the body of a block see the
names around it, and what they bring in sight is forgotten at its end; the call that the block is
attached to is read outside of it.
-/

namespace Collate

namespace Parse
open Cursor
variable {t : Text} {descend : Descent} {depth : Nat} {s s₀ : Cursor}

/-! ## parameters -/

/-- a parameter over tokens that were taken, which then comes in sight -/
theorem namedParameter_scans {kind : ParameterKind} {name : Text} {fallback : Option Tree} {span : Span}
    (hpasses : s₀.Passes s) (hresolved : Tree.ResolvedAll t s₀.locals fallback.toList s.locals)
    (hcovered : s₀.Covers t s (fun held place =>
      (Node.parameter kind (some name) fallback).Owns t span held place ∨
        Tree.AnyOwns t fallback.toList held place)) :
    Outcome (namedParameter kind name fallback span) s (fun tree => Scans t s₀ [tree]) ReadError.Any := by
  unfold namedParameter
  rw [outcome_bind, outcome_declare]
  exact Scans.plain (hpasses.trans (passes_locals s _)) rfl trivial hresolved rfl hcovered

theorem restParameter_scans (kind : ParameterKind) (hs : s.Valid t)
    (hk : s.current.kind ≠ .eof ∧ ∀ name, s.current.kind ≠ .ident name) :
    Outcome (restParameter kind s.current) s.advance (fun tree => Scans t s [tree]) ReadError.Any := by
  have hsign := Scans.mark hs hk
  have hs' := hsign.passes.valid hs
  unfold restParameter
  rw [outcome_bind, outcome_current]
  split
  next name hnext _ =>
    have ht := takes_advance hs' (by simp [hnext])
    rw [outcome_bind, outcome_advance]
    refine namedParameter_scans (hsign.passes.trans ht.passes) (.nil _) ?_
    refine (hsign.covered.mono fun _ _ => .inr).trans (hs'.covers_advance (by simp [hnext]) ?_)
    intro held hheld
    exact .inr (.inl ⟨Token.Kind.ident.inj (hnext.symm.trans hheld), .inr ⟨rfl, rfl⟩⟩)
  next hnext _ =>
    rw [outcome_bind, outcome_advance]
    exact Scans.wrap (hsign.append (Scans.mark hs' (by simp [hnext]))) rfl trivial rfl rfl
  next => exact Scans.wrap hsign rfl trivial rfl rfl

theorem parameter_tracks (hd : descend.Tracks t depth) (place : Place) (hs : s.Valid t)
    (hdepth : s.ahead.length ≤ depth) : TracksTree t (parameter descend place) s := by
  refine (parameter_reads hd.sound place hs hdepth).and ?_
  unfold parameter
  rw [outcome_bind, outcome_advance]
  split
  next name hk =>
    have ht := takes_advance hs (by simp [hk])
    have hs' := ht.valid hs
    have hlt := ht.length_lt
    -- the identifier is the name of the parameter, whatever its default value and its end
    have hname {kind : ParameterKind} {fallback : Option Tree} {stop : Nat} :
        s.Covers t s.advance (fun held place =>
          (Node.parameter kind (some name) fallback).Owns t ⟨s.current.span.start, stop⟩ held place ∨
            Tree.AnyOwns t fallback.toList held place) :=
      hs.covers_advance (by simp [hk]) fun held hheld =>
        .inr (.inl ⟨Token.Kind.ident.inj (hk.symm.trans hheld), .inl rfl⟩)
    rw [outcome_bind, outcome_eat]
    split
    next heq =>
      have hassign := Scans.mark hs' (by simp [heq])
      have hlen := hassign.passes.length_le
      refine (hd.reads .expression place (hassign.passes.valid hs') (by omega) (by simp)).bind ?_
      rintro fallback s' ⟨-, hfallback⟩
      have hall := hassign.append hfallback
      exact namedParameter_scans (ht.passes.trans hall.passes) hall.resolved
        (hname.trans (hall.covered.mono fun _ _ => .inr))
    next => exact namedParameter_scans ht.passes (.nil _) hname
  next name hk =>
    have hlabel := Scans.mark hs (by simp [hk])
    have hlt := (takes_advance hs (by simp [hk])).length_lt
    rw [outcome_bind, outcome_valueOmitted]
    split
    next =>
      exact namedParameter_scans hlabel.passes (.nil _) (hlabel.covered.mono fun _ _ => .inr)
    next =>
      refine (hd.reads .expression place (hlabel.passes.valid hs) (by omega) (by simp)).bind ?_
      rintro fallback s' ⟨-, hfallback⟩
      have hall := hlabel.append hfallback
      exact namedParameter_scans hall.passes hall.resolved (hall.covered.mono fun _ _ => .inr)
  next hk => exact restParameter_scans .rest hs (by simp [hk])
  next hk => exact restParameter_scans .keywordRest hs (by simp [hk])
  next hk => exact restParameter_scans .block hs (by simp [hk])
  next => trivial

theorem parameters_scans (hd : descend.Tracks t depth) (place : Place) (closer : Option Token.Kind)
    (hs : s.Valid t) (hdepth : s.ahead.length < depth) :
    Outcome (parameters descend place closer) s (Scans t s) ReadError.Any := by
  have hall : Outcome (separated (parameter descend place) none) s (Scans t s) ReadError.Any := by
    refine (separated_scans id (fun s hs h => parameter_tracks hd place hs (Nat.le_of_lt h)) hs
      hdepth).mono ?_
    intro params s' h
    rw [List.map_id] at h
    exact h
  unfold parameters
  exact Outcome.unlessClosed closer (Scans.nil s) hall

/-! ## arguments of a call -/

theorem callArguments_scans (hd : descend.Tracks t depth) (stop : Nat) (hs : s.Valid t)
    (hdepth : s.ahead.length < depth) :
    Outcome (callArguments descend stop) s (fun r => Scans t s r.1) ReadError.Any := by
  unfold callArguments
  rw [outcome_bind, outcome_tightParen]
  split
  next hparen =>
    have hk : s.current.kind = .leftParen := by
      simp only [Bool.and_eq_true, decide_eq_true_eq] at hparen
      exact hparen.1
    have hopening := Scans.mark hs (by simp [hk])
    have hs' := hopening.passes.valid hs
    have hlen := hopening.passes.length_le
    rw [outcome_bind, outcome_advance]
    refine (arguments_scans hd .free (some .rightParen) hs' (by omega)).bind ?_
    intro args s' hargs
    rw [outcome_bind, outcome_expect]
    split
    next hclose =>
      have hall := hargs.append (Scans.mark (hargs.passes.valid hs') (by simp [hclose]))
      rw [List.append_nil] at hall
      exact hopening.append hall
    next => trivial
  next =>
    rw [outcome_bind, outcome_startsCommand]
    split
    next =>
      refine (arguments_scans hd .command none hs hdepth).bind ?_
      intro args s' hargs
      exact hargs
    next => exact Scans.nil s

/-! ## blocks -/

/-- the body of a block and its closing token, behind the parameters -/
theorem blockBody_scans (hd : descend.Tracks t depth) {closer : Token.Kind} {wanted : String}
    {owner : Tree} {params : List Tree} {mid : Cursor}
    (hcloser : closer ≠ .eof ∧ ∀ name, closer ≠ .ident name) (hmid : mid.Valid t)
    (howner : Scans t s₀ [owner] mid) (hparams : Scans t mid params s) (hdepth : s.ahead.length < depth) :
    Outcome (do
        let body ← statements descend .free (fun kind => decide (kind = closer))
        let closing ← expect closer wanted
        return ⟨.block owner params body, owner.span.join closing.span⟩)
      s (fun tree s' => Scans t s₀ [tree] { s' with locals := mid.locals }) ReadError.Any := by
  have hs := hparams.passes.valid hmid
  refine (statements_scans hd .free _ hs hdepth).bind ?_
  intro body s' hbody
  rw [outcome_bind, outcome_expect]
  split
  next hclose =>
    have hclosing := Scans.mark (hbody.passes.valid hs) (by rw [hclose]; exact hcloser)
    have hinner := hparams.append (hbody.append hclosing)
    rw [List.append_nil] at hinner
    exact Scans.scope rfl howner.passes howner.resolved (howner.covered.mono fun _ _ => .inr) hinner
  next => trivial

theorem blockRest_scans (hd : descend.Tracks t depth) {closer : Token.Kind} {wanted : String}
    {owner : Tree} (hcloser : closer ≠ .eof ∧ ∀ name, closer ≠ .ident name) (hs : s.Valid t)
    (howner : Scans t s₀ [owner] s) (hk : s.current.kind ≠ .eof ∧ ∀ name, s.current.kind ≠ .ident name)
    (hdepth : s.ahead.length ≤ depth) :
    Outcome (blockRest descend closer wanted owner) s (fun tree => Scans t s₀ [tree]) ReadError.Any := by
  have hopening := Scans.mark hs hk
  have hs' := hopening.passes.valid hs
  have hlt := (takes_advance hs hk.1).length_lt
  unfold blockRest
  rw [outcome_bind, outcome_advance, outcome_withinScope, if_neg (by simp)]
  change Outcome _ s.advance (fun tree s' => Scans t s₀ [tree] { s' with locals := s.locals }) _
  rw [outcome_bind, outcome_eat]
  split
  next hpipe =>
    have hpipe := Scans.mark hs' (by simp [hpipe])
    have hs'' := hpipe.passes.valid hs'
    have hlen := hpipe.passes.length_le
    dsimp only
    rw [if_pos rfl]
    refine (parameters_scans hd .free (some .pipe) hs'' (by omega)).bind ?_
    intro params s' hparams
    rw [outcome_bind, outcome_expect]
    split
    next hclose =>
      have hclosing := Scans.mark (hparams.passes.valid hs'') (by simp [hclose])
      have hall := (hopening.append hpipe).append (hparams.append hclosing)
      rw [List.append_nil, List.append_nil, List.nil_append] at hall
      have hlen' := hparams.passes.length_le
      have hlen'' := hclosing.passes.length_le
      exact blockBody_scans hd hcloser hs howner hall (by omega)
    next => trivial
  next => exact blockBody_scans hd hcloser hs howner hopening (by omega)

theorem block_scans (hd : descend.Tracks t depth) (place : Place) {owner : Tree} (hs : s.Valid t)
    (howner : Scans t s₀ [owner] s) (hdepth : s.ahead.length ≤ depth) :
    Outcome (block descend place owner) s (fun tree => Scans t s₀ [tree]) ReadError.Any := by
  unfold block
  rw [outcome_bind, outcome_current]
  split
  next => exact howner
  next =>
    split
    next hk => exact blockRest_scans hd (by simp) hs howner (by simp [hk]) hdepth
    next hk => exact blockRest_scans hd (by simp) hs howner (by simp [hk]) hdepth
    next => exact howner

/-! ## calls -/

/-- a call behind its method name, which was taken with the receiver in front of it -/
theorem call_scans (hd : descend.Tracks t depth) (place : Place) {receiver : Option Tree}
    {method : Text} {selector : Span} (hs : s.Valid t) (hpasses : s₀.Passes s)
    (hresolved : Tree.ResolvedAll t s₀.locals receiver.toList s.locals)
    (hsettled : ∀ args stop, (Node.call receiver method selector args).Settled t Tree.span
      ⟨(receiver.map (·.span.start)).getD selector.start, stop⟩ s₀.locals)
    (hcovered : s₀.Covers t s (fun name place =>
      (receiver = none ∧ method = name ∧ selector = place) ∨ Tree.AnyOwns t receiver.toList name place))
    (hdepth : s.ahead.length < depth) :
    Outcome (call descend place receiver method selector) s (fun tree => Scans t s₀ [tree])
      ReadError.Any := by
  unfold call
  dsimp only
  refine (callArguments_scans hd selector.stop hs hdepth).bind ?_
  rintro ⟨args, stop⟩ s' hargs
  change Scans t s args s' at hargs
  have hlen := hargs.passes.length_le
  refine block_scans hd place (hargs.passes.valid hs) ?_ (by omega)
  refine Scans.plain (hpasses.trans hargs.passes) rfl (hsettled _ _) (hresolved.append hargs.resolved) rfl ?_
  refine (hcovered.mono ?_).trans
    (hargs.covered.mono fun _ _ howns => .inr (howns.mono (List.subset_append_right _ _)))
  rintro name place (⟨rfl, howns⟩ | howns)
  · exact .inl howns
  · exact .inr (howns.mono (List.subset_append_left _ _))

end Parse

end Collate
