import Collate.Proofs.Grammar.Argument
import Collate.Proofs.Twin.Loops

/-!
# Arguments of two runs

A label whose value is left out is the one place where the runs take different tokens:
the first run reads the name behind the label, and the second one sees that the label has no value.
-/

namespace Collate

/-! ## runs of pairs -/

/-- the argument without spans, and without the values of the labels at the offsets -/
def Argument.outline (omitted : Nat → Bool) : Argument → Argument
  | .positional tree => .positional (tree.outline omitted)
  | .element tree => .element (tree.outline omitted)

/-- the argument without spans -/
def Argument.bare (arg : Argument) : Argument :=
  arg.outline (fun _ => false)

section
variable {omitted : Nat → Bool}

theorem runLiteral_outline {run run' : List Tree}
    (h : run.map (Tree.outline omitted) = run'.map Tree.bare) :
    (runLiteral run).map (Tree.outline omitted) = (runLiteral run').map Tree.bare := by
  cases run with
  | nil =>
    cases run' with
    | nil => rfl
    | cons first' rest' => exact nomatch h
  | cons first rest =>
    cases run' with
    | nil => exact nomatch h
    | cons first' rest' =>
      rw [runLiteral, runLiteral, List.map_singleton, List.map_singleton]
      simp only [Tree.outline_mk, Tree.bare_mk, Node.outline, outlineAll_eq, h, Tree.outline_false]

theorem gatherRuns_outline (args : List Argument) :
    ∀ {run run' : List Tree} {args' : List Argument},
      run.map (Tree.outline omitted) = run'.map Tree.bare →
      args.map (Argument.outline omitted) = args'.map Argument.bare →
      (gatherRuns run args).map (Tree.outline omitted) = (gatherRuns run' args').map Tree.bare := by
  induction args with
  | nil =>
    intro run run' args' hrun hargs
    obtain rfl := List.map_eq_nil_iff.mp hargs.symm
    exact runLiteral_outline hrun
  | cons arg args ih =>
    intro run run' args' hrun hargs
    obtain ⟨arg', args', rfl, harg, hrest⟩ := List.map_eq_cons_iff.mp hargs.symm
    cases arg with
    | element tree =>
      cases arg' with
      | element tree' =>
        have htree : tree'.bare = tree.outline omitted := Argument.element.inj harg
        refine @ih (run ++ [tree]) (run' ++ [tree']) args' ?_ hrest.symm
        rw [List.map_append, List.map_append, hrun, List.map_singleton, List.map_singleton, htree]
      | positional tree' => exact nomatch harg
    | positional tree =>
      cases arg' with
      | element tree' => exact nomatch harg
      | positional tree' =>
        have htree : tree'.bare = tree.outline omitted := Argument.positional.inj harg
        have hbehind := @ih [] [] args' rfl hrest.symm
        rw [gatherRuns, gatherRuns, List.map_append, List.map_append, runLiteral_outline hrun,
          List.map_cons, List.map_cons, htree, hbehind]

theorem runLiteral_spoiled {run : List Tree} (h : Tree.AnySpoiled omitted run) :
    Tree.AnySpoiled omitted (runLiteral run) := by
  cases run with
  | nil => exact h
  | cons first rest => exact ⟨_, List.mem_singleton_self _, h.parent (List.Subset.refl _)⟩

/-- what is spoiled among the arguments is so in one of the trees they become -/
theorem gatherRuns_spoiled (args : List Argument) : ∀ {run : List Tree},
    Tree.AnySpoiled omitted (run ++ args.map Argument.tree) →
      Tree.AnySpoiled omitted (gatherRuns run args) := by
  induction args with
  | nil =>
    intro run h
    rw [List.map_nil, List.append_nil] at h
    exact runLiteral_spoiled h
  | cons arg args ih =>
    intro run h
    cases arg with
    | element tree =>
      refine ih ?_
      rw [List.append_assoc]
      exact h
    | positional tree =>
      obtain ⟨spoiled, hmem, hspoiled⟩ := h
      rcases List.mem_append.mp hmem with hmem | hmem
      · exact (runLiteral_spoiled ⟨spoiled, hmem, hspoiled⟩).mono (List.subset_append_left _ _)
      · rcases List.mem_cons.mp hmem with rfl | hmem
        · exact ⟨_, List.mem_append_right _ List.mem_cons_self, hspoiled⟩
        · have hrest := @ih [] ⟨spoiled, hmem, hspoiled⟩
          refine hrest.mono (List.Subset.trans ?_ (List.subset_append_right _ _))
          exact List.subset_cons_self _ _

end

namespace Parse
open Cursor
variable {omitted : Nat → Bool} {descend descend' : Descent} {depth : Nat} {s s' : Cursor}

/-! ## pairs -/

theorem skippedPair_twin (hd : descend.Twins omitted depth descend') (place : Place) {key key' : Tree}
    {span : Tree → Span} {span' : Span} {n : Nat} (hkey : key.outline omitted = key'.bare)
    (hat : omitted key.span.start = true) (hbeside : s.advance.Beside omitted s')
    (hn : s'.ahead.length < n) :
    TreeTwin omitted n
      (do let value ← descend .expression place; return ⟨.pair key (some value) true, span value⟩)
      (return ⟨.pair key' none true, span'⟩) s s' := by
  intro tree s₁ hrun
  obtain ⟨value, s₂, hvalue, hrest⟩ := bind_eq_ok_iff.mp hrun
  obtain ⟨rfl, rfl⟩ := Prod.mk.inj (Except.ok.inj hrest)
  by_cases hvar : ∃ name, value.node = .localVariable name
  · obtain ⟨name, hname⟩ := hvar
    obtain rfl := hd.variable_alone place s value s₂ name hvalue hname
    exact .inr ⟨_, s', rfl, hbeside, by simp [hat, hkey], hn⟩
  · exact .inl (.pair hat (fun name hname => hvar ⟨name, hname⟩))

theorem labelPair_twin (hd : descend.Twins omitted depth descend') (place : Place)
    (hb : s.Beside omitted s') (hdepth : s'.ahead.length ≤ depth) :
    TreeTwin omitted s'.ahead.length (labelPair descend place) (labelPair descend' place) s s' := by
  unfold TreeTwin labelPair
  refine Twin.step rfl rfl ?_
  rw [hb.kind_eq]
  split
  next name hk =>
    have hlen := hb.length_advance (by rw [hk]; simp)
    refine Twin.step rfl rfl ?_
    rcases hb.advance_label hk with ⟨hb', hkept⟩ | ⟨hb', hat, hvalue, hline, hnext⟩
    · rw [hb'.newlineBefore_eq, hb'.kind_eq]
      refine Twin.ite (fun _ => ?_) (fun _ => ?_)
      · exact Twin.pure hb' ⟨by simp, hlen⟩
      · refine Twin.bind (hd.reads .expression place _ _ hb' (by omega) (by simp)) ?_ ?_
        · exact fun value hspoiled => Returns.pure (.child (by simp [Node.children]) hspoiled)
        · rintro value value' s₁ s₁' hb₁ ⟨hvalue, hlen'⟩
          exact Twin.pure hb₁ ⟨by simp [Tree.span, hkept, hvalue], by omega⟩
    · rw [if_neg (by rw [hline, hvalue]; simp [endsLabel]), if_pos hnext]
      exact skippedPair_twin hd place (by simp) hat hb' hlen
  next => exact Twin.throw

theorem arrowPair_twin (hd : descend.Twins omitted depth descend') (place : Place) {key key' : Tree}
    (hkey : key.outline omitted = key'.bare) (hb : s.Beside omitted s')
    (hdepth : s'.ahead.length ≤ depth) :
    TreeTwin omitted s'.ahead.length (arrowPair descend place key) (arrowPair descend' place key')
      s s' := by
  unfold TreeTwin arrowPair
  refine Twin.expect hb fun hk => ?_
  have hb₁ := hb.advance (by rw [hk]; simp)
  have hlen := hb.length_advance (by rw [hk]; simp)
  refine Twin.bind (hd.reads .expression place _ _ hb₁ (by omega) (by simp)) ?_ ?_
  · exact fun value hspoiled => Returns.pure (.child (by simp [Node.children]) hspoiled)
  · rintro value value' s₂ s₂' hb₂ ⟨hvalue, hlen₂⟩
    exact Twin.pure hb₂ ⟨by simp [hkey, hvalue], by omega⟩

theorem arrowPair_spoiled (place : Place) {key : Tree} (hspoiled : key.Spoiled omitted) :
    Returns (arrowPair descend place key) (Tree.Spoiled omitted) :=
  Returns.bind fun _ => Returns.bind fun _ =>
    Returns.pure (.child (by simp [Node.children]) hspoiled)

theorem marked_twin (hd : descend.Twins omitted depth descend') (place : Place)
    {build : Tree → Node Tree} (hchildren : ∀ tree, (build tree).children = [tree])
    (hbuild : ∀ tree tree' : Tree, tree.outline omitted = tree'.bare →
      (build tree).outline omitted = (build tree').outline (fun _ => false))
    (hb : s.Beside omitted s') (hk : s.current.kind ≠ .eof)
    (hlabel : ∀ name, s.current.kind ≠ .label name) (hdepth : s'.ahead.length ≤ depth) :
    TreeTwin omitted s'.ahead.length (marked descend place build) (marked descend' place build) s s' := by
  have hb₁ := hb.advance hlabel
  have hlen := hb.length_advance hk
  unfold TreeTwin marked
  refine Twin.step rfl rfl (Twin.bind (hd.reads .expression place _ _ hb₁ (by omega) (by simp)) ?_ ?_)
  · exact fun value hspoiled => Returns.pure (.child (by rw [hchildren]; simp) hspoiled)
  · rintro value value' s₂ s₂' hb₂ ⟨hvalue, hlen₂⟩
    exact Twin.pure hb₂ ⟨by simp [hbuild value value' hvalue], by omega⟩

/-! ## argument lists -/

/-- the arguments have the same outline, and a token was taken -/
def ArgumentTwin (omitted : Nat → Bool) (p p' : Parse Argument) (s s' : Cursor) : Prop :=
  Twin omitted (fun arg => arg.tree.Spoiled omitted)
    (fun a b s₁' => a.outline omitted = b.bare ∧ s₁'.ahead.length < s'.ahead.length) p p' s s'

theorem ArgumentTwin.of_tree {p p' : Parse Tree} {arg : Tree → Argument}
    (harg : arg = .positional ∨ arg = .element)
    (h : TreeTwin omitted s'.ahead.length p p' s s') :
    ArgumentTwin omitted (do return arg (← p)) (do return arg (← p')) s s' := by
  refine Twin.bind h ?_ ?_
  · intro tree hspoiled
    rcases harg with rfl | rfl <;> exact Returns.pure hspoiled
  · rintro tree tree' s₁ s₁' hb ⟨htree, hlen⟩
    refine Twin.pure hb ⟨?_, hlen⟩
    rcases harg with rfl | rfl <;> simp [Argument.bare, Argument.outline, htree]

theorem argument_twin (hd : descend.Twins omitted depth descend') (place : Place)
    (hb : s.Beside omitted s') (hdepth : s'.ahead.length < depth) :
    ArgumentTwin omitted (argument descend place) (argument descend' place) s s' := by
  have hle : s'.ahead.length ≤ depth := Nat.le_of_lt hdepth
  unfold ArgumentTwin argument
  refine Twin.step rfl rfl ?_
  rw [hb.kind_eq]
  split
  next hk =>
    exact ArgumentTwin.of_tree (.inl rfl) (marked_twin hd place (fun _ => rfl) (by intros; simp [*]) hb
      (by rw [hk]; simp) (by rw [hk]; simp) hle)
  next hk =>
    exact ArgumentTwin.of_tree (.inr rfl) (marked_twin hd place (fun _ => rfl) (by intros; simp [*]) hb
      (by rw [hk]; simp) (by rw [hk]; simp) hle)
  next hk =>
    exact ArgumentTwin.of_tree (.inl rfl) (marked_twin hd place (fun _ => rfl) (by intros; simp [*]) hb
      (by rw [hk]; simp) (by rw [hk]; simp) hle)
  next => exact ArgumentTwin.of_tree (.inr rfl) (labelPair_twin hd place hb hle)
  next =>
    refine Twin.bind (hd.reads .expression place s s' hb hdepth (by simp)) ?_ ?_
    · intro key hspoiled
      refine Returns.bind fun arrow => Returns.ite ?_ (Returns.pure hspoiled)
      intro s₁ arg s₂ hrun
      obtain ⟨tree, s₃, harrow, hrest⟩ := bind_eq_ok_iff.mp hrun
      obtain ⟨rfl, -⟩ := Prod.mk.inj (Except.ok.inj hrest)
      exact arrowPair_spoiled place hspoiled s₁ tree s₃ harrow
    · rintro key key' s₁ s₁' hb₁ ⟨hkey, hlen⟩
      refine Twin.step rfl rfl ?_
      rw [hb₁.kind_eq]
      refine Twin.ite (fun _ => ?_) (fun _ => ?_)
      · refine (ArgumentTwin.of_tree (.inr rfl) (arrowPair_twin hd place hkey hb₁ (by omega))).mono ?_
        exact fun _ _ _ h => ⟨h.1, by omega⟩
      · exact Twin.pure hb₁ ⟨by simp [Argument.bare, Argument.outline, hkey], hlen⟩

theorem separatedArguments_twin (hd : descend.Twins omitted depth descend') (place : Place)
    (closer : Option Token.Kind) (hb : s.Beside omitted s') (hdepth : s'.ahead.length < depth) :
    ListTwin omitted s'.ahead.length
      (do return gatherRuns [] (← separated (argument descend place) closer))
      (do return gatherRuns [] (← separated (argument descend' place) closer)) s s' := by
  refine Twin.bind (separated_twin (fun s s' hb h => argument_twin hd place hb h) hb hdepth) ?_ ?_
  · rintro args ⟨arg, hmem, hspoiled⟩
    exact Returns.pure (gatherRuns_spoiled args ⟨_, List.mem_map_of_mem hmem, hspoiled⟩)
  · rintro args args' s₁ s₁' hb₁ ⟨hargs, hlen⟩
    exact Twin.pure hb₁ ⟨gatherRuns_outline args rfl hargs, hlen⟩

theorem arguments_twin (hd : descend.Twins omitted depth descend') (place : Place)
    (closer : Option Token.Kind) (hb : s.Beside omitted s') (hdepth : s'.ahead.length < depth) :
    ListTwin omitted (s'.ahead.length + 1) (arguments descend place closer)
      (arguments descend' place closer) s s' := by
  have hlist : ListTwin omitted (s'.ahead.length + 1)
      (do return gatherRuns [] (← separated (argument descend place) closer))
      (do return gatherRuns [] (← separated (argument descend' place) closer)) s s' :=
    (separatedArguments_twin hd place closer hb hdepth).mono (fun _ _ _ h => ⟨h.1, by omega⟩)
  unfold ListTwin arguments
  cases closer with
  | none => exact Twin.step rfl rfl hlist
  | some kind =>
    refine Twin.step rfl rfl ?_
    rw [hb.kind_eq]
    refine Twin.ite (fun _ => ?_) (fun _ => hlist)
    exact Twin.pure hb ⟨rfl, by omega⟩

/-! ## literals between braces -/

theorem bracedElement_twin (hd : descend.Twins omitted depth descend') (hb : s.Beside omitted s')
    (hdepth : s'.ahead.length < depth) :
    TreeTwin omitted s'.ahead.length (bracedElement descend) (bracedElement descend') s s' := by
  have hle : s'.ahead.length ≤ depth := Nat.le_of_lt hdepth
  unfold TreeTwin bracedElement
  refine Twin.step rfl rfl ?_
  rw [hb.kind_eq]
  split
  next => exact labelPair_twin hd .free hb hle
  next hk =>
    exact marked_twin hd .free (fun _ => rfl) (by intros; simp [*]) hb (by rw [hk]; simp)
      (by rw [hk]; simp) hle
  next =>
    refine Twin.bind (hd.reads .expression .free s s' hb hdepth (by simp)) ?_ ?_
    · intro key hspoiled
      exact Returns.bind fun arrow => Returns.ite (arrowPair_spoiled .free hspoiled) Returns.failHere
    · rintro key key' s₁ s₁' hb₁ ⟨hkey, hlen⟩
      refine Twin.step rfl rfl ?_
      rw [hb₁.kind_eq]
      refine Twin.ite (fun _ => ?_) (fun _ => Twin.failHere)
      exact (arrowPair_twin hd .free hkey hb₁ (by omega)).mono (fun _ _ _ h => ⟨h.1, by omega⟩)

theorem bracedRest_twin {opening opening' : Span} {elements elements' : List Tree} {n : Nat}
    (helements : elements.map (Tree.outline omitted) = elements'.map Tree.bare)
    (hb : s.Beside omitted s') (hn : s'.ahead.length < n) :
    TreeTwin omitted n
      (do let closing ← expect .rightBrace "`\x7d`"
          return ⟨.literal (some ⟨opening, closing.span⟩) elements, opening.join closing.span⟩)
      (do let closing ← expect .rightBrace "`\x7d`"
          return ⟨.literal (some ⟨opening', closing.span⟩) elements', opening'.join closing.span⟩)
      s s' := by
  refine Twin.expect hb fun hclose => ?_
  have hb₁ := hb.advance (by rw [hclose]; simp)
  have hlen := hb.length_advance (by rw [hclose]; simp)
  exact Twin.pure hb₁ ⟨by simp [helements], by omega⟩

theorem braced_twin (hd : descend.Twins omitted depth descend') (hb : s.Beside omitted s')
    (hk : s.current.kind = .leftBrace) (hdepth : s'.ahead.length ≤ depth) :
    TreeTwin omitted s'.ahead.length (braced descend) (braced descend') s s' := by
  have hb₁ := hb.advance (by rw [hk]; simp)
  have hlen := hb.length_advance (by rw [hk]; simp)
  unfold TreeTwin braced
  refine Twin.step rfl rfl (Twin.step rfl rfl ?_)
  rw [hb₁.kind_eq]
  refine Twin.ite (fun _ => ?_) (fun _ => ?_)
  · exact Twin.step rfl rfl (bracedRest_twin rfl hb₁ hlen)
  · refine Twin.bind (separated_twin (fun s s' hb h => bracedElement_twin hd hb h) hb₁ (by omega)) ?_ ?_
    · intro elements hspoiled
      exact Returns.bind fun closing =>
        Returns.pure (Tree.AnySpoiled.parent hspoiled (List.Subset.refl _))
    · rintro elements elements' s₂ s₂' hb₂ ⟨helements, hlen₂⟩
      exact bracedRest_twin helements hb₂ (by omega)

end Parse

end Collate
