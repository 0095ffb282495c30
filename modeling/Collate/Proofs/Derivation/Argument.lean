import Collate.Proofs.Derivation.Loops

/-!
# The forms of arguments, literals and parameters

What stands between commas has its form, given that the phrases inside it have: pairs, argument lists with
their runs gathered, literals between braces, and parameters.
-/

namespace Collate

namespace Parse
open Cursor
variable {t : Text} {descend : Descent} {place : Place} {s : Cursor}

/-! ## pairs -/

theorem labelPair_derives (hd : descend.Derives t) (hs : s.Valid t) :
    Outcome (labelPair descend place) s
      (fun tree s' => Reads place s tree s' ∧ tree.isElement = true) ReadError.Any := by
  unfold labelPair
  rw [outcome_bind, outcome_advance]
  split
  next name hk =>
    have hne : s.current.kind ≠ .eof := by simp [hk]
    have hlabel := spells_advance hs hne
    have htakes := takes_advance hs hne
    rw [outcome_bind, outcome_valueOmitted]
    split
    next => exact ⟨hlabel.reads htakes (.label hk), rfl⟩
    next =>
      refine (hd .expression place _ (hlabel.passes.valid hs) (by simp)).bind ?_
      intro value s' hvalue
      have hall := htakes.trans hvalue.takes
      obtain ⟨tokens, hvalue⟩ := hvalue
      exact ⟨(hlabel.append hvalue).reads hall (.labelled hk tokens value), rfl⟩
  next => trivial

theorem arrowPair_derives (hd : descend.Derives t) {key : Tree} {s' : Cursor} (hs : s.Valid t)
    (hkey : Reads place s key s') :
    Outcome (arrowPair descend place key) s'
      (fun tree s'' => Reads place s tree s'' ∧ tree.isElement = true) ReadError.Any := by
  have hs' := hkey.takes.valid hs
  unfold arrowPair
  rw [outcome_bind, outcome_expect]
  split
  next hk =>
    have hmark := spells_advance hs' (by simp [hk])
    refine (hd .expression place _ (hmark.passes.valid hs') (by simp)).bind ?_
    intro value s'' hvalue
    have hall := hkey.takes.joined hs hmark.passes hvalue.takes
    obtain ⟨front, hkey⟩ := hkey
    obtain ⟨tokens, hvalue⟩ := hvalue
    exact ⟨(hkey.append (hmark.append hvalue)).reads hall (.arrow hk front key tokens value), rfl⟩
  next => trivial

theorem marked_derives (hd : descend.Derives t) {build : Tree → Node Tree} (hs : s.Valid t)
    (hk : s.current.kind ≠ .eof)
    (hform : ∀ tokens value, Form place (build value) [.own s.current, .part place tokens value]) :
    Outcome (marked descend place build) s
      (fun tree s' => Reads place s tree s' ∧ ∃ value, tree.node = build value) ReadError.Any := by
  have hmark := spells_advance hs hk
  unfold marked
  rw [outcome_bind, outcome_advance]
  refine (hd .expression place _ (hmark.passes.valid hs) (by simp)).bind ?_
  intro value s' hvalue
  have hall := (takes_advance hs hk).joined hs (Passes.refl _) hvalue.takes
  obtain ⟨tokens, hvalue⟩ := hvalue
  exact ⟨(hmark.append hvalue).reads hall (hform tokens value), value, rfl⟩

theorem doubleSplat_derives (hd : descend.Derives t) (hs : s.Valid t)
    (hk : s.current.kind = .doubleStar) :
    Outcome (marked descend place .doubleSplat) s
      (fun tree s' => Reads place s tree s' ∧ tree.isElement = true) ReadError.Any := by
  refine (marked_derives hd hs (by simp [hk]) fun tokens value => .doubleSplat hk tokens value).mono ?_
  rintro tree s' ⟨htree, value, hnode⟩
  exact ⟨htree, by rw [Tree.isElement, hnode]⟩

/-! ## argument lists -/

theorem argument_derives (hd : descend.Derives t) (hs : s.Valid t) :
    Outcome (argument descend place) s (fun arg s' => Reads place s arg.tree s' ∧
      ∀ tree, arg = .element tree → tree.isElement = true) ReadError.Any := by
  have hpositional {p : Parse Tree} {P : Tree → Prop}
      (h : Outcome p s (fun tree s' => Reads place s tree s' ∧ P tree) ReadError.Any) :
      Outcome (do return Argument.positional (← p)) s (fun arg s' => Reads place s arg.tree s' ∧
        ∀ tree, arg = .element tree → tree.isElement = true) ReadError.Any :=
    h.bind fun tree s' htree => ⟨htree.1, fun _ heq => nomatch heq⟩
  have helement {p : Parse Tree} {s₁ : Cursor} (h : Outcome p s₁
      (fun tree s' => Reads place s tree s' ∧ tree.isElement = true) ReadError.Any) :
      Outcome (do return Argument.element (← p)) s₁ (fun arg s' => Reads place s arg.tree s' ∧
        ∀ tree, arg = .element tree → tree.isElement = true) ReadError.Any :=
    h.bind fun tree s' htree => ⟨htree.1, fun _ heq => Argument.element.inj heq ▸ htree.2⟩
  unfold argument
  rw [outcome_bind, outcome_peek]
  split
  next hk => exact hpositional (marked_derives hd hs (by simp [hk]) fun tokens value => .splat hk tokens value)
  next hk => exact helement (doubleSplat_derives hd hs hk)
  next hk =>
    exact hpositional (marked_derives hd hs (by simp [hk])
      fun tokens value => .leading (.inr hk) tokens value)
  next => exact helement (labelPair_derives hd hs)
  next =>
    refine (hd .expression place s hs (by simp)).bind ?_
    intro key s' hkey
    rw [outcome_bind, outcome_sees]
    split
    next => exact helement (arrowPair_derives hd hs hkey)
    next => exact ⟨hkey, fun _ heq => nomatch heq⟩

theorem commandArguments_derives (hd : descend.Derives t) (hs : s.Valid t) :
    Outcome (arguments descend place none) s (Enumerates place false s) ReadError.Any := by
  unfold arguments
  rw [outcome_bind, outcome_closes_none]
  refine (separated_derives Argument.tree (fun s hs => argument_derives hd hs) hs).bind ?_
  rintro args s' ⟨hitems, helements⟩
  exact Enumerates.gatherRuns args helements [] hs hitems (by simp)

theorem closedArguments_derives (hd : descend.Derives t) (closer : Token.Kind) (hs : s.Valid t) :
    Outcome (arguments descend place (some closer)) s (Holds place true s) ReadError.Any := by
  unfold arguments
  refine Outcome.unlessClosed (some closer) (.inl ⟨rfl, rfl⟩) ?_
  refine (separated_derives Argument.tree (fun s hs => argument_derives hd hs) hs).bind ?_
  rintro args s' ⟨hitems, helements⟩
  exact .inr (Enumerates.gatherRuns args helements [] hs hitems (by simp))

/-! ## literals between braces -/

theorem bracedElement_derives (hd : descend.Derives t) (hs : s.Valid t) :
    Outcome (bracedElement descend) s
      (fun tree s' => Reads .free s tree s' ∧ tree.isElement = true) ReadError.Any := by
  unfold bracedElement
  rw [outcome_bind, outcome_peek]
  split
  next => exact labelPair_derives hd hs
  next hk => exact doubleSplat_derives hd hs hk
  next =>
    refine (hd .expression .free s hs (by simp)).bind ?_
    intro key s' hkey
    rw [outcome_bind, outcome_sees]
    split
    next => exact arrowPair_derives hd hs hkey
    next => trivial

theorem braced_derives (hd : descend.Derives t) (hs : s.Valid t) (hk : s.current.kind = .leftBrace) :
    Outcome (braced descend) s (Reads place s) ReadError.Any := by
  have hne : s.current.kind ≠ .eof := by simp [hk]
  have hs' := (passes_advance s).valid hs
  have hrest {elements : List Tree} {s' : Cursor} (hitems : Holds .free true s.advance elements s')
      (helements : ∀ element ∈ elements, element.isElement = true) :
      Outcome (do
          let closing ← expect .rightBrace "`\x7d`"
          return ⟨.literal (some ⟨s.current.span, closing.span⟩) elements,
            s.current.span.join closing.span⟩)
        s' (Reads place s) ReadError.Any := by
    rw [outcome_bind, outcome_expect]
    split
    next hk' =>
      have hne' : s'.current.kind ≠ .eof := by simp [hk']
      obtain ⟨slots, hgroup, h⟩ := groups_advance hs hne hitems hne'
      rw [hk, hk'] at hgroup
      exact h.reads (takes_advance_joined hs hne hitems.passes hne') (.braced hgroup helements)
    next => trivial
  unfold braced
  rw [outcome_bind, outcome_advance, outcome_bind, outcome_sees]
  dsimp only
  split
  next => exact hrest (.inl ⟨rfl, rfl⟩) (by simp)
  next =>
    refine (separated_derives id (fun s hs => bracedElement_derives hd hs) hs').bind ?_
    rintro elements s' ⟨hitems, helements⟩
    rw [List.map_id] at hitems
    exact hrest (.inr hitems) helements

/-! ## parameters -/

theorem restParameter_derives {kind : ParameterKind} (hs : s.Valid t) (hk : s.current.kind ≠ .eof)
    (hkind : kind.sign? = some s.current.kind) :
    Outcome (restParameter kind s.current) s.advance (Reads place s) ReadError.Any := by
  have hsign := spells_advance hs hk
  have htakes := takes_advance hs hk
  have hs' := hsign.passes.valid hs
  unfold restParameter
  rw [outcome_bind, outcome_current]
  split
  next name hk' _ =>
    have hne' : s.advance.current.kind ≠ .eof := by simp [hk']
    rw [outcome_bind, outcome_advance]
    exact ((hsign.append (spells_advance hs' hne')).locals s.locals _).reads
      (htakes.trans (takes_advance hs' hne')) (.rest hkind hk')
  next hk' _ =>
    have hne' : s.advance.current.kind ≠ .eof := by simp [hk']
    rw [outcome_bind, outcome_advance]
    exact (hsign.append (spells_advance hs' hne')).reads
      (htakes.trans (takes_advance hs' hne')) (.refused hkind hk')
  next => exact hsign.reads htakes (.anonymous hkind)

theorem parameter_derives (hd : descend.Derives t) (hs : s.Valid t) :
    Outcome (parameter descend place) s (Reads place s) ReadError.Any := by
  have hfallback {kind : ParameterKind} {name : Text} {front : List Slot} {s' : Cursor}
      (hk : s.current.kind ≠ .eof) (hfront : s.Spells front s') (hpasses : s.advance.Passes s')
      (hform : ∀ tokens fallback, Form place (.parameter kind (some name) (some fallback))
        (front ++ [.part place tokens fallback])) :
      Outcome (do
          let fallback ← descend .expression place
          namedParameter kind name (some fallback) ⟨s.current.span.start, fallback.span.stop⟩)
        s' (Reads place s) ReadError.Any := by
    refine (hd .expression place _ (hfront.passes.valid hs) (by simp)).bind ?_
    intro fallback s'' hfallback
    have hall := (takes_advance hs hk).passes_takes hpasses hfallback.takes
    obtain ⟨tokens, hfallback⟩ := hfallback
    exact ((hfront.append hfallback).locals s.locals _).reads hall (hform tokens fallback)
  unfold parameter
  rw [outcome_bind, outcome_advance]
  split
  next name hk =>
    have hne : s.current.kind ≠ .eof := by simp [hk]
    have hname := spells_advance hs hne
    rw [outcome_bind, outcome_eat]
    split
    next hassign =>
      have hs' := hname.passes.valid hs
      exact hfallback hne (hname.append (spells_advance hs' (by simp [hassign])))
        (passes_advance s.advance) fun tokens fallback => .optional hk hassign tokens fallback
    next => exact (hname.locals s.locals _).reads (takes_advance hs hne) (.required hk)
  next name hk =>
    have hne : s.current.kind ≠ .eof := by simp [hk]
    have hname := spells_advance hs hne
    rw [outcome_bind, outcome_valueOmitted]
    split
    next => exact (hname.locals s.locals _).reads (takes_advance hs hne) (.keyword hk)
    next =>
      exact hfallback hne hname (Passes.refl _)
        fun tokens fallback => .optionalKeyword hk tokens fallback
  next hk => exact restParameter_derives hs (by simp [hk]) (by rw [hk]; rfl)
  next hk => exact restParameter_derives hs (by simp [hk]) (by rw [hk]; rfl)
  next hk => exact restParameter_derives hs (by simp [hk]) (by rw [hk]; rfl)
  next => trivial

theorem bareParameters_derives (hd : descend.Derives t) (hs : s.Valid t) :
    Outcome (parameters descend place none) s (Enumerates place false s) ReadError.Any := by
  unfold parameters
  rw [outcome_bind, outcome_closes_none]
  refine (separated_derives (P := fun _ => True) id (fun s hs => (parameter_derives hd hs).mono
    fun tree s' h => ⟨h, trivial⟩) hs).mono ?_
  rintro params s' ⟨hitems, -⟩
  rwa [List.map_id] at hitems

theorem closedParameters_derives (hd : descend.Derives t) (closer : Token.Kind) (hs : s.Valid t) :
    Outcome (parameters descend place (some closer)) s (Holds place false s) ReadError.Any := by
  unfold parameters
  refine Outcome.unlessClosed (some closer) (.inl ⟨rfl, rfl⟩) ?_
  refine (separated_derives (P := fun _ => True) id (fun s hs => (parameter_derives hd hs).mono
    fun tree s' h => ⟨h, trivial⟩) hs).mono ?_
  rintro params s' ⟨hitems, -⟩
  rw [List.map_id] at hitems
  exact .inr hitems

end Parse

end Collate
