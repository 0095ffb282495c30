import Collate.Proofs.Scope.Loops

/-!
# Names through arguments

The names in sight go through arguments, pairs and literals from left to right.  Gathering a run of pairs
does not change this, as the literal over them opens no scope.
-/

namespace Collate

/-! ## runs of pairs -/

section
variable {t : Text} {before after : List Text} {name : Text} {place : Span}

theorem runLiteral_resolved {run : List Tree} (h : Tree.ResolvedAll t before run after) :
    Tree.ResolvedAll t before (runLiteral run) after := by
  cases run with
  | nil => exact h
  | cons first rest => exact .single (.plain rfl trivial h)

theorem runLiteral_owns {run : List Tree} (h : Tree.AnyOwns t run name place) :
    Tree.AnyOwns t (runLiteral run) name place := by
  obtain ⟨tree, hmem, howns⟩ := h
  cases run with
  | nil => cases hmem
  | cons first rest => exact ⟨_, List.mem_cons_self, .child hmem howns⟩

/-- the step over a positional argument: the run in front of it is gathered, and it stays -/
theorem gatherRuns_resolved (args : List Argument) :
    ∀ {run : List Tree} {before : List Text},
      Tree.ResolvedAll t before (run ++ args.map Argument.tree) after →
      Tree.ResolvedAll t before (gatherRuns run args) after := by
  induction args with
  | nil =>
    intro run before h
    rw [List.map_nil, List.append_nil] at h
    exact runLiteral_resolved h
  | cons arg args ih =>
    intro run before h
    cases arg with
    | element tree => exact ih (by rw [List.append_assoc]; exact h)
    | positional tree =>
      obtain ⟨names, hrun, hrest⟩ := h.split
      cases hrest with
      | cons htree hargs => exact (runLiteral_resolved hrun).append (.cons htree (@ih [] _ hargs))

theorem gatherRuns_owns (args : List Argument) :
    ∀ {run : List Tree}, Tree.AnyOwns t (run ++ args.map Argument.tree) name place →
      Tree.AnyOwns t (gatherRuns run args) name place := by
  induction args with
  | nil =>
    intro run h
    rw [List.map_nil, List.append_nil] at h
    exact runLiteral_owns h
  | cons arg args ih =>
    intro run h
    cases arg with
    | element tree => exact ih (by rw [List.append_assoc]; exact h)
    | positional tree =>
      obtain ⟨held, hmem, howns⟩ := h
      rcases List.mem_append.mp hmem with hmem | hmem
      · exact (runLiteral_owns ⟨held, hmem, howns⟩).mono (List.subset_append_left _ _)
      · rcases List.mem_cons.mp hmem with rfl | hmem
        · exact ⟨_, List.mem_append_right _ List.mem_cons_self, howns⟩
        · refine (@ih [] ⟨held, hmem, howns⟩).mono ?_
          exact fun x hx => List.mem_append_right _ (List.mem_cons_of_mem _ hx)

theorem Cursor.Scans.gather {s s' : Cursor} {args : List Argument}
    (h : Scans t s (args.map Argument.tree) s') : Scans t s (gatherRuns [] args) s' :=
  ⟨h.passes, gatherRuns_resolved args h.resolved,
    h.covered.mono fun name place => @gatherRuns_owns t name place args []⟩

end

namespace Parse
open Cursor
variable {t : Text} {descend : Descent} {depth : Nat} {s : Cursor}

/-! ## pairs -/

theorem labelPair_tracks (hd : descend.Tracks t depth) (place : Place) (hs : s.Valid t)
    (hdepth : s.ahead.length ≤ depth) : TracksTree t (labelPair descend place) s := by
  refine (labelPair_reads hd.sound place hs hdepth).and ?_
  unfold labelPair
  rw [outcome_bind, outcome_advance]
  split
  next name hk =>
    have hlabel := Scans.mark hs (by simp [hk])
    have hlt := (takes_advance hs (by simp [hk])).length_lt
    have hkey : Scans t s [⟨.symbol name, ⟨s.current.span.start, s.current.span.stop - 1⟩⟩] s.advance :=
      Scans.wrap hlabel rfl trivial rfl rfl
    rw [outcome_bind, outcome_valueOmitted]
    split
    next => exact Scans.wrap hkey rfl trivial rfl rfl
    next =>
      refine (hd.reads .expression place (hlabel.passes.valid hs) (by omega) (by simp)).bind ?_
      rintro value s' ⟨-, hvalue⟩
      exact Scans.wrap (hkey.append hvalue) rfl trivial rfl rfl
  next => trivial

theorem arrowPair_tracks (hd : descend.Tracks t depth) (place : Place) {key : Tree} {s' : Cursor}
    (hs : s.Valid t) (hread : key.ReadFrom t s s') (hkey : Scans t s [key] s')
    (hdepth : s'.ahead.length ≤ depth) :
    Outcome (arrowPair descend place key) s'
      (fun tree s'' => tree.ReadFrom t s s'' ∧ Scans t s [tree] s'') ReadError.Any := by
  refine (arrowPair_reads hd.sound place hs hread hdepth).and ?_
  have hs' := hread.takes.valid hs
  unfold arrowPair
  rw [outcome_bind, outcome_expect]
  split
  next hk =>
    have harrow := Scans.mark hs' (by simp [hk])
    have hlt := (takes_advance hs' (by simp [hk])).length_lt
    refine (hd.reads .expression place (harrow.passes.valid hs') (by omega) (by simp)).bind ?_
    rintro value s'' ⟨-, hvalue⟩
    exact Scans.wrap ((hkey.append harrow).append hvalue) rfl trivial rfl rfl
  next => trivial

theorem marked_tracks (hd : descend.Tracks t depth) (place : Place) (build : Tree → Node Tree)
    (hchildren : ∀ tree, (build tree).children = [tree])
    (hmarked : ∀ tree span, (build tree).Marked t span)
    (hbuild : ∀ tree span s', Scans t s [tree] s' → span.start = s.offset →
      Scans t s [⟨build tree, span⟩] s')
    (hs : s.Valid t) (hk : s.current.kind ≠ .eof ∧ ∀ name, s.current.kind ≠ .ident name)
    (hdepth : s.ahead.length ≤ depth) : TracksTree t (marked descend place build) s := by
  refine (marked_reads hd.sound place build hchildren hmarked hs hk.1 hdepth).and ?_
  have hmark := Scans.mark hs hk
  have hlt := (takes_advance hs hk.1).length_lt
  unfold marked
  rw [outcome_bind, outcome_advance]
  refine (hd.reads .expression place (hmark.passes.valid hs) (by omega) (by simp)).bind ?_
  rintro value s' ⟨hread, hvalue⟩
  exact hbuild value _ s' (hmark.append hvalue) (start_join_tree hs hmark.passes hread)

/-! ## argument lists -/

theorem argument_tracks (hd : descend.Tracks t depth) (place : Place) (hs : s.Valid t)
    (hdepth : s.ahead.length < depth) :
    Outcome (argument descend place) s
      (fun arg s' => arg.tree.ReadFrom t s s' ∧ Scans t s [arg.tree] s') ReadError.Any := by
  have hle : s.ahead.length ≤ depth := Nat.le_of_lt hdepth
  unfold argument
  rw [outcome_bind, outcome_peek]
  split
  next hk =>
    exact (marked_tracks hd place Node.splat (fun _ => rfl) (fun _ _ => trivial)
      (fun _ _ _ h _ => Scans.wrap h rfl trivial rfl rfl) hs (by simp [hk]) hle).bind (fun tree s' h => h)
  next hk =>
    exact (marked_tracks hd place Node.doubleSplat (fun _ => rfl) (fun _ _ => trivial)
      (fun _ _ _ h _ => Scans.wrap h rfl trivial rfl rfl) hs (by simp [hk]) hle).bind (fun tree s' h => h)
  next hk =>
    exact (marked_tracks hd place (fun value => .other [value]) (fun _ => rfl) (fun _ _ => trivial)
      (fun _ _ _ h hstart => h.other_of_kind hs hstart (by simp [hk]) (by simp [hk]) (by simp [hk])) hs
      (by simp [hk]) hle).bind (fun tree s' h => h)
  next => exact (labelPair_tracks hd place hs hle).bind (fun tree s' h => h)
  next =>
    refine (hd.reads .expression place hs hdepth (by simp)).bind ?_
    rintro key s' ⟨hread, hkey⟩
    have hlt := hread.takes.length_lt
    rw [outcome_bind, outcome_sees]
    split
    next => exact (arrowPair_tracks hd place hs hread hkey (by omega)).bind (fun tree s' h => h)
    next => exact ⟨hread, hkey⟩

theorem arguments_scans (hd : descend.Tracks t depth) (place : Place) (closer : Option Token.Kind)
    (hs : s.Valid t) (hdepth : s.ahead.length < depth) :
    Outcome (arguments descend place closer) s (Scans t s) ReadError.Any := by
  have hall : Outcome (do return gatherRuns [] (← separated (argument descend place) closer)) s
      (Scans t s) ReadError.Any := by
    refine (separated_scans Argument.tree (fun s hs h => argument_tracks hd place hs h) hs hdepth).bind ?_
    intro args s' h
    exact h.gather
  unfold arguments
  exact Outcome.unlessClosed closer (Scans.nil s) hall

/-! ## literals between braces -/

theorem bracedElement_tracks (hd : descend.Tracks t depth) (hs : s.Valid t)
    (hdepth : s.ahead.length < depth) : TracksTree t (bracedElement descend) s := by
  have hle : s.ahead.length ≤ depth := Nat.le_of_lt hdepth
  unfold TracksTree bracedElement
  rw [outcome_bind, outcome_peek]
  split
  next => exact labelPair_tracks hd .free hs hle
  next hk =>
    exact marked_tracks hd .free Node.doubleSplat (fun _ => rfl) (fun _ _ => trivial)
      (fun _ _ _ h _ => Scans.wrap h rfl trivial rfl rfl) hs (by simp [hk]) hle
  next =>
    refine (hd.reads .expression .free hs hdepth (by simp)).bind ?_
    rintro key s' ⟨hread, hkey⟩
    have hlt := hread.takes.length_lt
    rw [outcome_bind, outcome_sees]
    split
    next => exact arrowPair_tracks hd .free hs hread hkey (by omega)
    next => trivial

theorem braced_scans (hd : descend.Tracks t depth) (hs : s.Valid t) (hk : s.current.kind = .leftBrace)
    (hdepth : s.ahead.length ≤ depth) :
    Outcome (braced descend) s (fun tree => Scans t s [tree]) ReadError.Any := by
  have hopening := Scans.mark hs (by simp [hk])
  have hs' := hopening.passes.valid hs
  have hlt := (takes_advance hs (by simp [hk])).length_lt
  have hrest {elements : List Tree} {s' : Cursor} (helements : Scans t s.advance elements s') :
      Outcome (do
          let closing ← expect .rightBrace "`\x7d`"
          return ⟨.literal (some ⟨s.current.span, closing.span⟩) elements,
            s.current.span.join closing.span⟩)
        s' (fun tree => Scans t s [tree]) ReadError.Any := by
    rw [outcome_bind, outcome_expect]
    split
    next hclose =>
      have hclosing := Scans.mark (helements.passes.valid hs') (by simp [hclose])
      have hall := (hopening.append helements).append hclosing
      rw [List.nil_append, List.append_nil] at hall
      exact Scans.wrap hall rfl trivial rfl rfl
    next => trivial
  unfold braced
  rw [outcome_bind, outcome_advance, outcome_bind, outcome_sees]
  dsimp only
  split
  next => exact hrest (Scans.nil s.advance)
  next =>
    refine (separated_scans id (fun s hs h => bracedElement_tracks hd hs h) hs' (by omega)).bind ?_
    intro elements s' h
    rw [List.map_id] at h
    exact hrest h

end Parse

end Collate
