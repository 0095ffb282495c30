import Collate.Proofs.Lint
import Collate.Proofs.Token.Repeated

/-!
# Edits that can be applied

The program reports in 32 bits.  Where a column has no successor it stops, and else its report is the one
without a limit, whose edits can be applied together.

* `Text.FaultyColumn`      the fault of a place whose column has no successor;
* `Document.lintIn_stop`   the report of the program;
* `lint_applies`           linting and correction of a text that was read.
-/

namespace Collate

variable {d : Document} {t : Text}

/-! ## columns without a successor -/

/-- the fault of a place between two characters of the text, whose column has no successor -/
def Text.FaultyColumn (t : Text) (fault : Fault) : Prop :=
  ∃ offset, t.isBoundary offset = true ∧ fault = .column offset ∧ (t.columnOf offset + 1) % positionLimit = 0

theorem Text.findPosition_cases {offset : Nat} (h : t.isBoundary offset = true) :
    t.findPosition offset = .ok (t.position offset) ∨
      ∃ fault, t.findPosition offset = .error fault ∧ t.FaultyColumn fault := by
  by_cases hcolumn : (t.columnOf offset + 1) % positionLimit = 0
  · exact .inr ⟨_, if_pos hcolumn, offset, h, rfl, hcolumn⟩
  · exact .inl (findPosition_eq hcolumn)

/-- with overflow a finding is the same, or its place has a column without a successor -/
theorem Ruling.diagnosticIn_stop {r : Ruling} (h : r.offense.Fits t) :
    r.diagnosticIn .stop t = r.diagnostic t ∨
      ∃ fault, r.diagnosticIn .stop t = .error fault ∧ t.FaultyColumn fault := by
  obtain ⟨text, htext⟩ := h.anchored
  obtain ⟨hstart, hstop⟩ := Text.isBoundary_of_slice? htext
  have hslice : t.slice r.offense.anchor = .ok text := by rw [Text.slice, htext]
  simp only [diagnostic, diagnosticIn, hslice, Location.place, Text.place]
  rcases Text.findPosition_cases hstart with hfound | ⟨fault, hfault, hcolumn⟩
  · rcases Text.findPosition_cases hstop with hfound' | ⟨fault, hfault, hcolumn⟩
    · rw [hfound, hfound']
      exact .inl rfl
    · rw [hfound, hfault]
      exact .inr ⟨fault, rfl, hcolumn⟩
  · rw [hfault]
    exact .inr ⟨fault, rfl, hcolumn⟩

theorem mapM_eq_or_error {α β : Type} {f g : α → Except Fault β} {P : Fault → Prop} {as : List α}
    (h : ∀ a ∈ as, f a = g a ∨ ∃ fault, f a = .error fault ∧ P fault) :
    as.mapM f = as.mapM g ∨ ∃ fault, as.mapM f = .error fault ∧ P fault := by
  induction as with
  | nil => exact .inl rfl
  | cons a as ih =>
    obtain ⟨hfirst, hrest⟩ := List.forall_mem_cons.mp h
    rw [List.mapM_cons, List.mapM_cons]
    rcases hfirst with hsame | ⟨fault, hfault, hP⟩
    · rw [hsame]
      cases g a with
      | error e => exact .inl rfl
      | ok b =>
        rcases ih hrest with hsame | ⟨fault, hfault, hP⟩
        · rw [hsame]
          exact .inl rfl
        · rw [hfault]
          exact .inr ⟨fault, rfl, hP⟩
    · rw [hfault]
      exact .inr ⟨fault, rfl, hP⟩

/-- with overflow a report is the same, or some column has no successor -/
theorem Document.lintIn_stop (h : d.Placed) (s : Settings) :
    d.lintIn .stop s true = d.lint s true ∨
      ∃ fault, d.lintIn .stop s true = .error fault ∧ d.text.FaultyColumn fault := by
  obtain ⟨offenses, -, hrulings, hfits⟩ := rulings_eq h s
  have hruled : ∀ r ∈ Ruling.ofOffenses [] offenses, r.offense.Fits d.text :=
    fun r hr => hfits _ (Ruling.offense_mem r hr)
  have hmap := mapM_eq_or_error fun r hr => Ruling.diagnosticIn_stop (hruled r hr)
  unfold lint lintIn
  rw [hrulings]
  rcases hmap with hsame | ⟨fault, hfault, hcolumn⟩
  · exact .inl (congrArg (· >>= fun found => pure (Report.ofDiagnostics found)) hsame)
  · refine .inr ⟨fault, ?_, hcolumn⟩
    exact congrArg (· >>= fun found => pure (Report.ofDiagnostics found)) hfault

/-! ## reports whose edits can be applied -/

/-- the edits of a report can be applied to its text together -/
structure Report.Applies (t : Text) (report : Report) : Prop where
  edits_fit : ∀ e ∈ report.edits, e.span.start < e.span.stop ∧ e.span.stop ≤ t.size ∧
    t.isBoundary e.span.start = true ∧ t.isBoundary e.span.stop = true
  applied : ∃ mended, Edit.applyAll t report.edits = .ok mended

theorem Document.lint_applied (h : d.Placed) (s : Settings) :
    ∃ report, d.lint s true = .ok report ∧ report.Applies d.text := by
  obtain ⟨report, hreport, hfits, hapart⟩ := lint_safe h s
  exact ⟨report, hreport, fun e he => ⟨(hfits e he).nonempty, (hfits e he).stop_le, (hfits e he).boundary⟩,
    Edit.applyAll_of_apart hfits hapart⟩

/-- **Linting a text that was read only fails for a column without a successor, the edits of its report can be
applied together, and correction can only fail to read.**  Texts that are short enough have no such column.  The
lines that layout and reports look at are lines of the text. -/
theorem lint_applies (t : Text) (s : Settings) :
    (∀ d, Document.build .strict t = .ok d → Profile.strict.Counts d.nodes →
      match d.lintIn .stop s true with
      | .ok report => report.Applies t ∧ Document.read t = .ok d ∧ d.lint s true = .ok report
      | .error fault => t.FaultyColumn fault) ∧
    (t.size + 1 < positionLimit → ∀ d, Document.build .strict t = .ok d → Profile.strict.Counts d.nodes →
      ∃ report, d.lintIn .stop s true = .ok report ∧ report.Applies t) ∧
    (∀ offset, t.lineStart (t.lineOf offset) ≤ offset ∧ ∃ line,
      t.slice? ⟨t.lineStart (t.lineOf offset), t.lineStop (t.lineOf offset)⟩ = some line) ∧
    ∀ e, Correction.run .standard s t = .error e → ∃ n now error, Correction.Reached s t n now ∧
      e.pass = n + 1 ∧ Document.read now = .error error ∧
      e.cause = .unreadable (error.display now) := by
  have hlint (d : Document) (hd : Document.build .strict t = .ok d) (hcounts : Profile.strict.Counts d.nodes) :
      Document.read t = .ok d ∧ ∃ report, d.lint s true = .ok report ∧ report.Applies t ∧
        (d.lintIn .stop s true = .ok report ∨ ∃ fault, d.lintIn .stop s true = .error fault ∧
          t.FaultyColumn fault) := by
    have hread := Document.read_of_build hd hcounts
    obtain ⟨rfl, hplaced⟩ := Document.placed_of_read hread
    obtain ⟨report, hreport, happlies⟩ := Document.lint_applied hplaced s
    have hstop := Document.lintIn_stop hplaced s
    rw [hreport] at hstop
    exact ⟨hread, report, hreport, happlies, hstop⟩
  refine ⟨fun d hd hcounts => ?_, fun hsize d hd hcounts => ?_, fun offset => ?_, fun e he => ?_⟩
  · obtain ⟨hread, report, hreport, happlies, hsame | ⟨fault, hfault, hcolumn⟩⟩ := hlint d hd hcounts
    · rw [hsame]
      exact ⟨happlies, hread, hreport⟩
    · rw [hfault]
      exact hcolumn
  · obtain ⟨-, report, -, happlies, hsame | ⟨fault, -, offset, hoffset, -, hcolumn⟩⟩ := hlint d hd hcounts
    · exact ⟨report, hsame, happlies⟩
    · have hle := Text.isBoundary_le hoffset
      have hcol : t.columnOf offset ≤ offset := Nat.sub_le _ _
      rw [Nat.mod_eq_of_lt (by omega)] at hcolumn
      exact absurd hcolumn (Nat.succ_ne_zero _)
  · exact ⟨(Text.lineStart_lineOf t offset).2, Text.slice?_lineOf t offset⟩
  · exact Correction.proceed_error Correction.passLimit ⟨t, 0, 0⟩ .start he

/-- literals on two lines with a key past ASCII: two edits, which are applied together -/
theorem lint_applies_accented :
    ∃ d report mended,
      Document.build .strict "x = { é: 1, a: 2 }\ny = \x7b d: 1,\n  c: 2 \x7d".toList = .ok d ∧
      d.lintIn .stop .default true = .ok report ∧ report.edits.map (·.span) = [⟨6, 17⟩, ⟨24, 40⟩] ∧
      Edit.applyAll "x = { é: 1, a: 2 }\ny = \x7b d: 1,\n  c: 2 \x7d".toList report.edits = .ok mended := by
  have hspans : (Document.build .strict
      "x = { é: 1, a: 2 }\ny = \x7b d: 1,\n  c: 2 \x7d".toList).toOption.map (fun d => (d.nodes.size,
        (d.lintIn .stop .default true).toOption.map (fun report => report.edits.map (·.span))))
      = some (17, some [⟨6, 17⟩, ⟨24, 40⟩]) := by
    decide +kernel
  cases h : Document.build .strict "x = { é: 1, a: 2 }\ny = \x7b d: 1,\n  c: 2 \x7d".toList with
  | error stop =>
    rw [h] at hspans
    exact nomatch hspans
  | ok d =>
    rw [h] at hspans
    obtain ⟨hsize, hspans⟩ := Prod.mk.inj (Option.some.inj hspans)
    have hcounts : Profile.strict.Counts d.nodes := fun _ => by
      rw [hsize]
      decide
    obtain ⟨report, hreport, -, mended, hmended⟩ := (lint_applies _ .default).2.1 (by decide) d h hcounts
    rw [hreport] at hspans
    exact ⟨d, report, mended, rfl, hreport, Option.some.inj hspans, hmended⟩

theorem Tree.read_blanks (n : Nat) (t : Text) : Tree.read (List.replicate n ' ' ++ t) = (do
    let stream ← (Piece.readAll n t).map (TokenStream.place n true true)
    let r ← Parse.program ⟨stream.tokens, stream.eof, []⟩
    return ((⟨.program r.1, ⟨0, n + t.size⟩⟩ : Tree), stream.comments)) := by
  rw [Tree.read, TokenStream.read_blanks, Text.size_append, Text.size_replicate rfl]
  rfl

theorem Document.lintIn_ne_ok (h : d.Placed) {s : Settings} {o : Offense} {rule : Rule} {id : Nat} {fault : Fault}
    (hid : id ∈ d.preorder) (hon : (s.rule rule.name).enabled = true) (hfound : rule.find s d id = some o)
    (hfault : d.text.findPosition o.anchor.start = .error fault) (report : Report) :
    d.lintIn .stop s true ≠ .ok report := by
  intro hreport
  obtain ⟨offenses, hoffenses, hrulings, -⟩ := rulings_eq h s
  have ho : o ∈ offenses := (mem_offenses hoffenses).mpr ⟨id, hid, rule, hon, hfound⟩
  rw [← Ruling.map_offense offenses []] at ho
  obtain ⟨r, hr, rfl⟩ := List.mem_map.mp ho
  obtain ⟨rulings, hruled, hreport⟩ := bind_eq_ok hreport
  obtain rfl : Ruling.ofOffenses [] offenses = rulings := Except.ok.inj (hrulings.symm.trans hruled)
  obtain ⟨found, hmap, -⟩ := bind_eq_ok hreport
  obtain ⟨x, -, hx⟩ := (mem_of_mapM_ok hmap).2 r hr
  obtain ⟨anchor, -, hx⟩ := bind_eq_ok hx
  obtain ⟨location, hlocation, -⟩ := bind_eq_ok hx
  obtain ⟨start, hstart, -⟩ := bind_eq_ok hlocation
  exact nomatch hfault.symm.trans hstart

/-- a pair that repeats its key is found, if no comment is near and no condition or block follows -/
theorem Rule.find_shorthand {s : Settings} {id key value : Nat} {name source : Text}
    (hnode : d.node id = .pair key (some value) true) (hkey : d.symbolName key = some name)
    (hvalue : d.node value = .localVariable name) (hsource : d.source id = .ok source)
    (hlong : source.trim.isShorthand = false) (hcomments : d.comments = [])
    (hfollowed : (d.soleArgumentCall id).any d.isFollowed = false) :
    Rule.shorthand.find s d id = some ⟨shorthand, shorthandMessage (String.ofList name), d.span id,
      some ⟨d.span id, name ++ [':']⟩, none⟩ := by
  have hredundant : d.redundantKey id = pure name := by
    rw [Document.redundantKey, hnode]
    dsimp only
    rw [hkey, hvalue]
    dsimp only
    rw [if_pos rfl, hsource]
    show (if source.trim.isShorthand then failure else pure name) = _
    rw [hlong]
    rfl
  have hcomment : d.hasCommentOn (d.text.firstLine (d.span id)) = false := by
    rw [Document.hasCommentOn, hcomments]
    rfl
  show (Rule.checkShorthand d id).value = _
  rw [Rule.checkShorthand, hredundant, pure_bind, hcomment, hfollowed]
  rfl

/-! ## a pair behind 4 GiB of blanks -/

/-- what is computed of the text without looking at it -/
theorem read_behind_blanks :
    ∃ r, Tree.read (List.replicate 4294967289 ' ' ++ "x=1;p x: x".toList) = .ok r ∧
      (Document.ofTree [] r.1 r.2).nodes.size = 8 ∧ (Document.ofTree [] r.1 r.2).comments = [] ∧
      4 ∈ (Document.ofTree [] r.1 r.2).preorder ∧
      (Document.ofTree [] r.1 r.2).span 4 = ⟨4294967295, 4294967299⟩ ∧
      (Document.ofTree [] r.1 r.2).node 4 = .pair 2 (some 3) true ∧
      (Document.ofTree [] r.1 r.2).symbolName 2 = some ['x'] ∧
      (Document.ofTree [] r.1 r.2).node 3 = .localVariable ['x'] ∧
      ((Document.ofTree [] r.1 r.2).soleArgumentCall 4).any (Document.ofTree [] r.1 r.2).isFollowed = false := by
  have hshape : ((Tree.read (List.replicate 4294967289 ' ' ++ "x=1;p x: x".toList)).toOption.map
      (fun r => Document.ofTree [] r.1 r.2)).any (fun d => decide (d.nodes.size = 8 ∧ d.comments = [] ∧
        4 ∈ d.preorder ∧ d.span 4 = ⟨4294967295, 4294967299⟩ ∧ d.node 4 = .pair 2 (some 3) true ∧
        d.symbolName 2 = some ['x'] ∧ d.node 3 = .localVariable ['x'] ∧
        (d.soleArgumentCall 4).any d.isFollowed = false)) = true := by
    rw [Tree.read_blanks]
    decide +kernel
  obtain ⟨shape, hmem, hshape⟩ := (Option.any_eq_true _ _).mp hshape
  obtain ⟨r, hr, rfl⟩ := Option.map_eq_some_iff.mp hmem
  exact ⟨r, eq_ok_of_toOption hr, of_decide_eq_true hshape⟩

/-- the pair stands at an offset whose column has no successor -/
theorem unplaced_behind_blanks :
    Text.slice (List.replicate 4294967289 ' ' ++ "x=1;p x: x".toList) ⟨4294967295, 4294967299⟩
        = .ok "x: x".toList ∧
      Text.findPosition (List.replicate 4294967289 ' ' ++ "x=1;p x: x".toList) 4294967295
        = .error (.column 4294967295) := by
  have hsize : Text.size (List.replicate 4294967289 ' ' ++ "x=1;p ".toList) = 4294967295 := by
    rw [Text.size_append, Text.size_replicate rfl]
    rfl
  have hline : '\n' ∉ List.replicate 4294967289 ' ' ++ "x=1;p ".toList := fun h => by
    rcases List.mem_append.mp h with h | h
    · exact absurd (List.eq_of_mem_replicate h) (by decide)
    · exact absurd h (by decide)
  have hfault := Text.findPosition_atLimit (b := "x: x".toList) hline (by rw [hsize]; rfl)
  have hfront : List.replicate 4294967289 ' ' ++ "x=1;p x: x".toList
      = (List.replicate 4294967289 ' ' ++ "x=1;p ".toList) ++ "x: x".toList := by
    rw [List.append_assoc]
    rfl
  rw [hsize, ← hfront] at hfault
  refine ⟨?_, hfault⟩
  rw [Text.slice, Text.slice?_eq_some.mpr ⟨_, [], hfront.trans (List.append_nil _).symm, hsize, rfl⟩]

/-- The pair repeats its key, and the column of its first character has no successor. -/
theorem lint_unplaced :
    ∃ d, Document.build .strict (List.replicate 4294967289 ' ' ++ "x=1;p x: x".toList) = .ok d ∧
      Profile.strict.Counts d.nodes ∧ ∀ report, d.lintIn .stop .default true ≠ .ok report := by
  obtain ⟨r, hr, hsize, hcomments, hid, hspan, hnode, hkey, hvalue, hfollowed⟩ := read_behind_blanks
  obtain ⟨hslice, hfault⟩ := unplaced_behind_blanks
  generalize List.replicate 4294967289 ' ' ++ "x=1;p x: x".toList = t at hr hslice hfault
  have hcounts : Profile.strict.Counts (Document.ofTree t r.1 r.2).nodes := fun _ => by
    show (Document.ofTree [] r.1 r.2).nodes.size ≤ numberLimit
    rw [hsize]
    decide
  have hbuild := Document.build_of_tree hr hcounts
  have hplaced := (Document.placed_of_read (Document.read_of_build hbuild hcounts)).2
  have hsource : (Document.ofTree t r.1 r.2).source 4 = .ok "x: x".toList := by
    show Text.slice t ((Document.ofTree [] r.1 r.2).span 4) = _
    rw [hspan, hslice]
  have hlong : Text.isShorthand (Text.trim "x: x".toList) = false := by decide +kernel
  have hfound := Rule.find_shorthand (d := Document.ofTree t r.1 r.2) (s := .default) hnode hkey hvalue hsource
    hlong hcomments hfollowed
  have hon : (Settings.default.rule Rule.shorthand.name).enabled = true := by decide +kernel
  have hunplaced : Text.findPosition t ((Document.ofTree t r.1 r.2).span 4).start = .error (.column 4294967295) := by
    show Text.findPosition t ((Document.ofTree [] r.1 r.2).span 4).start = _
    rw [hspan]
    exact hfault
  exact ⟨_, hbuild, hcounts, Document.lintIn_ne_ok hplaced hid hon hfound hunplaced⟩

end Collate
