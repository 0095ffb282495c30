import Collate.Proofs.Lint
import Collate.Proofs.Rule.Shorthand

/-!
# Comments and corrections

No correction loses a comment.  An edit leaves a comment alone or moves it inside an entry: what is
replaced holds a comment whole or not at all, and a comment in it belongs to one entry, or else there
is no edit.

* `Sequence.Carries`     an edit that puts a sequence in order moves a comment along with an entry;
* `Sequence.edit_keeps`  every comment is outside the edit or carried by it;
* `comments_travel`      all edits of a report, with all comments of a text.
-/

namespace Collate

/-- The edit puts the entries of a sequence in the order of a policy, all texts as they are and each
once, and the comment lies in one of them and in no other. -/
structure Sequence.Carries (t : Text) (q : Sequence) (policy : Policy) (e : Edit) (comment : Span) :
    Prop where
  edit_eq : q.edit t (policy.order q.entries) = .ok e
  arranged_perm : (policy.arranged q.entries).Perm q.entries
  threads : Text.Threads ((policy.arranged q.entries).map (·.text)) e.replacement
  carried : ∃ entry ∈ q.entries, entry.span.contains comment = true ∧
    (∀ other ∈ q.entries, other.span.overlaps comment = true → other = entry) ∧
    (policy.arranged q.entries).count entry = 1 ∧
    ∃ before body behind, t.slice? comment = some body ∧ entry.text = before ++ (body ++ behind)

namespace Sequence
variable {t : Text} {q : Sequence} {e : Edit} {comment : Span}

theorem InRow.nodup (h : q.InRow t) : q.entries.Nodup := by
  refine h.ordered.imp_of_mem ?_
  rintro a b ha - hab rfl
  have hne := (h.entries_fit a ha).nonempty
  change a.span.stop ≤ a.span.start at hab
  omega

/-- two entries that share a byte with a comment are the same, if one of them holds it -/
theorem InRow.unique (h : q.InRow t) {entry other : Entry} (hentry : entry ∈ q.entries)
    (hother : other ∈ q.entries) (hholds : entry.span.contains comment = true)
    (hshares : other.span.overlaps comment = true) :
    other = entry := by
  by_cases heq : other = entry
  · exact heq
  · exfalso
    have hinside := Span.contains_iff.mp hholds
    have hpos := (h.entries_fit other hother).nonempty
    have hfalse : other.span.overlaps comment = false := by
      apply Span.overlaps_false_of_precedes hpos
      rcases Span.precedes_of_pairwise h.ordered hother hentry heq with hle | hle
      · left
        change other.span.stop ≤ entry.span.start at hle
        show other.span.stop ≤ comment.start
        omega
      · right
        change entry.span.stop ≤ other.span.start at hle
        show comment.stop ≤ other.span.start
        omega
    exact nomatch hshares.symm.trans hfalse

/-- a comment in the container lies in an entry, if it is not loose -/
theorem exists_holder {comments : List Span} (hloose : q.hasLooseComment comments = false)
    (hcomment : comment ∈ comments) (hstart : q.container.start ≤ comment.start)
    (hstop : comment.stop ≤ q.container.stop) :
    ∃ entry ∈ q.entries, entry.span.contains comment = true := by
  have hno := List.any_eq_false.mp hloose comment hcomment
  rw [Span.contains_iff.mpr ⟨hstart, hstop⟩, Bool.true_and, Bool.not_eq_true, Bool.not_eq_false'] at hno
  exact List.any_eq_true.mp hno

theorem Replaces.clear {span : Span} (hspan : q.Replaces span) (h : q.Fits t) :
    t.Clear span.start ∧ t.Clear span.stop := by
  rcases hspan with rfl | ⟨braces, hbraces, rfl⟩
  · exact h.toInRow.range_clear
  · rw [h.braces_join hbraces]
    exact h.container_clear

/-- **An edit of a sequence keeps every comment**, outside of it or inside an entry. -/
theorem edit_keeps (h : q.Fits t) (policy : Policy) (hloose : q.hasLooseComment t.comments = false)
    (hedit : q.edit t (policy.order q.entries) = .ok e) (hcomment : comment ∈ t.comments) :
    comment.Precedes e.span ∨ e.span.Precedes comment ∨ q.Carries t policy e comment := by
  obtain ⟨hthreads, hreplaces⟩ := edit_threads policy hedit
  obtain ⟨hstart, hstop⟩ := hreplaces.clear h
  rcases hstart.precedes_or_inside hstop hcomment with hbefore | hbehind | hinside
  · exact .inl hbefore
  · exact .inr (.inl hbehind)
  · -- the comment is in the container, so one of the entries holds it
    obtain ⟨hcstart, hcstop⟩ := hreplaces.inside h
    obtain ⟨entry, hentry, hholds⟩ := exists_holder hloose hcomment (by omega) (by omega)
    have hperm := policy.arranged_perm q.entries
    obtain ⟨body, hbody⟩ := Text.comments_slice hcomment
    have hin := Span.contains_iff.mp hholds
    obtain ⟨before, behind, htext, -⟩ :=
      Text.slice?_inside (h.entries_fit entry hentry).slice hbody hin.1 hin.2
    have hcount : (policy.arranged q.entries).count entry = 1 := by
      rw [hperm.count_eq, h.toInRow.nodup.count, if_pos hentry]
    exact .inr (.inr ⟨hedit, hperm, hthreads, entry, hentry, hholds,
      fun other hother => h.toInRow.unique hentry hother hholds, hcount, before, _, behind, hbody,
      htext⟩)

end Sequence

/-- **No correction loses a comment.**  Every comment of a text that is read is disjoint from an edit
of its report, or the edit is that of an ordering rule and carries the comment inside an entry.  A
pair that is abbreviated shares no byte with a comment. -/
theorem comments_travel (t : Text) (s : Settings) (d : Document) (hread : Document.read t = .ok d) :
    ∃ report, d.lint s true = .ok report ∧
      (∀ comment ∈ d.comments, ∀ e ∈ report.edits, comment.overlaps e.span = false ∨
        ∃ (rule : Rule) (id : Nat) (o : Offense) (q : Sequence) (policy : Policy),
          (s.rule rule.name).enabled = true ∧ rule.find s d id = some o ∧ o.edit = some e ∧
          rule.sequence s d id = some q ∧ q.Carries t policy e comment) ∧
      ∀ id o, Rule.shorthand.find s d id = some o → (∃ label, o.edit = some ⟨d.span id, label⟩) ∧
        ∀ comment ∈ d.comments, comment.overlaps (d.span id) = false := by
  obtain ⟨rfl, hplaced⟩ := Document.placed_of_read hread
  obtain ⟨offenses, report, hlinted⟩ := Document.exists_linted hplaced s
  -- a pair that repeats its key, with the comments of the text
  have hshort {id : Nat} {o : Offense} (hfound : Rule.shorthand.find s d id = some o) :
      (∃ label, o.edit = some ⟨d.span id, label⟩) ∧
        ∀ comment ∈ d.comments, comment.overlaps (d.span id) = false := by
    obtain ⟨name, key, value, hrepeats, hedit⟩ := Rule.shorthand_found hfound
    refine ⟨⟨_, hedit⟩, fun comment hcomment => ?_⟩
    have hne := Text.comments_nonempty (hplaced.comments_eq ▸ hcomment)
    exact Span.overlaps_false_of_precedes hne (hrepeats.apart hplaced hcomment)
  refine ⟨report, hlinted.lint_eq, fun comment hcomment e he => ?_, fun id o => hshort⟩
  obtain ⟨o, ho, hedit⟩ := hlinted.exists_offense he
  obtain ⟨id, -, rule, hon, hfound⟩ := (Document.mem_offenses hlinted.offenses_eq).mp ho
  have hmem : comment ∈ d.text.comments := hplaced.comments_eq ▸ hcomment
  have hne := Text.comments_nonempty hmem
  rcases Rule.find_cases hfound with ⟨q, anchor, policy, hq, horder⟩ | ⟨rfl, -⟩
  · obtain ⟨hloose, hwritten⟩ := (Offense.ofOrder_value horder).2.2.2.2 e hedit
    rw [hplaced.comments_eq] at hloose
    rcases Sequence.edit_keeps (Rule.sequence_fits hplaced hq) policy hloose hwritten hmem with
      hbefore | hbehind | hcarries
    · exact .inl (Span.overlaps_false_of_precedes hne (.inl hbefore))
    · exact .inl (Span.overlaps_false_of_precedes hne (.inr hbehind))
    · exact .inr ⟨rule, id, o, q, policy, hon, hfound, hedit, hq, hcarries⟩
  · obtain ⟨⟨label, hlabel⟩, hapart⟩ := hshort hfound
    obtain rfl : (⟨d.span id, label⟩ : Edit) = e := Option.some.inj (hlabel.symm.trans hedit)
    exact .inl (hapart comment hcomment)

/-- the first comment moves with the array it stands in, and the second one stays where it is -/
theorem comments_travel_in_array :
    let t := "y = 1\nz = \x7b\n  b: [\n    1 # one\n  ],\n  a: 2\n\x7d # two\nfoo(y: y)".toList
    ∃ d report, Document.read t = .ok d ∧ d.comments = [⟨25, 30⟩, ⟨45, 50⟩] ∧
      d.lint .default true = .ok report ∧ report.edits.map (·.span) = [⟨10, 44⟩, ⟨55, 59⟩] ∧
      ∃ e ∈ report.edits, ∃ (q : Sequence) (policy : Policy), q.Carries t policy e ⟨25, 30⟩ := by
  intro t
  have hspans : (Document.read t).toOption.bind (fun d => (d.lint .default true).toOption.map
      (fun report => (d.comments, report.edits.map (·.span))))
      = some ([⟨25, 30⟩, ⟨45, 50⟩], [⟨10, 44⟩, ⟨55, 59⟩]) := by
    decide +kernel
  cases h : Document.read t with
  | error e =>
    rw [h] at hspans
    exact nomatch hspans
  | ok d =>
    obtain ⟨report, hlint, htravel, -⟩ := comments_travel t .default d h
    rw [h] at hspans
    change (d.lint .default true).toOption.map _ = _ at hspans
    rw [hlint] at hspans
    obtain ⟨hcomments, hedits⟩ := Prod.mk.inj (Option.some.inj hspans)
    refine ⟨d, report, rfl, hcomments, hlint, hedits, ?_⟩
    have hmem : (⟨10, 44⟩ : Span) ∈ report.edits.map (·.span) := by
      rw [hedits]
      exact List.mem_cons_self
    obtain ⟨e, he, hspan⟩ := List.mem_map.mp hmem
    rcases htravel ⟨25, 30⟩ (by rw [hcomments]; exact List.mem_cons_self) e he with hapart | hcarried
    · rw [hspan] at hapart
      exact absurd hapart (by decide)
    · obtain ⟨rule, id, o, q, policy, -, -, -, -, hcarries⟩ := hcarried
      exact ⟨e, he, q, policy, hcarries⟩

end Collate
