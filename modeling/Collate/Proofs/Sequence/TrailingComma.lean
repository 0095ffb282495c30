import Collate.Proofs.Rule.Found
import Collate.Proofs.Sequence.Rearranged

/-!
# Lines and trailing commas

A container stays on one line or on several when its entries are put into another order, and a comma behind
the last entry stays there, with one exception.  Where every entry gets a line of its own between braces, the
comma is looked for behind white space only, and it is dropped with the backslash of a joined line in front
of it.

* `Text.skipFiller`              a text without the white space and joined lines at its start;
* `Sequence.follower`            the next character behind the last entry;
* `Stands.isSingleLine_rearranged`   the container stays on one line or on several;
* `Sequence.Joined`              a joined line hides what stands behind the last entry;
* `Stands.follower_rearranged`   a comma behind the last entry stays, unless it is hidden;
* `Rule.edit_keeps_layout`       the same for the edits of the rules;
* `Rule.literalOrder_drops_comma`   a comma that is dropped.
-/

namespace Collate

namespace Text

/-- the text from the first character on that is neither white space nor part of a joined line -/
def skipFiller : Text → Text
  | [] => []
  | '\\' :: '\n' :: rest => skipFiller rest
  | c :: rest => if isBlank c then skipFiller rest else c :: rest

theorem skipFiller_append {a b : Text} (ha : a.Filler) : skipFiller (a ++ b) = skipFiller b := by
  induction ha with
  | nil => rfl
  | blank hc _ ih =>
    rcases hc with rfl | rfl | rfl | rfl
    · exact ih
    · exact ih
    · exact ih
    · exact ih
  | joined _ ih => exact ih

/-- in front of anything else, filler is white space unless a backslash is left -/
theorem Filler.trimStart {a : Text} (ha : a.Filler) :
    a.trimStart = [] ∨ ∃ rest, a.trimStart = '\\' :: rest := by
  induction ha with
  | nil => exact .inl rfl
  | blank hc _ ih =>
    rcases hc with rfl | rfl | rfl | rfl
    · exact ih
    · exact ih
    · exact ih
    · exact ih
  | joined _ _ => exact .inr ⟨_, rfl⟩

theorem filler_of_white {t : Text} (h : ∀ c ∈ t, c = ' ' ∨ c = '\t' ∨ c = '\r' ∨ c = '\n') : t.Filler := by
  induction t with
  | nil => exact .nil
  | cons c t ih =>
    obtain ⟨hc, ht⟩ := List.forall_mem_cons.mp h
    exact (ih ht).blank hc

theorem trimStart_append {a : Text} (b : Text) (h : a.trimStart = []) :
    trimStart (a ++ b) = b.trimStart := by
  rw [trimStart] at h
  rw [trimStart, List.dropWhile_append, h]
  rfl

theorem trimStart_append_cons {c : Char} {a rest : Text} (b : Text) (h : a.trimStart = c :: rest) :
    trimStart (a ++ b) = c :: (rest ++ b) := by
  rw [trimStart] at h
  rw [trimStart, List.dropWhile_append, h]
  rfl

/-- a comma behind filler is seen unless a backslash stands in front of it -/
theorem startsWithComma_iff {a : Text} (ha : a.Filler ∨ a.Parts) (rest : Text) :
    Sequence.startsWithComma (a ++ ['}']) = true ↔
      (skipFiller (a ++ '}' :: rest)).head? = some ',' ∧ (trimStart (a ++ '}' :: rest)).head? ≠ some '\\' := by
  rw [Sequence.startsWithComma, beq_iff_eq]
  rcases ha with ha | ⟨before, behind, rfl, hbefore, -⟩
  · rw [skipFiller_append ha]
    refine iff_of_false ?_ (fun h => absurd h.1 (by simp [skipFiller, isBlank, blankRanges]))
    rcases ha.trimStart with htrim | ⟨x, htrim⟩
    · rw [trimStart_append _ htrim]
      decide
    · rw [trimStart_append_cons _ htrim]
      simp
  · rw [List.append_assoc, List.append_assoc, skipFiller_append hbefore]
    rcases hbefore.trimStart with htrim | ⟨x, htrim⟩
    · rw [trimStart_append _ htrim, trimStart_append _ htrim]
      exact iff_of_true rfl ⟨rfl, by simp [trimStart, isBlank, blankRanges]⟩
    · rw [trimStart_append_cons _ htrim, trimStart_append_cons _ htrim]
      simp

end Text

namespace Sequence
variable {t : Text} {q : Sequence} {s : Setting} {p : Policy}

/-- what stands behind the last entry -/
def behind (t : Text) (q : Sequence) : Text :=
  (q.entries.getLast?.bind (fun last => t.drop? last.span.stop)).getD []

/-- the first character behind the last entry that is neither white space nor part of a joined line -/
def follower (t : Text) (q : Sequence) : Option Char :=
  (q.behind t).skipFiller.head?

/-- between braces on several lines, a backslash is the first thing behind the last entry -/
def Joined (t : Text) (q : Sequence) : Prop :=
  q.braces.isSome = true ∧ t.isSingleLine q.container = false ∧ (q.behind t).trimStart.head? = some '\\'

theorem Stands.behind_eq (h : q.Stands t s) : q.behind t = s.closing ++ s.rest := by
  obtain ⟨last, hlast, hstop⟩ := h.exists_last
  rw [behind, hlast, Option.bind_some, hstop]
  conv_lhs => rw [h.whole_row]
  rw [Text.drop?_append]
  rfl

section
variable (h : q.Stands t (q.setting t))
include h

theorem Stands.isSingleLine_rearranged :
    (q.rewritten t p).isSingleLine (q.rearranged t p).container = t.isSingleLine q.container := by
  rw [Bool.eq_iff_iff, (h.rearranged (p := p)).isSingleLine_iff, h.isSingleLine_iff, h.rearranged_texts]
  exact not_congr (h.fits.renewed_lineFeed (texts_perm p q))

/-- Without braces or on one line, nothing changes behind the last entry.  Else a comma is written there if
there was one, and what follows is the closing brace. -/
theorem Stands.behind_rearranged :
    ((q.rearranged t p).behind (q.rewritten t p) = q.behind t ∧
      ¬(q.braces.isSome = true ∧ t.isSingleLine q.container = false)) ∨
    q.braces.isSome = true ∧ t.isSingleLine q.container = false ∧ ∃ white : Text, white.Filler ∧
      (q.rearranged t p).behind (q.rewritten t p)
        = (if startsWithComma (q.setting t).closing then [','] else []) ++ (white ++ '}' :: (q.setting t).rest) := by
  have hsame (hclosing : (q.renewed t).closing = (q.setting t).closing) :
      (q.rearranged t p).behind (q.rewritten t p) = q.behind t := by
    rw [(h.rearranged (p := p)).behind_eq, h.behind_eq, hclosing, renewed, Setting.renewed_rest]
  have hsingle : t.isSingleLine q.container = false ↔ '\n' ∈ (q.setting t).inside (q.entries.map (·.text)) := by
    rw [← Bool.not_eq_true, h.isSingleLine_iff, not_not]
  rw [hsingle]
  by_cases hbraced : q.braces.isSome = true
  · have hgap := (h.fits.marked hbraced).1
    by_cases hline : '\n' ∈ (q.setting t).inside (q.entries.map (·.text))
    · refine .inr ⟨hbraced, hline,
        ((q.setting t).inside (q.entries.map (·.text))).ending ++ (q.setting t).front.openLine.blanks, ?_, ?_⟩
      · refine Text.filler_of_white (List.forall_mem_append.mpr ⟨fun c hc => ?_, fun c hc => ?_⟩)
        · exact .inr (.inr (Setting.ending_white _ c hc))
        · exact (Setting.blanks_white _ c hc).imp_right .inl
      · rw [(h.rearranged (p := p)).behind_eq, renewed, hgap, hbraced, Setting.renewed_braced hline]
        simp only [List.append_assoc, List.cons_append, List.nil_append]
    · refine .inl ⟨hsame ?_, fun hboth => hline hboth.2⟩
      rw [renewed, hgap, Setting.renewed_single hline]
  · refine .inl ⟨hsame ?_, fun hboth => hbraced hboth.1⟩
    rw [Bool.not_eq_true] at hbraced
    cases hgap : q.interleaved with
    | true => rw [renewed, hgap, Setting.renewed_among]
    | false =>
      rw [renewed, hgap, hbraced]
      by_cases hline : '\n' ∈ (q.setting t).inside (q.entries.map (·.text))
      · rw [Setting.renewed_bare hline]
      · rw [Setting.renewed_single hline]

/-- a comma behind the last entry stays where it is, unless it is behind a joined line -/
theorem Stands.follower_rearranged (hspaced : q.interleaved = false → q.Spaced t) :
    (q.rearranged t p).follower (q.rewritten t p) = some ',' ↔ q.follower t = some ',' ∧ ¬q.Joined t := by
  obtain ⟨hsame, hlines⟩ | ⟨hbraced, hline, white, hwhite, hbehind⟩ := h.behind_rearranged (p := p)
  · rw [follower, hsame, ← follower]
    exact (and_iff_left fun hjoined => hlines ⟨hjoined.1, hjoined.2.1⟩).symm
  · obtain ⟨braces, hbraces⟩ := Option.isSome_iff_exists.mp hbraced
    obtain ⟨last, hlast, hstop⟩ := h.exists_last
    obtain ⟨-, -, -, -, inner, hclosing, hinner⟩ := h.exists_marks hbraces
    obtain ⟨dropped, hdropped, hparts⟩ := (hspaced (h.fits.marked hbraced).1).back braces hbraces last hlast
    rw [hstop, hinner] at hdropped
    obtain rfl := Option.some.inj hdropped
    have hseen := Text.startsWithComma_iff hparts (q.setting t).rest
    have hold : q.behind t = inner ++ '}' :: (q.setting t).rest := by
      rw [h.behind_eq, hclosing, List.append_assoc]
      rfl
    have hnew : (q.rearranged t p).follower (q.rewritten t p) = some ',' ↔
        startsWithComma (q.setting t).closing = true := by
      rw [follower, hbehind]
      cases startsWithComma (q.setting t).closing with
      | true => exact iff_of_true rfl rfl
      | false =>
        rw [if_neg Bool.false_ne_true, List.nil_append, Text.skipFiller_append hwhite]
        simp [Text.skipFiller, isBlank, blankRanges]
    rw [hnew, hclosing, hseen, follower, hold, Joined, hold]
    simp only [hbraced, hline, true_and]

end

end Sequence

namespace Rule

theorem sequence_offered {d : Document} {rule : Rule} {s : Settings} {id : Nat} {q : Sequence}
    (h : rule.sequence s d id = some q) : d.Offers q := by
  cases rule with
  | literalOrder =>
    obtain ⟨found, hfound, hq⟩ := Option.bind_eq_some_iff.mp ((Attempt.value_bind ..).symm.trans h)
    split at hq
    next => cases hq
    next =>
      obtain rfl := Option.some.inj hq
      exact ⟨id, [], .inl hfound⟩
  | keywordOrder => exact ⟨id, _, .inr (.inl h)⟩
  | symbolOrder => exact ⟨id, _, .inr (.inr (.inl h))⟩
  | parameterOrder => exact ⟨id, [], .inr (.inr (.inr h))⟩
  | shorthand => cases h

/-- **An edit of an ordering rule keeps the layout.**  The container stays on one line or on several.  The next
thing behind the last entry is a comma if it was one before, but for a comma behind a joined line. -/
theorem edit_keeps_layout (t : Text) (d : Document) (rule : Rule) (s : Settings) (id : Nat) (o : Offense)
    (e : Edit) (hread : Document.read t = .ok d) (hrule : rule ≠ .shorthand)
    (hfound : rule.find s d id = some o) (hedit : o.edit = some e) :
    ∃ q, rule.sequence s d id = some q ∧
      q.edit t ((rule.policy s).order q.entries) = .ok e ∧
      Edit.applyAll t [e] = .ok (q.rewritten t (rule.policy s)) ∧
      (q.rearranged t (rule.policy s)).Laid (q.rewritten t (rule.policy s)) ∧
      (q.rewritten t (rule.policy s)).isSingleLine (q.rearranged t (rule.policy s)).container
        = t.isSingleLine q.container ∧
      ((q.rearranged t (rule.policy s)).follower (q.rewritten t (rule.policy s)) = some ',' ↔
        q.follower t = some ',' ∧ ¬q.Joined t) := by
  obtain ⟨q, anchor, hq, ho⟩ := find_ordered hrule hfound
  obtain ⟨hloose, hwritten⟩ := (Offense.ofOrder_value ho).2.2.2.2 e hedit
  have hoffers := sequence_offered hq
  have hstands := hoffers.stands hread
  obtain ⟨e', hedit', happly⟩ := hstands.applyAll_edit (Sequence.texts_order (rule.policy s) q)
    (Sequence.arranged_length _ q) ((rule.policy s).order_length q.entries)
  rw [(Document.placed_of_read hread).1] at hwritten
  obtain rfl := Except.ok.inj (hwritten.symm.trans hedit')
  exact ⟨q, hq, hwritten, happly, hstands.rearranged.laid, hstands.isSingleLine_rearranged,
    hstands.follower_rearranged (hoffers.spaced hread hloose)⟩

/-- a comma on a line of its own stays behind the last entry -/
theorem edit_keeps_layout_own_line :
    let t := "x = \x7b\n  b: 1,\n  a: 2 \r\n ,\n\x7d".toList
    let p := literalOrder.policy .default
    ∃ d o e q, Document.read t = .ok d ∧ literalOrder.find .default d 6 = some o ∧ o.edit = some e ∧
      literalOrder.sequence .default d 6 = some q ∧
      Edit.applyAll t [e] = .ok "x = \x7b\r\n  a: 2,\r\n  b: 1,\r\n\x7d".toList ∧ q.follower t = some ',' ∧
      (q.rearranged t p).follower (q.rewritten t p) = some ',' := by
  intro t p
  have hfacts : (Document.read t).toOption.bind (fun d => (literalOrder.find .default d 6).bind
      (fun o => o.edit.bind (fun e => (literalOrder.sequence .default d 6).map (fun q =>
        ((Edit.applyAll t [e]).toOption, q.follower t, (q.behind t).trimStart.head?)))))
      = some (some "x = \x7b\r\n  a: 2,\r\n  b: 1,\r\n\x7d".toList, some ',', some ',') := by
    decide +kernel
  obtain ⟨d, hd, hfacts⟩ := Option.bind_eq_some_iff.mp hfacts
  obtain ⟨o, ho, hfacts⟩ := Option.bind_eq_some_iff.mp hfacts
  obtain ⟨e, he, hfacts⟩ := Option.bind_eq_some_iff.mp hfacts
  obtain ⟨q, hq, hfacts⟩ := Option.map_eq_some_iff.mp hfacts
  obtain ⟨happly, hfollower, hseen⟩ : _ ∧ _ ∧ _ := by simpa only [Prod.mk.injEq] using hfacts
  have hread := eq_ok_of_toOption hd
  obtain ⟨q', hq', -, -, -, -, hcomma⟩ := edit_keeps_layout t d literalOrder .default 6 o e hread (by decide) ho he
  obtain rfl := Option.some.inj (hq.symm.trans hq')
  refine ⟨d, o, e, q, hread, ho, he, hq, eq_ok_of_toOption happly, hfollower, hcomma.mpr ⟨hfollower, ?_⟩⟩
  rintro ⟨-, -, hjoined⟩
  rw [hseen] at hjoined
  exact absurd hjoined (by decide)

/-- A comma on a line of its own is dropped where a backslash joins that line to the one of the last entry. -/
theorem literalOrder_drops_comma :
    let t := "x = \x7b\n  b: 1,\n  a: 2 \\\n,\n\x7d".toList
    let p := literalOrder.policy .default
    ∃ d o e q, Document.read t = .ok d ∧ literalOrder.find .default d 6 = some o ∧ o.edit = some e ∧
      literalOrder.sequence .default d 6 = some q ∧
      Edit.applyAll t [e] = .ok "x = \x7b\n  a: 2,\n  b: 1\n\x7d".toList ∧
      q.rewritten t p = "x = \x7b\n  a: 2,\n  b: 1\n\x7d".toList ∧ q.follower t = some ',' ∧
      (q.rearranged t p).follower "x = \x7b\n  a: 2,\n  b: 1\n\x7d".toList = some '}' := by
  intro t p
  have hfacts : (Document.read t).toOption.bind (fun d => (literalOrder.find .default d 6).bind
      (fun o => o.edit.bind (fun e => (literalOrder.sequence .default d 6).map (fun q =>
        ((Edit.applyAll t [e]).toOption, q.rewritten t p, q.follower t,
          (q.rearranged t p).follower "x = \x7b\n  a: 2,\n  b: 1\n\x7d".toList)))))
      = some (some "x = \x7b\n  a: 2,\n  b: 1\n\x7d".toList, "x = \x7b\n  a: 2,\n  b: 1\n\x7d".toList, some ',',
          some '}') := by
    decide +kernel
  obtain ⟨d, hd, hfacts⟩ := Option.bind_eq_some_iff.mp hfacts
  obtain ⟨o, ho, hfacts⟩ := Option.bind_eq_some_iff.mp hfacts
  obtain ⟨e, he, hfacts⟩ := Option.bind_eq_some_iff.mp hfacts
  obtain ⟨q, hq, hfacts⟩ := Option.map_eq_some_iff.mp hfacts
  obtain ⟨happly, hwritten, hfollower, hdropped⟩ : _ ∧ _ ∧ _ ∧ _ := by simpa only [Prod.mk.injEq] using hfacts
  exact ⟨d, o, e, q, eq_ok_of_toOption hd, ho, he, hq, eq_ok_of_toOption happly, hwritten, hfollower, hdropped⟩

end Rule

end Collate
