import Collate.Proofs.Text.OpenLine
import Collate.Proofs.Text.Woven
import Collate.Proofs.Token.Ends
import Collate.Sequence.Layout

/-!
# The setting of a sequence

A text is cut around the entries of a sequence: what stands in front of the container, between its start
and the first entry, between the entries, between the last one and its end, and behind it.  An edit writes
the texts of the entries in another order into a renewed setting.

* `Sequence.Setting`            the pieces around the texts of the entries;
* `Setting.renewed`             the pieces as an edit writes them;
* `Setting.renewed_renewed`     they are renewed to themselves, whatever the order of the texts;
* `Setting.renewed_lineFeed`    a renewed setting has line feeds if there were some before.
-/

namespace Collate

/-! ## carriage returns in front of line feeds -/

theorem hasReturnFeed_cons (c : Char) (t : Text) :
    hasReturnFeed (c :: t) = (decide (c = '\r' ∧ t.head? = some '\n') || hasReturnFeed t) := by
  by_cases hfront : c = '\r' ∧ t.head? = some '\n'
  · obtain ⟨rfl, hhead⟩ := hfront
    obtain ⟨rest, rfl⟩ := List.head?_eq_some_iff.mp hhead
    rfl
  · rw [decide_eq_false hfront, Bool.false_or, hasReturnFeed]
    rintro rest rfl rfl
    exact hfront ⟨rfl, rfl⟩

theorem hasReturnFeed_append {a b : Text} : hasReturnFeed (a ++ b) = true ↔
    hasReturnFeed a = true ∨ hasReturnFeed b = true ∨ (a.getLast? = some '\r' ∧ b.head? = some '\n') := by
  induction a with
  | nil => simp [hasReturnFeed]
  | cons c a ih =>
    rw [List.cons_append, hasReturnFeed_cons, hasReturnFeed_cons, Bool.or_eq_true, Bool.or_eq_true, ih]
    cases a with
    | nil => simp [hasReturnFeed]; tauto
    | cons d a => simp [or_assoc]

theorem hasReturnFeed_mid {piece : Text} (h : hasReturnFeed piece = true) (before behind : Text) :
    hasReturnFeed (before ++ (piece ++ behind)) = true :=
  hasReturnFeed_append.mpr (.inr (.inl (hasReturnFeed_append.mpr (.inl h))))

/-- no carriage return stands in front of a line feed, or where one may follow -/
structure Text.Unreturned (t : Text) : Prop where
  inner : hasReturnFeed t = false
  last : t.getLast? ≠ some '\r'

namespace Text.Unreturned
variable {a b : Text}

theorem nil : Unreturned [] :=
  ⟨rfl, by simp⟩

theorem append (ha : Unreturned a) (hb : Unreturned b) : Unreturned (a ++ b) := by
  constructor
  · rw [← Bool.not_eq_true, hasReturnFeed_append, ha.inner, hb.inner]
    simp [ha.last]
  · rw [List.getLast?_append]
    intro hlast
    rcases Option.or_eq_some_iff.mp hlast with hlast | ⟨-, hlast⟩
    · exact hb.last hlast
    · exact ha.last hlast

theorem of_not_mem (h : '\r' ∉ a) : Unreturned a := by
  constructor
  · induction a with
    | nil => rfl
    | cons c a ih =>
      obtain ⟨hc, ha⟩ := not_or.mp (List.mem_cons.not.mp h)
      rw [hasReturnFeed_cons, ih ha, Bool.or_false, decide_eq_false_iff_not]
      exact fun hfront => hc hfront.1.symm
  · exact fun hlast => h (List.mem_of_getLast? hlast)

theorem woven {gaps texts : List Text} (hgaps : ∀ gap ∈ gaps, Unreturned gap)
    (htexts : ∀ text ∈ texts, Unreturned text) : Unreturned (woven gaps texts) := by
  induction gaps generalizing texts with
  | nil => exact nil
  | cons gap gaps ih =>
    cases texts with
    | nil => exact nil
    | cons text texts =>
      obtain ⟨hgap, hgaps⟩ := List.forall_mem_cons.mp hgaps
      obtain ⟨htext, htexts⟩ := List.forall_mem_cons.mp htexts
      exact (hgap.append htext).append (ih hgaps htexts)

end Text.Unreturned

/-- a text that ends with a loud character has no return at its end -/
theorem Text.Sharp.unreturned {text : Text} (h : text.Sharp) (hinner : hasReturnFeed text = false) :
    text.Unreturned := by
  refine ⟨hinner, ?_⟩
  obtain ⟨rest, c, rfl, hc⟩ := h.last
  rw [List.getLast?_concat]
  intro hlast
  rw [Option.some.inj hlast] at hc
  cases hc

/-! ## texts between gaps -/

namespace Text

theorem mem_woven {c : Char} {gaps texts : List Text} (h : gaps.length = texts.length) :
    c ∈ woven gaps texts ↔ (∃ gap ∈ gaps, c ∈ gap) ∨ ∃ text ∈ texts, c ∈ text := by
  induction gaps generalizing texts with
  | nil =>
    obtain rfl := List.length_eq_zero_iff.mp h.symm
    simp [woven]
  | cons gap gaps ih =>
    cases texts with
    | nil => cases h
    | cons text texts =>
      rw [woven_cons, List.mem_append, List.mem_append, ih (Nat.succ.inj h)]
      simp only [List.mem_cons, exists_eq_or_imp]
      exact or_or_or_comm

theorem exists_of_woven {piece : Text} {gaps texts : List Text} (h : gaps.length = texts.length)
    (hmem : piece ∈ gaps ∨ piece ∈ texts) : ∃ before behind, woven gaps texts = before ++ (piece ++ behind) := by
  induction gaps generalizing texts with
  | nil =>
    obtain rfl := List.length_eq_zero_iff.mp h.symm
    simp at hmem
  | cons gap gaps ih =>
    cases texts with
    | nil => cases h
    | cons text texts =>
      have hlater (hmem : piece ∈ gaps ∨ piece ∈ texts) :
          ∃ before behind, woven (gap :: gaps) (text :: texts) = before ++ (piece ++ behind) := by
        obtain ⟨before, behind, hrest⟩ := ih (Nat.succ.inj h) hmem
        exact ⟨gap ++ text ++ before, behind, by rw [woven_cons, hrest]; simp⟩
      rcases hmem with hmem | hmem
      · rcases List.mem_cons.mp hmem with rfl | hmem
        · exact ⟨[], text ++ woven gaps texts, by rw [woven_cons]; simp⟩
        · exact hlater (.inl hmem)
      · rcases List.mem_cons.mp hmem with rfl | hmem
        · exact ⟨gap, woven gaps texts, by rw [woven_cons]; simp⟩
        · exact hlater (.inr hmem)

def ending (inside : Text) : Text :=
  if hasReturnFeed inside then ['\r', '\n'] else ['\n']

/-- the indentation of a line with these characters in front of the first entry -/
def indent (line : Text) : Text :=
  if (blanks line).size = line.size then blanks line else List.replicate line.size ' '

end Text

/-! ## settings -/

namespace Sequence

/-- what stands around the texts of the entries of a sequence -/
structure Setting where
  /-- in front of the container -/
  front : Text
  /-- from the start of the container to the first entry -/
  opening : Text
  /-- between neighbours -/
  gaps : List Text
  /-- from the last entry to the end of the container -/
  closing : Text
  /-- behind the container -/
  rest : Text

namespace Setting
variable {s : Setting} {texts texts' : List Text} {interleaved braced : Bool}

def row (s : Setting) (texts : List Text) : Text :=
  Text.woven ([] :: s.gaps) texts

/-- the text of the container -/
def inside (s : Setting) (texts : List Text) : Text :=
  s.opening ++ s.row texts ++ s.closing

def whole (s : Setting) (texts : List Text) : Text :=
  s.front ++ s.inside texts ++ s.rest

/-- the line of the first entry, up to it -/
def line (s : Setting) : Text :=
  (s.front ++ s.opening).openLine

/-- The setting into which an edit writes the entries.  Among other siblings it stays as it is.  On one line
a comma and a blank stand in the gaps.  On several lines every entry gets a line of its own, and so do the
braces. -/
def renewed (s : Setting) (texts : List Text) (interleaved braced : Bool) : Setting :=
  let ending := (s.inside texts).ending
  let later := texts.length - 1
  if interleaved then s
  else if '\n' ∉ s.inside texts then
    { s with gaps := List.replicate later [',', ' '] }
  else if braced then
    { s with
      opening := '{' :: (ending ++ s.line.indent)
      gaps := List.replicate later (',' :: (ending ++ s.line.indent))
      closing := (if startsWithComma s.closing then [','] else []) ++
        (ending ++ (s.front.openLine.blanks ++ ['}'])) }
  else
    { s with gaps := List.replicate later (',' :: (ending ++ List.replicate s.line.size ' ')) }

/-- the setting is cut around two or more texts, with braces at the ends of the container if it has them -/
structure Fits (s : Setting) (texts : List Text) (interleaved braced : Bool) : Prop where
  two : 2 ≤ texts.length
  length : s.gaps.length + 1 = texts.length
  sharp : ∀ text ∈ texts, text.Sharp
  bare : braced = false → s.opening = [] ∧ s.closing = []
  marked : braced = true → interleaved = false ∧
    (∃ rest, s.opening = '{' :: rest) ∧ ∃ rest, s.closing = rest ++ ['}']

theorem mem_inside {c : Char} (h : s.gaps.length + 1 = texts.length) : c ∈ s.inside texts ↔
    c ∈ s.opening ∨ (∃ gap ∈ s.gaps, c ∈ gap) ∨ (∃ text ∈ texts, c ∈ text) ∨ c ∈ s.closing := by
  have hlength : ([] :: s.gaps).length = texts.length := h
  rw [inside, row, List.mem_append, List.mem_append, Text.mem_woven hlength]
  simp only [List.mem_cons, exists_eq_or_imp, List.not_mem_nil, false_or, or_assoc]

theorem exists_of_inside {piece : Text} (h : s.gaps.length + 1 = texts.length)
    (hmem : piece ∈ s.gaps ∨ piece ∈ texts) :
    ∃ before behind, s.inside texts = before ++ (piece ++ behind) := by
  have hlength : ([] :: s.gaps).length = texts.length := h
  obtain ⟨before, behind, hrow⟩ := Text.exists_of_woven hlength (hmem.imp_left (List.mem_cons_of_mem []))
  exact ⟨s.opening ++ before, behind ++ s.closing, by rw [inside, row, hrow]; simp⟩

/-! ## what is written -/

theorem renewed_among (s : Setting) (texts : List Text) (braced : Bool) : s.renewed texts true braced = s := by
  rw [renewed, if_pos rfl]

theorem renewed_single (h : '\n' ∉ s.inside texts) : s.renewed texts false braced
    = { s with gaps := List.replicate (texts.length - 1) [',', ' '] } := by
  rw [renewed, if_neg Bool.false_ne_true, if_pos h]

theorem renewed_braced (h : '\n' ∈ s.inside texts) : s.renewed texts false true
    = { s with
        opening := '{' :: ((s.inside texts).ending ++ s.line.indent)
        gaps := List.replicate (texts.length - 1) (',' :: ((s.inside texts).ending ++ s.line.indent))
        closing := (if startsWithComma s.closing then [','] else []) ++
          ((s.inside texts).ending ++ (s.front.openLine.blanks ++ ['}'])) } := by
  rw [renewed, if_neg Bool.false_ne_true, if_neg (not_not_intro h), if_pos rfl]

theorem renewed_bare (h : '\n' ∈ s.inside texts) : s.renewed texts false false
    = { s with
        gaps := List.replicate (texts.length - 1)
          (',' :: ((s.inside texts).ending ++ List.replicate s.line.size ' ')) } := by
  rw [renewed, if_neg Bool.false_ne_true, if_neg (not_not_intro h), if_neg Bool.false_ne_true]

@[simp]
theorem renewed_front (s : Setting) (texts : List Text) (interleaved braced : Bool) :
    (s.renewed texts interleaved braced).front = s.front := by
  unfold renewed
  dsimp only
  split_ifs <;> rfl

@[simp]
theorem renewed_rest (s : Setting) (texts : List Text) (interleaved braced : Bool) :
    (s.renewed texts interleaved braced).rest = s.rest := by
  unfold renewed
  dsimp only
  split_ifs <;> rfl

theorem Fits.renewed_length (h : s.Fits texts interleaved braced) :
    (s.renewed texts interleaved braced).gaps.length + 1 = texts.length := by
  have htwo := h.two
  have hlater (separator : Text) : (List.replicate (texts.length - 1) separator).length + 1 = texts.length := by
    rw [List.length_replicate]
    omega
  unfold renewed
  dsimp only
  split
  · exact h.length
  · split
    · exact hlater _
    · split
      · exact hlater _
      · exact hlater _

theorem Fits.renewed (h : s.Fits texts interleaved braced) (hperm : texts.Perm texts') :
    (s.renewed texts interleaved braced).Fits texts' interleaved braced := by
  refine ⟨hperm.length_eq ▸ h.two, h.renewed_length.trans hperm.length_eq,
    fun text htext => h.sharp text (hperm.mem_iff.mpr htext), fun hbare => ?_, fun hmarked => ?_⟩
  · subst hbare
    have hends := h.bare rfl
    cases interleaved with
    | true =>
      rw [renewed_among]
      exact hends
    | false =>
      by_cases hline : '\n' ∈ s.inside texts
      · rw [renewed_bare hline]
        exact hends
      · rw [renewed_single hline]
        exact hends
  · subst hmarked
    obtain ⟨rfl, hopening, hclosing⟩ := h.marked rfl
    by_cases hline : '\n' ∈ s.inside texts
    · rw [renewed_braced hline]
      refine ⟨rfl, ⟨_, rfl⟩, ?_⟩
      simp only [← List.append_assoc]
      exact ⟨_, rfl⟩
    · rw [renewed_single hline]
      exact ⟨rfl, hopening, hclosing⟩

/-! ## line ends -/

theorem lineFeed_mem_ending (t : Text) : '\n' ∈ t.ending := by
  unfold Text.ending
  split <;> simp

theorem ending_white (t : Text) : ∀ c ∈ t.ending, c = '\r' ∨ c = '\n' := by
  unfold Text.ending
  split <;> simp

theorem blanks_white (t : Text) : ∀ c ∈ t.blanks, c = ' ' ∨ c = '\t' :=
  fun c hc => by simpa using List.mem_takeWhile_imp hc

/-- line feeds in a container stay, and none is written into one without -/
theorem Fits.renewed_lineFeed (h : s.Fits texts interleaved braced) (hperm : texts.Perm texts') :
    '\n' ∈ (s.renewed texts interleaved braced).inside texts' ↔ '\n' ∈ s.inside texts := by
  have htwo := h.two
  have hlength := hperm.length_eq
  have htexts (c : Char) : (∃ text ∈ texts', c ∈ text) ↔ ∃ text ∈ texts, c ∈ text := by
    simp only [hperm.mem_iff]
  have hlater (separator : Text) : (List.replicate (texts.length - 1) separator).length + 1 = texts'.length := by
    rw [List.length_replicate]
    omega
  cases interleaved with
  | true => rw [renewed_among, mem_inside h.length, mem_inside (hlength ▸ h.length), htexts]
  | false =>
    by_cases hline : '\n' ∈ s.inside texts
    · refine iff_of_true ?_ hline
      cases braced with
      | true =>
        rw [renewed_braced hline, mem_inside (hlater _)]
        simp [lineFeed_mem_ending]
      | false =>
        rw [renewed_bare hline, mem_inside (hlater _)]
        refine .inr (.inl ⟨_, List.mem_replicate.mpr ⟨by omega, rfl⟩, ?_⟩)
        simp [lineFeed_mem_ending]
    · refine iff_of_false ?_ hline
      rw [renewed_single hline, mem_inside (hlater _), htexts]
      rw [mem_inside h.length] at hline
      rintro (hopening | ⟨gap, hgap, hmem⟩ | hrest)
      · exact hline (.inl hopening)
      · rw [List.eq_of_mem_replicate hgap] at hmem
        simp at hmem
      · exact hline (.inr (.inr hrest))

theorem blanks_unreturned (t : Text) : t.blanks.Unreturned :=
  .of_not_mem fun hmem => nomatch List.mem_takeWhile_imp hmem

theorem indent_unreturned (line : Text) : line.indent.Unreturned := by
  unfold Text.indent
  split
  · exact blanks_unreturned line
  · exact .of_not_mem fun hmem => nomatch List.eq_of_mem_replicate hmem

/-- a return in front of a line feed inside a text is one of the container -/
theorem Fits.texts_unreturned (h : s.Fits texts interleaved braced)
    (hreturn : hasReturnFeed (s.inside texts) = false) : ∀ text ∈ texts, text.Unreturned := by
  intro text hmem
  refine (h.sharp text hmem).unreturned (Bool.not_eq_true _ ▸ fun hinner => ?_)
  obtain ⟨before, behind, hinside⟩ := exists_of_inside h.length (.inr hmem)
  rw [hinside, hasReturnFeed_mid hinner] at hreturn
  cases hreturn

/-- where the line end has a carriage return, one is written in front of a line feed -/
theorem Fits.renewed_return (h : s.Fits texts false braced) (hperm : texts.Perm texts')
    (hline : '\n' ∈ s.inside texts) (hending : (s.inside texts).ending = ['\r', '\n']) :
    hasReturnFeed ((s.renewed texts false braced).inside texts') = true := by
  have htwo := h.two
  have hgaps := h.renewed_length.trans hperm.length_eq
  cases braced with
  | true =>
    rw [renewed_braced hline, hending, inside, List.append_assoc]
    exact hasReturnFeed_append.mpr (.inl rfl)
  | false =>
    rw [renewed_bare hline, hending] at hgaps ⊢
    obtain ⟨before, behind, hinside⟩ := exists_of_inside hgaps
      (.inl (List.mem_replicate.mpr ⟨by omega, rfl⟩))
    rw [hinside]
    exact hasReturnFeed_mid rfl before behind

theorem Fits.renewed_unreturned (h : s.Fits texts false braced) (hperm : texts.Perm texts')
    (hline : '\n' ∈ s.inside texts) (hreturn : hasReturnFeed (s.inside texts) = false)
    (hending : (s.inside texts).ending = ['\n']) :
    hasReturnFeed ((s.renewed texts false braced).inside texts') = false := by
  have hfeed : Text.Unreturned ['\n'] := .of_not_mem (by simp)
  have hcomma : Text.Unreturned [','] := .of_not_mem (by simp)
  have hrow {gap : Text} (hgap : gap.Unreturned) :
      (Text.woven ([] :: List.replicate (texts.length - 1) gap) texts').Unreturned := by
    refine .woven (List.forall_mem_cons.mpr ⟨.nil, fun other hmem => ?_⟩)
      fun text hmem => h.texts_unreturned hreturn text (hperm.mem_iff.mpr hmem)
    rw [List.eq_of_mem_replicate hmem]
    exact hgap
  cases braced with
  | true =>
    have hindent := hfeed.append (indent_unreturned s.line)
    have hopen : Text.Unreturned ['{'] := .of_not_mem (by simp)
    have hclose : Text.Unreturned ['}'] := .of_not_mem (by simp)
    have hend := hfeed.append ((blanks_unreturned s.front.openLine).append hclose)
    have htrailing : Text.Unreturned (if startsWithComma s.closing then [','] else []) := by
      split
      · exact hcomma
      · exact .nil
    rw [renewed_braced hline, hending]
    exact (((hopen.append hindent).append (hrow (hcomma.append hindent))).append (htrailing.append hend)).inner
  | false =>
    obtain ⟨hopening, hclosing⟩ := h.bare rfl
    have hblanks : Text.Unreturned (List.replicate s.line.size ' ') :=
      .of_not_mem fun hmem => nomatch List.eq_of_mem_replicate hmem
    rw [renewed_bare hline, hending, inside, hopening, hclosing]
    exact ((Text.Unreturned.nil.append (hrow (hcomma.append (hfeed.append hblanks)))).append .nil).inner

theorem Fits.renewed_ending (h : s.Fits texts false braced) (hperm : texts.Perm texts')
    (hline : '\n' ∈ s.inside texts) :
    ((s.renewed texts false braced).inside texts').ending = (s.inside texts).ending := by
  suffices hsame : hasReturnFeed ((s.renewed texts false braced).inside texts') = hasReturnFeed (s.inside texts) by
    rw [Text.ending, Text.ending, hsame]
  cases hreturn : hasReturnFeed (s.inside texts) with
  | true => exact h.renewed_return hperm hline (if_pos hreturn)
  | false => exact h.renewed_unreturned hperm hline hreturn (if_neg (by rw [hreturn]; simp))

/-! ## settling -/

theorem openLine_ending {t line : Text} (h : '\n' ∉ line) (front : Text) :
    (front ++ (t.ending ++ line)).openLine = line := by
  unfold Text.ending
  split
  · have hsplit : front ++ (['\r', '\n'] ++ line) = (front ++ ['\r']) ++ '\n' :: line := by simp
    rw [hsplit, Text.openLine_append_cons h]
  · exact Text.openLine_append_cons h

theorem blanks_eq_self {line : Text} (h : ∀ c ∈ line, c = ' ' ∨ c = '\t') : line.blanks = line :=
  List.takeWhile_eq_self_iff.mpr fun c hc => by simpa using h c hc

theorem indent_white (line : Text) : ∀ c ∈ line.indent, c = ' ' ∨ c = '\t' := by
  unfold Text.indent
  split
  · exact blanks_white line
  · exact fun c hc => .inl (List.eq_of_mem_replicate hc)

theorem indent_indent (line : Text) : line.indent.indent = line.indent := by
  rw [Text.indent, blanks_eq_self (indent_white line), if_pos rfl]

theorem startsWithComma_closing (comma : Bool) (t line : Text) :
    startsWithComma ((if comma then [','] else []) ++ (t.ending ++ (line.blanks ++ ['}']))) = comma := by
  cases comma with
  | true => rfl
  | false =>
    have hending : ∀ c ∈ t.ending, isBlank c = true := by
      intro c hc
      rcases ending_white t c hc with rfl | rfl <;> decide
    have hblanks : ∀ c ∈ line.blanks, isBlank c = true := by
      intro c hc
      rcases blanks_white line c hc with rfl | rfl <;> decide
    have hwhite := List.forall_mem_append.mpr ⟨hending, hblanks⟩
    rw [if_neg Bool.false_ne_true, List.nil_append, ← List.append_assoc, startsWithComma, Text.trimStart,
      List.dropWhile_append_of_pos hwhite]
    rfl

/-- **A renewed setting is renewed to itself**, whatever the order of the texts. -/
theorem Fits.renewed_renewed (h : s.Fits texts interleaved braced) (hperm : texts.Perm texts') :
    (s.renewed texts interleaved braced).renewed texts' interleaved braced
      = s.renewed texts interleaved braced := by
  have hlength := hperm.length_eq
  have hlineFeed := h.renewed_lineFeed hperm
  cases interleaved with
  | true => rw [renewed_among, renewed_among]
  | false =>
    by_cases hline : '\n' ∈ s.inside texts
    · have hending := h.renewed_ending hperm hline
      have hline' := hlineFeed.mpr hline
      cases braced with
      | true =>
        rw [renewed_braced hline', hending, renewed_braced hline, ← hlength]
        have hopen : (Setting.line { s with
            opening := '{' :: ((s.inside texts).ending ++ s.line.indent)
            gaps := List.replicate (texts.length - 1) (',' :: ((s.inside texts).ending ++ s.line.indent))
            closing := (if startsWithComma s.closing then [','] else []) ++
              ((s.inside texts).ending ++ (s.front.openLine.blanks ++ ['}'])) }) = s.line.indent := by
          have hfeed : '\n' ∉ s.line.indent := fun hmem => by simpa using indent_white s.line '\n' hmem
          have hfront : s.front ++ ('{' :: ((s.inside texts).ending ++ s.line.indent))
              = (s.front ++ ['{']) ++ ((s.inside texts).ending ++ s.line.indent) := by simp
          rw [line, hfront, openLine_ending hfeed]
        rw [hopen, indent_indent]
        simp only [startsWithComma_closing]
      | false =>
        rw [renewed_bare hline', hending, renewed_bare hline, ← hlength]
        rfl
    · have hline' := hlineFeed.not.mpr hline
      rw [renewed_single hline', renewed_single hline, ← hlength]

end Setting

end Sequence

end Collate
