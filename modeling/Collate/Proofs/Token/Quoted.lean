import Mathlib.Data.List.Basic
import Collate.Proofs.Text.Bytes
import Collate.Proofs.Text.Slice
import Collate.Proofs.Token.Lexeme

/-!
# The grammar of quoted text

The content of a quoted text is a sequence of items: a byte, a backslash with the byte behind it, and
between double quotes an interpolation from `#` to the brace that closes it.  No item begins with the
quote, and two items that begin alike are one, so there is at most one way to read a text as items up
to a place where no item begins.  The scan reads it in that way.

* `Quoted.Item`, `Quoted.Items`     one item of the content, and a sequence of them;
* `Quoted.Items.unique`             a text is read as items in one way only;
* `Quoted.Closed`, `Quoted.Inside`  the items run up to a closing quote, or into an open interpolation;
* `quotedContent_scanned`           the scan takes items, in every state;
* `Lexeme.Decided`, `Lexeme.quoted_decided`   what the scan gives at a quote of a text.
-/

namespace Collate

namespace Quoted

def doubleQuote : UInt8 := asciiByte '"'
def backslash : UInt8 := asciiByte '\\'
def hash : UInt8 := asciiByte '#'
def leftBrace : UInt8 := asciiByte '\x7b'
def rightBrace : UInt8 := asciiByte '\x7d'

/-- from an opening brace up to the first brace that leaves none open -/
structure Braced (group : List UInt8) : Prop where
  opens : group.head? = some leftBrace
  closes : group.count rightBrace = group.count leftBrace
  first : ∀ part, part <+: group → part ≠ [] → part ≠ group →
    part.count rightBrace < part.count leftBrace

/-- from an opening brace on, always inside a brace -/
structure Unclosed (group : List UInt8) : Prop where
  opens : group.head? = some leftBrace
  inside : ∀ part, part <+: group → part ≠ [] → part.count rightBrace < part.count leftBrace

/-- an item of the content, in front of what follows it -/
inductive Item (quote : UInt8) : List UInt8 → List UInt8 → Prop
  | plain (b : UInt8) {following : List UInt8} (hquote : b ≠ quote) (hback : b ≠ backslash)
      (hhash : quote = doubleQuote → b = hash → following.head? ≠ some leftBrace) :
      Item quote [b] following
  | escaped (b : UInt8) {following : List UInt8} : Item quote [backslash, b] following
  | interpolation {group following : List UInt8} (hquote : quote = doubleQuote)
      (hgroup : Braced group) : Item quote (hash :: group) following

/-- items one behind the other, in front of what follows the last one -/
inductive Items (quote : UInt8) : List UInt8 → List UInt8 → Prop
  | nil {following : List UInt8} : Items quote [] following
  | cons {item content following : List UInt8} (first : Item quote item (content ++ following))
      (rest : Items quote content following) : Items quote (item ++ content) following

/-- the content is items, and a quote closes it -/
def Closed (quote : UInt8) (input content behind : List UInt8) : Prop :=
  input = content ++ quote :: behind ∧ Items quote content (quote :: behind)

/-- the input ends inside an interpolation -/
def Inside (quote : UInt8) (input : List UInt8) : Prop :=
  quote = doubleQuote ∧ ∃ content group, input = content ++ hash :: group ∧
    Items quote content (hash :: group) ∧ Unclosed group

/-- the input ends between two items, or behind a backslash -/
def Exhausted (quote : UInt8) (input : List UInt8) : Prop :=
  ∃ content last, input = content ++ last ∧ Items quote content last ∧ (last = [] ∨ last = [backslash])

/-- one of the two quotes -/
def IsQuote (quote : UInt8) : Prop :=
  quote = asciiByte '\'' ∨ quote = doubleQuote

section
variable {quote : UInt8}

theorem IsQuote.ne_backslash (h : IsQuote quote) : quote ≠ backslash := by
  rcases h with rfl | rfl <;> decide

theorem IsQuote.ne_hash (h : IsQuote quote) : quote ≠ hash := by
  rcases h with rfl | rfl <;> decide

/-! ## one way to read -/

theorem Braced.ne_nil {group : List UInt8} (h : Braced group) : group ≠ [] := by
  rintro rfl
  exact absurd h.opens (by simp)

/-- of two groups with the same beginning, none goes on where the other one ends -/
theorem Braced.eq_of_prefix {group other : List UInt8} (hgroup : Braced group) (hother : Braced other)
    (hstarts : group <+: other) : group = other := by
  by_contra hne
  have hlt := hother.first group hstarts hgroup.ne_nil hne
  rw [hgroup.closes] at hlt
  exact Nat.lt_irrefl _ hlt

theorem Braced.unique {group other following behind : List UInt8} (hgroup : Braced group)
    (hother : Braced other) (h : group ++ following = other ++ behind) : group = other := by
  have hleft : group <+: other ++ behind := ⟨following, h⟩
  rcases List.prefix_or_prefix_of_prefix hleft (List.prefix_append other behind) with hle | hle
  · exact hgroup.eq_of_prefix hother hle
  · exact (hother.eq_of_prefix hgroup hle).symm

theorem head?_append_of_eq_some {group : List UInt8} {b : UInt8} (h : group.head? = some b)
    (following : List UInt8) : (group ++ following).head? = some b := by
  rw [List.head?_append, h, Option.some_or]

theorem Item.unique {item other following behind : List UInt8} (hitem : Item quote item following)
    (hother : Item quote other behind) (h : item ++ following = other ++ behind) : item = other := by
  cases hitem with
  | plain b hquote hback hhash =>
    cases hother with
    | plain b' => rw [(List.cons.inj h).1]
    | escaped b' => exact absurd (List.cons.inj h).1 hback
    | interpolation hdouble hgroup =>
      obtain ⟨hb, rfl⟩ := List.cons.inj h
      exact absurd (head?_append_of_eq_some hgroup.opens behind) (hhash hdouble hb)
  | escaped b =>
    cases hother with
    | plain b' hquote hback => exact absurd (List.cons.inj h).1.symm hback
    | escaped b' => rw [(List.cons.inj (List.cons.inj h).2).1]
    | interpolation => exact absurd (List.cons.inj h).1 (by decide)
  | interpolation hdouble hgroup =>
    cases hother with
    | plain b' hquote hback hhash =>
      obtain ⟨hb, rfl⟩ := List.cons.inj h
      exact absurd (head?_append_of_eq_some hgroup.opens following) (hhash hdouble hb.symm)
    | escaped b' => exact absurd (List.cons.inj h).1 (by decide)
    | interpolation _ hgroup' => rw [hgroup.unique hgroup' (List.cons.inj h).2]

/-- no item begins here -/
def Stops (quote : UInt8) (input : List UInt8) : Prop :=
  ∀ item following, Item quote item following → input ≠ item ++ following

/-- up to a place where no item begins, a text is read as items in one way -/
theorem Items.unique {content other following behind : List UInt8} (h : Items quote content following)
    (hother : Items quote other behind) (heq : content ++ following = other ++ behind)
    (hstop : Stops quote following) (hstop' : Stops quote behind) : content = other := by
  induction h generalizing other with
  | nil =>
    cases hother with
    | nil => rfl
    | cons first rest =>
      rw [List.append_assoc] at heq
      exact absurd heq (hstop _ _ first)
  | cons first rest ih =>
    cases hother with
    | nil =>
      rw [List.append_assoc] at heq
      exact absurd heq.symm (hstop' _ _ first)
    | cons first' rest' =>
      rw [List.append_assoc, List.append_assoc] at heq
      obtain rfl := first.unique first' heq
      rw [ih rest' (List.append_cancel_left heq) hstop]

theorem stops_quote (hquote : IsQuote quote) (behind : List UInt8) : Stops quote (quote :: behind) := by
  intro item following hitem h
  cases hitem with
  | plain b hb => exact hb (List.cons.inj h).1.symm
  | escaped b => exact hquote.ne_backslash (List.cons.inj h).1
  | interpolation => exact hquote.ne_hash (List.cons.inj h).1

theorem stops_end {last : List UInt8} (hlast : last = [] ∨ last = [backslash]) : Stops quote last := by
  intro item following hitem h
  cases hitem with
  | plain b hquote hback =>
    rcases hlast with rfl | rfl
    · cases h
    · exact hback (List.cons.inj h).1.symm
  | escaped b => rcases hlast with rfl | rfl <;> cases h
  | interpolation =>
    rcases hlast with rfl | rfl
    · cases h
    · exact absurd (List.cons.inj h).1 (by decide)

theorem stops_unclosed (hdouble : quote = doubleQuote) {group : List UInt8} (hgroup : Unclosed group) :
    Stops quote (hash :: group) := by
  intro item following hitem h
  cases hitem with
  | plain b hquote hback hhash =>
    obtain ⟨hb, rfl⟩ := List.cons.inj h
    exact hhash hdouble hb.symm hgroup.opens
  | escaped b => exact absurd (List.cons.inj h).1 (by decide)
  | interpolation _ hclosed =>
    obtain ⟨-, rfl⟩ := List.cons.inj h
    have hlt := hgroup.inside _ (List.prefix_append _ following) hclosed.ne_nil
    rw [hclosed.closes] at hlt
    exact Nat.lt_irrefl _ hlt

theorem Closed.unique (hquote : IsQuote quote) {input content other behind behind' : List UInt8}
    (h : Closed quote input content behind) (h' : Closed quote input other behind') : content = other :=
  h.2.unique h'.2 (h.1.symm.trans h'.1) (stops_quote hquote behind) (stops_quote hquote behind')

/-- a text that is closed by a quote does not end inside an interpolation -/
theorem Closed.not_inside (hquote : IsQuote quote) {input content behind : List UInt8}
    (h : Closed quote input content behind) : ¬ Inside quote input := by
  rintro ⟨hdouble, other, group, hinput, hitems, hgroup⟩
  have heq := h.1.symm.trans hinput
  obtain rfl := h.2.unique hitems heq (stops_quote hquote behind) (stops_unclosed hdouble hgroup)
  exact hquote.ne_hash (List.cons.inj (List.append_cancel_left heq)).1

theorem Exhausted.not_closed (hquote : IsQuote quote) {input content behind : List UInt8}
    (h : Exhausted quote input) : ¬ Closed quote input content behind := by
  obtain ⟨other, last, hinput, hitems, hlast⟩ := h
  rintro ⟨hinput', hitems'⟩
  have heq := hinput.symm.trans hinput'
  obtain rfl := hitems.unique hitems' heq (stops_end hlast) (stops_quote hquote behind)
  rcases hlast with rfl | rfl
  · cases List.append_cancel_left heq
  · exact hquote.ne_backslash (List.cons.inj (List.append_cancel_left heq)).1.symm

theorem Exhausted.not_inside {input : List UInt8} (h : Exhausted quote input) :
    ¬ Inside quote input := by
  obtain ⟨other, last, hinput, hitems, hlast⟩ := h
  rintro ⟨hdouble, content, group, hinput', hitems', hgroup⟩
  have heq := hinput.symm.trans hinput'
  obtain rfl := hitems.unique hitems' heq (stops_end hlast) (stops_unclosed hdouble hgroup)
  rcases hlast with rfl | rfl
  · cases List.append_cancel_left heq
  · exact absurd (List.cons.inj (List.append_cancel_left heq)).1 (by decide)

/-! ## items of characters -/

theorem Items.append {content more following input : List UInt8} (h : Items quote content input)
    (hinput : input = more ++ following) (hmore : Items quote more following) :
    Items quote (content ++ more) following := by
  induction h with
  | nil => exact hmore
  | cons first rest ih =>
    subst hinput
    rw [List.append_assoc]
    exact .cons (by rwa [List.append_assoc]) (ih rfl)

theorem Items.single {item following : List UInt8} (h : Item quote item following) :
    Items quote item following := by
  have hitems : Items quote (item ++ []) following := .cons (by rwa [List.nil_append]) .nil
  rwa [List.append_nil] at hitems

theorem Items.high (hquote : IsQuote quote) {bytes : List UInt8} (h : ∀ b ∈ bytes, 128 ≤ b.toNat)
    (following : List UInt8) : Items quote bytes following := by
  induction bytes with
  | nil => exact .nil
  | cons b bs ih =>
    have hb := h b List.mem_cons_self
    -- the marks of the grammar are bytes of ASCII
    have hne {mark : UInt8} (hmark : mark.toNat < 128) : b ≠ mark := by
      rintro rfl
      omega
    have hmark : quote.toNat < 128 := by
      rcases hquote with rfl | rfl <;> decide
    have hitem : Item quote [b] (bs ++ following) :=
      .plain b (hne hmark) (hne (by decide)) fun _ hhash => absurd hhash (hne (by decide))
    exact .cons hitem (ih fun b hmem => h b (List.mem_cons_of_mem _ hmem))

/-- the first byte of a text of characters stands for its first character, if it is a byte of ASCII -/
theorem head?_bytes {d : Char} (hd : d.toNat < 128) {t : Text} (h : t.bytes.head? = some (asciiByte d)) :
    t.head? = some d := by
  cases t with
  | nil => cases h
  | cons c cs =>
    rw [Text.bytes_cons, List.head?_append_of_ne_nil _ String.utf8EncodeChar_ne_nil] at h
    rw [List.head?_cons, (asciiByte_mem_utf8EncodeChar hd).mp (List.mem_of_head? h)]

/-- what begins with an opening brace, and not in its second part, has one in the first -/
theorem head?_bytes_of_head?_append {front rest : Text} {c : Char} (h : (front ++ c :: rest).head? = some '\x7b')
    (hc : c ≠ '\x7b') : front.bytes.head? = some leftBrace := by
  cases front with
  | nil => exact absurd (Option.some.inj h) hc
  | cons d ds =>
    obtain rfl := Option.some.inj h
    rfl

end

/-! ## the scan -/

section
variable {quote : Char}

/-- a character is one item or several, unless it is the quote, a backslash or opens an interpolation -/
theorem items_char (hquote : quote = '\'' ∨ quote = '"') {c : Char} {rest : Text} (hback : c ≠ '\\')
    (hend : c ≠ quote) (hhash : ¬(c = '#' ∧ quote = '"' ∧ rest.head? = some '\x7b')) :
    Items (asciiByte quote) (String.utf8EncodeChar c) rest.bytes := by
  have hascii : quote.toNat < 128 := by
    rcases hquote with rfl | rfl <;> decide
  rcases Nat.lt_or_ge c.toNat 128 with hc | hc
  · rw [utf8EncodeChar_ascii hc]
    refine .single (.plain _ ?_ ?_ fun hdouble hb hbrace => hhash ⟨?_, ?_, ?_⟩)
    · rwa [ne_eq, asciiByte_inj hc hascii]
    · rwa [ne_eq, backslash, asciiByte_inj hc (by decide)]
    · rwa [hash, asciiByte_inj hc (by decide)] at hb
    · rwa [doubleQuote, asciiByte_inj hascii (by decide)] at hdouble
    · exact head?_bytes (by decide) hbrace
  · exact .high (by rcases hquote with rfl | rfl; exacts [.inl rfl, .inr rfl]) (le_of_mem_utf8EncodeChar hc) _

theorem items_escaped (hquote : IsQuote (asciiByte quote)) (c : Char) (following : List UInt8) :
    Items (asciiByte quote) (Text.bytes ['\\', c]) following := by
  have hbytes : Text.bytes ['\\', c] = backslash :: String.utf8EncodeChar c := by
    rw [Text.bytes_cons, Text.bytes_singleton]
    rfl
  rw [hbytes]
  rcases Nat.lt_or_ge c.toNat 128 with hc | hc
  · rw [utf8EncodeChar_ascii hc]
    exact .single (.escaped _)
  · have hhigh := le_of_mem_utf8EncodeChar hc
    cases hbytes : String.utf8EncodeChar c with
    | nil => exact absurd hbytes String.utf8EncodeChar_ne_nil
    | cons b bs =>
      -- the backslash takes the first byte only, the others are items of their own
      rw [hbytes] at hhigh
      exact .cons (.escaped b) (.high hquote (fun b hb => hhigh b (List.mem_cons_of_mem _ hb)) _)

/-- the beginning of a group that leaves some braces open -/
structure Within (depth : Nat) (front : List UInt8) : Prop where
  count : front.count rightBrace + depth = front.count leftBrace
  inside : ∀ part, part <+: front → part ≠ [] → part.count rightBrace < part.count leftBrace

theorem Within.nil : Within 0 [] :=
  ⟨rfl, fun _ hpart hne => absurd (List.prefix_nil.mp hpart) hne⟩

theorem Within.snoc {depth deeper : Nat} {front : List UInt8} {b : UInt8} (h : Within depth front)
    (hcount : (front ++ [b]).count rightBrace + deeper = (front ++ [b]).count leftBrace)
    (hpos : 0 < deeper) : Within deeper (front ++ [b]) := by
  refine ⟨hcount, fun part hpart hne => ?_⟩
  rcases List.prefix_concat_iff.mp hpart with rfl | hpart
  · omega
  · exact h.inside part hpart hne

theorem Within.opened {depth : Nat} {front : List UInt8} (h : Within depth front) :
    Within (depth + 1) (front ++ [leftBrace]) := by
  refine h.snoc ?_ (Nat.succ_pos depth)
  have hright : [leftBrace].count rightBrace = 0 := rfl
  rw [List.count_append, List.count_append, hright, List.count_singleton_self, ← h.count]
  omega

theorem Within.shut {depth : Nat} {front : List UInt8} (h : Within depth front) (hdepth : 1 < depth) :
    Within (depth - 1) (front ++ [rightBrace]) := by
  refine h.snoc ?_ (by omega)
  have hleft : [rightBrace].count leftBrace = 0 := rfl
  rw [List.count_append, List.count_append, hleft, List.count_singleton_self, ← h.count]
  omega

theorem Within.closed {front : List UInt8} (h : Within 1 front) (hopens : front.head? = some leftBrace) :
    Braced (front ++ [rightBrace]) := by
  refine ⟨head?_append_of_eq_some hopens _, ?_, fun part hpart hne hproper => ?_⟩
  · have hleft : [rightBrace].count leftBrace = 0 := rfl
    rw [List.count_append, List.count_append, hleft, List.count_singleton_self, ← h.count]
  · rcases List.prefix_concat_iff.mp hpart with rfl | hpart
    · exact absurd rfl hproper
    · exact h.inside part hpart hne

theorem Within.depth_pos {depth : Nat} {front : List UInt8} (h : Within depth front) (hne : front ≠ []) :
    0 < depth := by
  have hlt := h.inside front (List.prefix_refl front) hne
  have hcount := h.count
  omega

theorem Within.skip {depth : Nat} {front piece : List UInt8} (h : Within depth front) (hne : front ≠ [])
    (hleft : leftBrace ∉ piece) (hright : rightBrace ∉ piece) : Within depth (front ++ piece) := by
  have hcount {part : List UInt8} (hpart : part <+: piece) :
      (front ++ part).count rightBrace + depth = (front ++ part).count leftBrace := by
    rw [List.count_append, List.count_append, List.count_eq_zero.mpr fun hmem => hleft (hpart.subset hmem),
      List.count_eq_zero.mpr fun hmem => hright (hpart.subset hmem)]
    exact h.count
  refine ⟨hcount (List.prefix_refl piece), fun part hpart hpart' => ?_⟩
  rcases List.prefix_or_prefix_of_prefix hpart (List.prefix_append front piece) with hle | ⟨more, rfl⟩
  · exact h.inside part hle hpart'
  · have hpos := h.depth_pos hne
    have hmore := hcount ((List.prefix_append_right_inj front).mp hpart)
    omega

/-- the characters of an item that the scan has not finished -/
inductive Pending (quote : Char) (rest : Text) : QuoteState → Text → Prop
  | plain : Pending quote rest .plain []
  | escaped : Pending quote rest .escaped ['\\']
  | interpolated {depth : Nat} {front : Text} (hquote : quote = '"') (hwithin : Within depth front.bytes)
      (hopens : (front ++ rest).head? = some '\x7b') :
      Pending quote rest (.interpolated depth) ('#' :: front)

/-- what a scan gives is what the grammar says of the input -/
def Scanned (quote : UInt8) (input : List UInt8) : Except ReadCause Text → Prop
  | .ok content => ∃ behind, Closed quote input content.bytes behind
  | .error .unterminatedInterpolation => Inside quote input
  | .error .unterminatedString => Exhausted quote input
  | .error _ => False

theorem Scanned.extend {q : UInt8} {input : List UInt8} {result : Except ReadCause Text}
    (h : Scanned q input result) (front : Text) (hitems : Items q front.bytes input) :
    Scanned q (front.bytes ++ input) (result.map (front ++ ·)) := by
  have put {content : List UInt8} {last : List UInt8} (hinput : input = content ++ last) :
      front.bytes ++ input = front.bytes ++ content ++ last := by
    rw [hinput, List.append_assoc]
  cases result with
  | ok content =>
    obtain ⟨behind, hinput, hcontent⟩ := h
    refine ⟨behind, ?_, ?_⟩
    · rw [Text.bytes_append]
      exact put hinput
    · rw [Text.bytes_append]
      exact hitems.append hinput hcontent
  | error cause =>
    cases cause with
    | unterminatedInterpolation =>
      obtain ⟨hdouble, content, group, hinput, hcontent, hgroup⟩ := h
      exact ⟨hdouble, front.bytes ++ content, group, put hinput, hitems.append hinput hcontent, hgroup⟩
    | unterminatedString =>
      obtain ⟨content, last, hinput, hcontent, hlast⟩ := h
      exact ⟨front.bytes ++ content, last, put hinput, hitems.append hinput hcontent, hlast⟩
    | _ => exact h.elim

/-- What the next character does to a scan: it goes on with the item, it is the last one of the item, or it
closes the text. -/
inductive Took (quote c : Char) (cs seen : Text) : Except ReadCause Text → Prop
  | goesOn {state : QuoteState} (h : Pending quote cs state (seen ++ [c])) :
      Took quote c cs seen ((quotedContent quote state cs).map (c :: ·))
  | finishes (h : Items (asciiByte quote) (Text.bytes (seen ++ [c])) (Text.bytes cs)) :
      Took quote c cs seen ((quotedContent quote .plain cs).map (c :: ·))
  | closes (hseen : seen = []) (hc : c = quote) : Took quote c cs seen (.ok [])

theorem isQuote_asciiByte (hquote : quote = '\'' ∨ quote = '"') : IsQuote (asciiByte quote) :=
  hquote.imp (congrArg asciiByte) (congrArg asciiByte)

/-- between two items, a character is one of its own, or it begins one -/
theorem took_plain (hquote : quote = '\'' ∨ quote = '"') (c : Char) (cs : Text) :
    Took quote c cs [] (quotedContent quote .plain (c :: cs)) := by
  rw [quotedContent]
  split
  next hc =>
    subst hc
    exact .goesOn .escaped
  next hback =>
    split
    next hc => exact .closes rfl hc
    next hend =>
      split
      next hc =>
        obtain ⟨rfl, hdouble, hbrace⟩ := hc
        exact .goesOn (.interpolated hdouble .nil hbrace)
      next hhash =>
        have hitems := items_char hquote hback hend hhash
        exact .finishes (by rwa [List.nil_append, Text.bytes_singleton])

/-- inside an interpolation, a character goes on with it, unless it closes the first brace -/
theorem took_interpolated (hquote : quote = '"') {c : Char} {cs front : Text} {depth : Nat}
    (hwithin : Within depth front.bytes) (hopens : (front ++ c :: cs).head? = some '\x7b') :
    Took quote c cs ('#' :: front) (quotedContent quote (.interpolated depth) (c :: cs)) := by
  have goOn {depth' : Nat} (h : Within depth' (front.bytes ++ Text.bytes [c])) :
      Took quote c cs ('#' :: front) ((quotedContent quote (.interpolated depth') cs).map (c :: ·)) := by
    have hopens' : ((front ++ [c]) ++ cs).head? = some '\x7b' := by rwa [← List.append_cons]
    rw [← Text.bytes_append] at h
    exact .goesOn (.interpolated hquote h hopens')
  rw [quotedContent]
  split
  next hc =>
    subst hc
    exact goOn hwithin.opened
  next hleft =>
    have hhead := head?_bytes_of_head?_append hopens hleft
    have hne : front.bytes ≠ [] := by
      intro hnil
      rw [hnil] at hhead
      cases hhead
    split
    next hc =>
      subst hc
      split
      next hdepth =>
        obtain rfl : depth = 1 := Nat.le_antisymm hdepth (hwithin.depth_pos hne)
        have hitem : Item (asciiByte quote) (Text.bytes ('#' :: (front ++ ['\x7d']))) (Text.bytes cs) := by
          rw [Text.bytes_cons, Text.bytes_append]
          exact .interpolation (congrArg asciiByte hquote) (hwithin.closed hhead)
        exact .finishes (.single hitem)
      next hdepth => exact goOn (hwithin.shut (Nat.lt_of_not_le hdepth))
    next hright =>
      refine goOn ?_
      rw [Text.bytes_singleton]
      refine hwithin.skip hne ?_ ?_
      · exact fun hmem => hleft ((asciiByte_mem_utf8EncodeChar (by decide)).mp hmem)
      · exact fun hmem => hright ((asciiByte_mem_utf8EncodeChar (by decide)).mp hmem)

theorem Pending.took (hquote : quote = '\'' ∨ quote = '"') {c : Char} {cs seen : Text} {state : QuoteState}
    (h : Pending quote (c :: cs) state seen) :
    Took quote c cs seen (quotedContent quote state (c :: cs)) := by
  cases h with
  | plain => exact took_plain hquote c cs
  | escaped =>
    rw [quotedContent]
    exact .finishes (items_escaped (isQuote_asciiByte hquote) c (Text.bytes cs))
  | interpolated hdouble hwithin hopens => exact took_interpolated hdouble hwithin hopens

/-- a character in front of the content goes behind the characters that were seen -/
theorem map_cons_map (seen : Text) (c : Char) (result : Except ReadCause Text) :
    (result.map (c :: ·)).map (seen ++ ·) = result.map ((seen ++ [c]) ++ ·) := by
  cases result with
  | error cause => rfl
  | ok content => exact congrArg Except.ok (List.append_cons seen c content)

/-- the scan takes the items of what it is given, one behind the other -/
theorem quotedContent_scanned (hquote : quote = '\'' ∨ quote = '"') (rest : Text) :
    ∀ (state : QuoteState) (seen : Text), Pending quote rest state seen →
      Scanned (asciiByte quote) (seen ++ rest).bytes ((quotedContent quote state rest).map (seen ++ ·)) := by
  induction rest with
  | nil =>
    intro state seen h
    rw [List.append_nil]
    cases h with
    | plain => exact ⟨[], [], rfl, .nil, .inl rfl⟩
    | escaped => exact ⟨[], [backslash], rfl, .nil, .inr rfl⟩
    | @interpolated depth front hdouble hwithin hopens =>
      rw [List.append_nil] at hopens
      subst hdouble
      refine ⟨rfl, [], front.bytes, rfl, .nil, ?_, hwithin.inside⟩
      obtain ⟨tail, rfl⟩ := List.head?_eq_some_iff.mp hopens
      rfl
  | cons c cs ih =>
    intro state seen h
    have htook := h.took hquote
    generalize quotedContent quote state (c :: cs) = result at htook
    cases htook with
    | goesOn h =>
      rw [map_cons_map, List.append_cons]
      exact ih _ _ h
    | finishes h =>
      have hscan := (ih .plain [] .plain).extend (seen ++ [c]) h
      have hmap : (quotedContent quote .plain cs).map ([] ++ ·) = quotedContent quote .plain cs := by
        cases quotedContent quote .plain cs <;> rfl
      rw [List.nil_append, hmap] at hscan
      rw [map_cons_map, List.append_cons, Text.bytes_append]
      exact hscan
    | closes hseen hc =>
      subst hseen hc
      have hascii : c.toNat < 128 := by
        rcases hquote with rfl | rfl <;> decide
      refine ⟨Text.bytes cs, ?_, .nil⟩
      rw [List.nil_append, Text.bytes_cons, utf8EncodeChar_ascii hascii]
      rfl

theorem scanned (hquote : quote = '\'' ∨ quote = '"') (rest : Text) :
    Scanned (asciiByte quote) rest.bytes (quotedContent quote .plain rest) := by
  have hplain := quotedContent_scanned hquote rest .plain [] .plain
  cases hq : quotedContent quote .plain rest with
  | ok content => rwa [hq] at hplain
  | error cause => rwa [hq] at hplain

/-- items up to a closing quote are what the scan gives -/
theorem Closed.exists_content (hquote : quote = '\'' ∨ quote = '"') {rest : Text}
    {content behind : List UInt8} (h : Closed (asciiByte quote) rest.bytes content behind) :
    ∃ text after, rest = text ++ quote :: after ∧ text.bytes = content ∧ Text.bytes after = behind ∧
      quotedContent quote .plain rest = .ok text := by
  have hscan := scanned hquote rest
  cases hq : quotedContent quote .plain rest with
  | ok text =>
    rw [hq] at hscan
    obtain ⟨behind', hclosed⟩ := hscan
    obtain rfl := hclosed.unique (isQuote_asciiByte hquote) h
    obtain ⟨after, rfl⟩ := Lexeme.quotedContent_isPrefix quote rest .plain text hq
    have hbytes := h.1
    have hascii : quote.toNat < 128 := by
      rcases hquote with rfl | rfl <;> decide
    rw [Text.bytes_append, Text.bytes_append, Text.bytes_singleton, utf8EncodeChar_ascii hascii,
      List.append_assoc] at hbytes
    refine ⟨text, after, (List.append_cons text quote after).symm, rfl, ?_, rfl⟩
    exact (List.cons.inj (List.append_cancel_left hbytes)).2
  | error cause =>
    rw [hq] at hscan
    cases cause with
    | unterminatedInterpolation => exact absurd hscan (h.not_inside (isQuote_asciiByte hquote))
    | unterminatedString => exact absurd h (Exhausted.not_closed (isQuote_asciiByte hquote) hscan)
    | _ => exact hscan.elim

theorem interpolation_iff (hquote : quote = '\'' ∨ quote = '"') (rest : Text) :
    quotedContent quote .plain rest = .error .unterminatedInterpolation ↔
      Inside (asciiByte quote) rest.bytes := by
  have hscan := scanned hquote rest
  constructor
  · intro h
    rwa [h] at hscan
  · intro h
    cases hq : quotedContent quote .plain rest with
    | ok text =>
      rw [hq] at hscan
      obtain ⟨behind, hclosed⟩ := hscan
      exact absurd h (hclosed.not_inside (isQuote_asciiByte hquote))
    | error cause =>
      rw [hq] at hscan
      cases cause with
      | unterminatedInterpolation => rfl
      | unterminatedString => exact absurd h (Exhausted.not_inside hscan)
      | _ => exact hscan.elim

theorem unterminated_iff (hquote : quote = '\'' ∨ quote = '"') (rest : Text) :
    quotedContent quote .plain rest = .error .unterminatedString ↔
      (∀ content behind, ¬Closed (asciiByte quote) rest.bytes content behind) ∧
        ¬Inside (asciiByte quote) rest.bytes := by
  have hscan := scanned hquote rest
  constructor
  · intro h
    rw [h] at hscan
    exact ⟨fun _ _ => Exhausted.not_closed (isQuote_asciiByte hquote) hscan, Exhausted.not_inside hscan⟩
  · rintro ⟨hopen, hinside⟩
    cases hq : quotedContent quote .plain rest with
    | ok text =>
      rw [hq] at hscan
      obtain ⟨behind, hclosed⟩ := hscan
      exact absurd hclosed (hopen _ _)
    | error cause =>
      rw [hq] at hscan
      cases cause with
      | unterminatedInterpolation => exact absurd hscan hinside
      | unterminatedString => rfl
      | _ => exact hscan.elim

end

end Quoted

/-! ## the quotes of a text -/

theorem Text.charAt?_of_getElem?_bytes {d : Char} (hd : d.toNat < 128) {t : Text} {offset : Nat}
    (h : t.bytes[offset]? = some (asciiByte d)) : t.charAt? offset = some d := by
  induction t generalizing offset with
  | nil => cases h
  | cons c cs ih =>
    rw [bytes_cons] at h
    rcases Nat.lt_or_ge offset (String.utf8EncodeChar c).length with hlt | hge
    · rw [List.getElem?_append_left hlt] at h
      obtain rfl := (asciiByte_mem_utf8EncodeChar hd).mp (List.mem_of_getElem? h)
      rw [utf8EncodeChar_ascii hd, List.length_singleton, Nat.lt_one_iff] at hlt
      exact charAt?_eq_some.mpr ⟨[], cs, rfl, hlt.symm⟩
    · rw [List.getElem?_append_right hge] at h
      rw [String.length_utf8EncodeChar] at hge h
      obtain ⟨front, rest, rfl, hfront⟩ := charAt?_eq_some.mp (ih h)
      exact charAt?_eq_some.mpr ⟨c :: front, rest, rfl, by rw [size_cons]; omega⟩

namespace Lexeme

theorem quoted_eq_error {quote : Char} {rest : Text} {cause : ReadCause} :
    quoted quote rest = .error cause ↔ quotedContent quote .plain rest = .error cause := by
  unfold quoted
  cases quotedContent quote .plain rest with
  | ok content => constructor <;> exact nofun
  | error held =>
    rw [Except.map, Except.error.injEq, Except.error.injEq]

/-- what a quoted text is, behind its opening quote: the content is items up to a closing quote -/
structure Decided (t : Text) (offset : Nat) (quote : Char) (rest : Text) : Prop where
  /-- the scan begins right behind the quote -/
  begins : t.drop? (offset + 1) = some rest
  rest_bytes : rest.bytes = t.bytes.drop (offset + 1)
  /-- items up to a closing quote are the content, and the scan stops behind that quote, between two
  characters -/
  accepts : ∀ content behind, Quoted.Closed (asciiByte quote) rest.bytes content behind →
    ∃ text after, text.bytes = content ∧ after.bytes = behind ∧
      quoted quote rest = .ok (text, quote :: (text ++ [quote])) ∧
      t.slice? ⟨offset, offset + content.length + 2⟩ = some (quote :: (text ++ [quote])) ∧
      t.drop? (offset + content.length + 2) = some after
  /-- there is no other content that is items up to a closing quote, no shorter one and no longer one -/
  unique : ∀ content behind other behind', Quoted.Closed (asciiByte quote) rest.bytes content behind →
    Quoted.Closed (asciiByte quote) rest.bytes other behind' → content = other
  /-- a content that is found is items up to a closing quote -/
  content : ∀ text written, quoted quote rest = .ok (text, written) →
    ∃ behind, Quoted.Closed (asciiByte quote) rest.bytes text.bytes behind
  /-- the scan fails in an interpolation when the text ends inside one -/
  interpolation : quoted quote rest = .error .unterminatedInterpolation ↔
    Quoted.Inside (asciiByte quote) rest.bytes
  /-- the scan fails in the content otherwise, and only when nothing closes it -/
  unterminated : quoted quote rest = .error .unterminatedString ↔
    (∀ content behind, ¬Quoted.Closed (asciiByte quote) rest.bytes content behind) ∧
      ¬Quoted.Inside (asciiByte quote) rest.bytes

/-- **At every quote of a text, the scan succeeds just when the grammar closes the quoted text, and gives
the content that the grammar gives.** -/
theorem quoted_decided (t : Text) (offset : Nat) (quote : Char) (hquote : quote = '\'' ∨ quote = '"')
    (hat : t.bytes[offset]? = some (asciiByte quote)) : ∃ rest, Decided t offset quote rest := by
  have hascii : quote.toNat < 128 := by
    rcases hquote with rfl | rfl <;> decide
  obtain ⟨front, rest, rfl, rfl⟩ := Text.charAt?_eq_some.mp (Text.charAt?_of_getElem?_bytes hascii hat)
  have hbehind : front ++ quote :: rest = (front ++ [quote]) ++ rest := List.append_cons front quote rest
  have hone : Text.size (front ++ [quote]) = front.size + 1 := by
    rw [Text.size_append, ← Text.length_bytes [quote], Text.bytes_singleton, utf8EncodeChar_ascii hascii,
      List.length_singleton]
  refine ⟨rest, ?_⟩
  constructor
  case begins =>
    rw [hbehind, ← hone]
    exact Text.drop?_append _ _
  case rest_bytes =>
    rw [hbehind, ← hone, ← Text.length_bytes, Text.bytes_append (front ++ [quote]), List.drop_left]
  case accepts =>
    intro content behind hclosed
    obtain ⟨text, after, hrest, rfl, rfl, hcontent⟩ := hclosed.exists_content hquote
    have hwritten : quoted quote rest = .ok (text, quote :: (text ++ [quote])) := by
      rw [quoted, hcontent]
      rfl
    have htext : front ++ quote :: rest = front ++ (quote :: (text ++ [quote]) ++ after) := by
      rw [hrest, List.cons_append, List.append_assoc]
      rfl
    have hsize : Text.size (quote :: (text ++ [quote])) = text.bytes.length + 2 := by
      rw [← Text.length_bytes, Text.bytes_cons, Text.bytes_append, Text.bytes_singleton,
        utf8EncodeChar_ascii hascii]
      simp only [List.length_append, List.length_singleton]
      omega
    refine ⟨text, after, rfl, rfl, hwritten, ?_, ?_⟩
    · rw [← List.append_assoc] at htext
      exact Text.slice?_eq_some.mpr ⟨front, after, htext, rfl, by rw [hsize, Nat.add_assoc]⟩
    · rw [htext, ← List.append_assoc, Nat.add_assoc, ← hsize, ← Text.size_append]
      exact Text.drop?_append _ _
  case unique =>
    exact fun content behind other behind' => Quoted.Closed.unique (Quoted.isQuote_asciiByte hquote)
  case content =>
    intro text written h
    have hscan := Quoted.scanned hquote rest
    cases hq : quotedContent quote .plain rest with
    | ok content =>
      rw [quoted, hq] at h
      obtain ⟨rfl, -⟩ := Prod.mk.inj (Except.ok.inj h)
      rwa [hq] at hscan
    | error cause =>
      rw [quoted_eq_error.mpr hq] at h
      cases h
  case interpolation =>
    rw [quoted_eq_error]
    exact Quoted.interpolation_iff hquote rest
  case unterminated =>
    rw [quoted_eq_error]
    exact Quoted.unterminated_iff hquote rest

/-- the backslash stands in front of two bytes of one character, and the quote in the braces ends nothing -/
theorem quoted_decided_escape :
    (Text.bytes "p \"\\é#\x7b\"\x7d\" q".toList)[2]? = some (asciiByte '"') ∧
    ∃ rest behind, Decided "p \"\\é#\x7b\"\x7d\" q".toList 2 '"' rest ∧
      Quoted.Closed (asciiByte '"') rest.bytes (Text.bytes "\\é#\x7b\"\x7d".toList) behind := by
  have hat : (Text.bytes "p \"\\é#\x7b\"\x7d\" q".toList)[2]? = some (asciiByte '"') := by decide +kernel
  obtain ⟨rest, hdecided⟩ := quoted_decided _ 2 '"' (.inr rfl) hat
  have hdrop : Text.drop? 3 "p \"\\é#\x7b\"\x7d\" q".toList = some "\\é#\x7b\"\x7d\" q".toList := by
    decide +kernel
  obtain rfl := Option.some.inj (hdrop.symm.trans hdecided.begins)
  have hcontent : quoted '"' "\\é#\x7b\"\x7d\" q".toList =
      .ok ("\\é#\x7b\"\x7d".toList, "\"\\é#\x7b\"\x7d\"".toList) := by
    decide +kernel
  obtain ⟨behind, hclosed⟩ := hdecided.content _ _ hcontent
  exact ⟨hat, _, behind, hdecided, hclosed⟩

end Lexeme

end Collate
