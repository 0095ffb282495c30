import Collate.Proofs.Derivation.Document
import Collate.Proofs.Rule.Shorthand

/-!
# The abbreviated form in the text and in the tree

An entry is flagged as abbreviated when its text is one word and a colon, and a pair or a keyword
parameter is abbreviated when it has no value.  The two agree on labels that are words.  A label may hold
more: it may end with a question or an exclamation mark, and any character past ASCII stands in a name,
so a label without a value that is no word is not flagged.

* `Text.isShorthand_label`, `Text.isShorthand_eq_false`   the flag of a label, and of what is none;
* `Document.Written.flag_alone`, `Document.Written.flag_valued`   the flag of a label alone, and of one
                                  with a value;
* `Document.shorthand_words`      the flag of all pairs and keyword parameters;
* `Document.shorthand_misses`     a pair without a value that is not flagged.
-/

namespace Collate

namespace Text

theorem isShorthand_label {name : Text} (hne : name ≠ []) :
    (name ++ [':']).isShorthand = true ↔ name.all isWord = true := by
  simp [isShorthand, hne]

/-- a text is no abbreviation if a character in front of its last one is in no word -/
theorem isShorthand_eq_false {front back : Text} {c : Char} (hc : isWord c = false) (hback : back ≠ []) :
    (front ++ c :: back).isShorthand = false := by
  have hlast : (c :: back).dropLast = c :: back.dropLast := List.dropLast_cons_of_ne_nil hback
  rw [isShorthand, List.dropLast_append_of_ne_nil (List.cons_ne_nil c back), hlast, List.all_append,
    List.all_cons, hc, Bool.false_and, Bool.and_false, Bool.and_false]

end Text

theorem ParameterKind.sign?_eq_none {kind : ParameterKind} (h : kind.isKeyword = true) :
    kind.sign? = none := by
  cases kind with
  | keyword => rfl
  | optionalKeyword => rfl
  | _ => exact nomatch h

namespace Document
variable {t : Text} {d : Document} {id : Nat} {place : Place} {slots : List Slot}

namespace Written
variable {text name : Text} {token : Token} (h : d.Written id place slots)
  (htext : d.text.slice? (d.span id) = some text)
include h htext

/-- a token of the node holds a character that is in no word, and does not end with it or is not the last -/
theorem isShorthand_eq_false (hmem : token ∈ Slot.all slots) {front back : Text} {c : Char}
    (hsplit : token.text = front ++ c :: back) (hc : isWord c = false)
    (hback : back ≠ [] ∨ token.span.stop < (d.span id).stop) : text.isShorthand = false := by
  have hslice := (d.text.tokens_fit.1 token (h.within.subset hmem)).slice
  obtain ⟨hstart, hstop⟩ := Span.contains_iff.mp (h.covers.contains h.aligned hmem)
  obtain ⟨before, behind, rfl, -, hsize⟩ := Text.slice?_inside htext hslice hstart hstop
  have hne : back ++ behind ≠ [] := by
    rcases hback with hback | hback
    · exact List.append_ne_nil_of_left_ne_nil hback behind
    · refine List.append_ne_nil_of_right_ne_nil back fun hnil => ?_
      rw [hnil, Text.size_nil] at hsize
      omega
  rw [hsplit, List.append_assoc, List.cons_append, ← List.append_assoc]
  exact Text.isShorthand_eq_false hc hne

theorem flag_alone (hslots : slots = [.own token]) (hk : token.kind = .label name) :
    text.isShorthand = true ↔ name.all isWord = true := by
  subst hslots
  have hfits := d.text.tokens_fit.1 token (h.within.subset List.mem_cons_self)
  have hspan : d.span id = token.span :=
    congrArg₂ Span.mk (Option.some.inj h.covers.first).symm (Option.some.inj h.covers.last).symm
  rw [hspan] at htext
  obtain rfl := Option.some.inj (htext.symm.trans hfits.slice)
  have hspelled := hfits.spelled
  rw [hk] at hspelled
  rw [hspelled.1]
  exact Text.isShorthand_label hspelled.2

theorem flag_valued {inner : Place} {tokens : List Token} {value : Tree}
    (hslots : slots = [.own token, .part inner tokens value]) (hk : token.kind = .label name) :
    text.isShorthand = false := by
  subst hslots
  have hspelled := (d.text.tokens_fit.1 token (h.within.subset List.mem_cons_self)).spelled
  rw [hk] at hspelled
  -- the first token of the value stands behind the label
  obtain ⟨first, hhead, hfirst⟩ := Option.map_eq_some_iff.mp (h.tree_covers inner tokens value (by simp)).first
  have hmem : first ∈ Slot.all [.part inner tokens value] := by simp [List.mem_of_head? hhead]
  have hprecedes : token.span.stop ≤ first.span.start :=
    (List.pairwise_cons.mp h.aligned.ordered).1 first hmem
  have hne := h.aligned.nonempty first (List.mem_cons_of_mem _ hmem)
  have hstop := h.covers.le_stop h.aligned (List.mem_cons_of_mem _ hmem)
  exact h.isShorthand_eq_false htext List.mem_cons_self hspelled.1 rfl (.inr (by omega))

theorem flag_arrow (hmem : .own token ∈ slots) (hk : token.kind = .arrow) : text.isShorthand = false := by
  have hmem := (Slot.tokens_isInfix hmem).subset List.mem_cons_self
  have hspelled := (d.text.tokens_fit.1 token (h.within.subset hmem)).spelled
  rw [hk] at hspelled
  exact h.isShorthand_eq_false htext hmem (hspelled.trans (List.nil_append _).symm) rfl (.inl (by simp))

end Written

theorem exists_entry (hplaced : d.Placed) (hid : id < d.nodes.size) (hne : id ≠ d.root) (kind : EntryKind)
    (key : Text) : ∃ text e, d.text.slice? (d.span id) = some text ∧
      (Entry.ofNode d id kind key).run = .ok (some e) ∧ e.shorthand = text.isShorthand := by
  obtain ⟨text, htext, hsource⟩ := hplaced.source_eq hid hne
  refine ⟨text, ⟨kind, key, text, d.span id, text.isShorthand, d.text.firstLine (d.span id)⟩, htext, ?_, rfl⟩
  rw [(Entry.ofNode_safe hplaced hid hne kind key).run_eq, Entry.ofNode, Attempt.value_bind,
    Attempt.value_liftM.mpr hsource]
  rfl

section
variable {key : Nat} {value fallback : Option Nat} {colon : Bool} {name : Text} {kind : ParameterKind}

theorem pair_flag (hread : read t = .ok d) (hnode : d.node id = .pair key value colon)
    (hkey : d.symbolName key = some name) : ∃ e, (Entry.ofPair d id).run = .ok (some e) ∧
      (e.shorthand = true ↔ value = none ∧ name.all isWord = true) := by
  obtain ⟨rfl, hplaced⟩ := placed_of_read hread
  obtain ⟨hid, hne⟩ := hplaced.inner (by rw [hnode]; simp) (by rw [hnode]; simp)
  obtain ⟨text, e, htext, hrun, hflag⟩ := exists_entry hplaced hid hne .pair name
  refine ⟨e, by simpa [Entry.ofPair, hnode, hkey] using hrun, ?_⟩
  rw [hflag]
  obtain ⟨place, slots, h⟩ := exists_written hread hid hne (by rw [hnode]; simp)
  have hform := h.form
  have hsymbol : (d.nodes.tree key).node = .symbol name := by
    rw [NodeTable.tree_node hplaced.table.forest (hplaced.child_ne_root hid hnode List.mem_cons_self).1]
    exact congrArg (Node.map _) (symbolName_eq hkey)
  rw [hnode, Node.map] at hform
  generalize hkeyTree : d.nodes.tree key = keyTree at hform hsymbol
  generalize hvalueTree : value.map d.nodes.tree = valueTree at hform
  cases hform with
  | label hk =>
    obtain rfl := Node.symbol.inj hsymbol
    rw [Option.map_eq_none_iff.mp hvalueTree, h.flag_alone htext rfl hk]
    simp
  | labelled hk tokens tree =>
    obtain ⟨value, rfl, -⟩ := Option.map_eq_some_iff.mp hvalueTree
    simp [h.flag_valued htext rfl hk]
  | arrow hk front keyTree tokens tree =>
    obtain ⟨value, rfl, -⟩ := Option.map_eq_some_iff.mp hvalueTree
    simp [h.flag_arrow htext (by simp) hk]

theorem parameter_flag (hread : read t = .ok d) (hnode : d.node id = .parameter kind (some name) fallback)
    (hkind : kind.isKeyword = true) : ∃ e, (Entry.ofParameter d id).run = .ok (some e) ∧
      (e.shorthand = true ↔ fallback = none ∧ name.all isWord = true) := by
  obtain ⟨rfl, hplaced⟩ := placed_of_read hread
  obtain ⟨hid, hne⟩ := hplaced.inner (by rw [hnode]; simp) (by rw [hnode]; simp)
  obtain ⟨text, e, htext, hrun, hflag⟩ := exists_entry hplaced hid hne .keywordParameter name
  refine ⟨e, by simpa [Entry.ofParameter, hnode, hkind] using hrun, ?_⟩
  rw [hflag]
  obtain ⟨place, slots, h⟩ := exists_written hread hid hne (by rw [hnode]; simp)
  have hform := h.form
  rw [hnode, Node.map] at hform
  generalize hfallback : fallback.map d.nodes.tree = tree at hform
  cases hform with
  | keyword hk =>
    rw [Option.map_eq_none_iff.mp hfallback, h.flag_alone htext rfl hk]
    simp
  | optionalKeyword hk tokens tree =>
    obtain ⟨fallback, rfl, -⟩ := Option.map_eq_some_iff.mp hfallback
    simp [h.flag_valued htext rfl hk]
  | rest hsign hname => exact nomatch (ParameterKind.sign?_eq_none hkind).symm.trans hsign
  | required => exact nomatch hkind
  | optional => exact nomatch hkind

end

/-- **An entry of a text is flagged exactly if it has no value and its name is a word.**  This holds of
every pair with a symbol for its key, however it is written, and of every keyword parameter. -/
theorem shorthand_words (t : Text) (d : Document) (hread : read t = .ok d) :
    (∀ id key value colon name, d.node id = .pair key value colon → d.symbolName key = some name →
      ∃ e, (Entry.ofPair d id).run = .ok (some e) ∧
        (e.shorthand = true ↔ value = none ∧ name.all isWord = true)) ∧
    (∀ id kind name fallback, d.node id = .parameter kind (some name) fallback → kind.isKeyword = true →
      ∃ e, (Entry.ofParameter d id).run = .ok (some e) ∧
        (e.shorthand = true ↔ fallback = none ∧ name.all isWord = true)) :=
  ⟨fun _ _ _ _ _ hnode hkey => pair_flag hread hnode hkey,
    fun _ _ _ _ hnode hkind => parameter_flag hread hnode hkind⟩

/-- of two parameters and two pairs, those without a value are flagged -/
theorem shorthand_words_accented :
    ∃ d, Document.read "def m(é:, b: 1) = foo(c:, :d => b)".toList = .ok d ∧
      (∃ e, (Entry.ofParameter d 0).run = .ok (some e) ∧ e.shorthand = true) ∧
      (∃ e, (Entry.ofParameter d 2).run = .ok (some e) ∧ e.shorthand = false) ∧
      (∃ e, (Entry.ofPair d 4).run = .ok (some e) ∧ e.shorthand = true) ∧
      ∃ e, (Entry.ofPair d 7).run = .ok (some e) ∧ e.shorthand = false := by
  have hfacts : (Document.read "def m(é:, b: 1) = foo(c:, :d => b)".toList).toOption.map (fun d =>
      ([d.node 0, d.node 2, d.node 4, d.node 7], [d.symbolName 3, d.symbolName 5])) =
        some ([.parameter .keyword (some ['é']) none, .parameter .optionalKeyword (some ['b']) (some 1),
          .pair 3 none true, .pair 5 (some 6) false], [some ['c'], some ['d']]) := by
    decide +kernel
  obtain ⟨d, hd, hfacts⟩ := Option.map_eq_some_iff.mp hfacts
  simp only [Prod.mk.injEq, List.cons.injEq, and_true] at hfacts
  obtain ⟨⟨hé, hb, hc, hpair⟩, hcname, hdname⟩ := hfacts
  obtain ⟨hpairs, hparameters⟩ := shorthand_words _ d (eq_ok_of_toOption hd)
  obtain ⟨e₀, he₀, hflag₀⟩ := hparameters 0 _ _ _ hé rfl
  obtain ⟨e₂, he₂, hflag₂⟩ := hparameters 2 _ _ _ hb rfl
  obtain ⟨e₄, he₄, hflag₄⟩ := hpairs 4 _ _ _ _ hc hcname
  obtain ⟨e₇, he₇, hflag₇⟩ := hpairs 7 _ _ _ _ hpair hdname
  refine ⟨d, eq_ok_of_toOption hd, ⟨e₀, he₀, hflag₀.mpr ⟨rfl, by decide +kernel⟩⟩, ⟨e₂, he₂, ?_⟩,
    ⟨e₄, he₄, hflag₄.mpr ⟨rfl, by decide +kernel⟩⟩, e₇, he₇, ?_⟩
  · exact Bool.eq_false_iff.mpr fun h => nomatch (hflag₂.mp h).1
  · exact Bool.eq_false_iff.mpr fun h => nomatch (hflag₇.mp h).1

/-- a pair without a value that is not flagged, as its name is no word -/
theorem shorthand_misses :
    ∃ d e, Document.read "x = \x7b🍕:, b: 1\x7d".toList = .ok d ∧ d.node 1 = .pair 0 none true ∧
      d.symbolName 0 = some ['🍕'] ∧ (Entry.ofPair d 1).run = .ok (some e) ∧ e.shorthand = false := by
  have hfacts : (Document.read "x = \x7b🍕:, b: 1\x7d".toList).toOption.bind (fun d =>
      (Entry.ofPair d 1).run.toOption.bind (fun found => found.map (fun e =>
        (d.node 1, d.symbolName 0, e.shorthand)))) = some (.pair 0 none true, some ['🍕'], false) := by
    decide +kernel
  obtain ⟨d, hd, hfacts⟩ := Option.bind_eq_some_iff.mp hfacts
  obtain ⟨found, hfound, hfacts⟩ := Option.bind_eq_some_iff.mp hfacts
  obtain ⟨e, rfl, hentry⟩ := Option.map_eq_some_iff.mp hfacts
  simp only [Prod.mk.injEq] at hentry
  obtain ⟨hnode, hname, hflag⟩ := hentry
  exact ⟨d, e, eq_ok_of_toOption hd, hnode, hname, eq_ok_of_toOption hfound, hflag⟩

end Document

end Collate
