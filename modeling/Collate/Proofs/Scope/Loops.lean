import Mathlib.Data.List.TakeWhile
import Collate.Proofs.Scope.Basic

/-!
# Names over tokens

While a reader moves over tokens, the names in sight at its cursor go through the trees it builds, and
every identifier it takes is accounted for: it is a name behind a dot, or one of the trees stands for it.
Here is that judgment, how it is put together along a row of trees and tokens, and that the loops of the
reader keep it.

* `Cursor.Covers`   the identifiers between two cursors are accounted for;
* `Cursor.Scans`    the judgment, for trees between two cursors;
* `Scans.plain`, `Scans.scope`   a construct over its children;
* `Descent.Tracks`  all phrases keep it.
-/

namespace Collate

/-- one of the trees has a construct that stands for an identifier -/
def Tree.AnyOwns (t : Text) (trees : List Tree) (name : Text) (place : Span) : Prop :=
  ∃ tree ∈ trees, tree.Owns t name place

theorem Tree.AnyOwns.mono {t : Text} {trees more : List Tree} {name : Text} {place : Span}
    (h : AnyOwns t trees name place) (hsub : trees ⊆ more) : AnyOwns t more name place := by
  obtain ⟨tree, hmem, howns⟩ := h
  exact ⟨tree, hsub hmem, howns⟩

namespace Cursor
variable {t : Text} {s s' s'' : Cursor} {span : Span}

/-! ## the tokens of the text around a cursor -/

/-- a token of the text that begins between two cursors is one of those taken -/
theorem Valid.mem_taken (hs : s.Valid t) {taken : List Token} (h : s.ahead = taken ++ s'.ahead)
    (heof : s'.eof = s.eof) {token : Token} (hmem : token ∈ t.tokens)
    (hstart : s.offset ≤ token.span.start) (hstop : token.span.start < s'.offset) : token ∈ taken := by
  obtain ⟨hfit, hordered⟩ := t.tokens_fit
  obtain ⟨front, hfront⟩ := hs.suffix
  rw [← hfront, List.pairwise_append] at hordered
  have hpos := (hfit token hmem).nonempty
  rw [← hfront] at hmem
  rcases List.mem_append.mp hmem with hmem | hmem
  · exfalso
    cases hahead : s.ahead with
    | nil =>
      -- nothing is taken, and the cursors stand at one offset
      have hahead' : s'.ahead = [] := (List.append_eq_nil_iff.mp (h.symm.trans hahead)).2
      have hsame : s'.offset = s.offset := by
        rw [offset, offset, current, current, hahead, hahead', heof]
      omega
    | cons next rest =>
      have h₁ : token.span.stop ≤ next.span.start :=
        hordered.2.2 token hmem next (by rw [hahead]; exact List.mem_cons_self)
      have h₂ : s.offset = next.span.start := by rw [offset, current_cons hahead]
      omega
  · rw [h] at hmem
    rcases List.mem_append.mp hmem with hmem | hmem
    · exact hmem
    · exfalso
      have hrow := hordered.2.1
      rw [h, List.pairwise_append] at hrow
      cases hahead : s'.ahead with
      | nil =>
        rw [hahead] at hmem
        cases hmem
      | cons next rest =>
        have h₂ : s'.offset = next.span.start := by rw [offset, current_cons hahead]
        rw [hahead] at hrow hmem
        rcases List.mem_cons.mp hmem with rfl | hmem
        · omega
        · have h₁ : next.span.stop ≤ token.span.start := (List.pairwise_cons.mp hrow.2.1).1 token hmem
          have h₃ := (hfit next (by rw [← hfront, h, hahead]; simp)).nonempty
          omega

/-- behind the tokens that were taken stands the first one from their end on -/
theorem Takes.tokenFrom (h : s.Takes s' span) (hs : s.Valid t) : t.tokenFrom span.stop = s'.ahead.head? := by
  obtain ⟨taken, ha, -, -, hlast⟩ := h
  obtain ⟨last, hl, hstop⟩ := Option.map_eq_some_iff.mp hlast
  obtain ⟨init, rfl⟩ := List.getLast?_eq_some_iff.mp hl
  obtain ⟨front, hfront⟩ := hs.suffix
  obtain ⟨hfit, hordered⟩ := t.tokens_fit
  have htokens : t.tokens = (front ++ init ++ [last]) ++ s'.ahead := by
    rw [← hfront, ha]
    simp
  rw [← hstop]
  rw [htokens] at hfit hordered
  obtain ⟨hbefore, -, hbehind⟩ := List.pairwise_append.mp hordered
  refine Text.tokenFrom_eq htokens (fun token hmem => ?_) fun token hmem =>
    hbehind last (by simp) token hmem
  have hpos := (hfit token (List.mem_append_left _ hmem)).nonempty
  rcases List.mem_append.mp hmem with hmem | hmem
  · have h₁ : token.span.stop ≤ last.span.start :=
      (List.pairwise_append.mp hbefore).2.2 token hmem last List.mem_cons_self
    have h₂ := (hfit last (by simp)).nonempty
    omega
  · rw [List.mem_singleton.mp hmem] at hpos ⊢
    exact hpos

theorem Valid.tokenFrom (hs : s.Valid t) (hk : s.current.kind ≠ .eof) :
    t.tokenFrom s.offset = some s.current := by
  obtain ⟨rest, hahead⟩ := exists_ahead hs hk
  obtain ⟨front, hfront⟩ := hs.suffix
  obtain ⟨hfit, hordered⟩ := t.tokens_fit
  rw [← hfront] at hfit
  rw [← hfront, List.pairwise_append] at hordered
  have hhead : s.ahead.head? = some s.current := by rw [hahead]; rfl
  rw [← hhead]
  refine Text.tokenFrom_eq hfront.symm (fun token hmem => ?_) fun token hmem => ?_
  · have h₁ : token.span.stop ≤ s.current.span.start :=
      hordered.2.2 token hmem s.current (List.mem_of_head? hhead)
    have h₂ := (hfit token (List.mem_append_left _ hmem)).nonempty
    show token.span.start < s.current.span.start
    omega
  · show s.current.span.start ≤ token.span.start
    have hrow := hordered.2.1
    rw [hahead] at hmem hrow
    rcases List.mem_cons.mp hmem with rfl | hmem
    · exact Nat.le_refl _
    · have h₁ : s.current.span.stop ≤ token.span.start := (List.pairwise_cons.mp hrow).1 token hmem
      have h₂ := (hs.current_fits hk).nonempty
      omega

/-- a parenthesis touches the next token if the token behind it is one -/
theorem Valid.parenTouches_eq (hs : s.Valid t) (hk : s.current.kind ≠ .eof) :
    t.parenTouches s.current.span.stop =
      (decide (s.advance.current.kind = .leftParen) && !s.advance.current.spaceBefore) := by
  have ht := takes_advance hs hk
  have hs' := ht.valid hs
  rw [Text.parenTouches, ht.tokenFrom hs]
  cases hahead : s.advance.ahead with
  | nil =>
    have hcurrent : s.advance.current.kind = .eof := by
      rw [current, hahead]
      exact hs'.eof_kind
    simp [hcurrent]
  | cons next rest => rw [current_cons hahead]; rfl

/-- the token behind a dot or a double colon is a name that these select -/
theorem Valid.selects (hs : s.Valid t)
    (hk : s.current.kind = .dot ∨ s.current.kind = .safeDot ∨ s.current.kind = .scope)
    (hk' : s.advance.current.kind ≠ .eof) : t.Selects s.advance.current := by
  have hne : s.current.kind ≠ .eof := by rcases hk with hk | hk | hk <;> simp [hk]
  obtain ⟨rest, hahead⟩ := exists_ahead hs hne
  obtain ⟨rest', hahead'⟩ := exists_ahead ((takes_advance hs hne).valid hs) hk'
  obtain ⟨front, hfront⟩ := hs.suffix
  have hrest : s.advance.ahead = rest := by rw [Cursor.advance, hahead]; rfl
  exact ⟨front, s.current, rest', by rw [← hfront, hahead, ← hrest, hahead'], hk⟩

theorem start_join (hs : s.Valid t) (h : s.Passes s') :
    (s.current.span.join s'.current.span).start = s.offset :=
  Nat.min_eq_left (h.offset_le hs)

theorem start_join_tree {tree : Tree} (hs : s.Valid t) (h : s.Passes s') (htree : tree.ReadFrom t s' s'') :
    (s.current.span.join tree.span).start = s.offset :=
  Nat.min_eq_left (htree.takes.start_eq ▸ h.offset_le hs)

/-! ## identifiers between two cursors -/

/-- every identifier that begins between two cursors is selected by a dot, or held by something else -/
def Covers (t : Text) (s s' : Cursor) (held : Text → Span → Prop) : Prop :=
  ∀ token ∈ t.tokens, s.offset ≤ token.span.start → token.span.start < s'.offset →
    ∀ name, token.kind = .ident name → t.Selects token ∨ held name token.span

variable {held held' : Text → Span → Prop}

theorem covers_self (s : Cursor) : s.Covers t s held := by
  intro token _ hstart hstop
  omega

theorem Covers.mono (h : s.Covers t s' held) (himp : ∀ name place, held name place → held' name place) :
    s.Covers t s' held' :=
  fun token hmem hstart hstop name hk => (h token hmem hstart hstop name hk).imp_right (himp _ _)

theorem Covers.trans (h : s.Covers t s' held) (h' : s'.Covers t s'' held) : s.Covers t s'' held := by
  intro token hmem hstart hstop
  rcases Nat.lt_or_ge token.span.start s'.offset with hlt | hge
  · exact h token hmem hstart hlt
  · exact h' token hmem hge hstop

theorem Valid.covers_advance (hs : s.Valid t) (hk : s.current.kind ≠ .eof)
    (h : ∀ name, s.current.kind = .ident name → t.Selects s.current ∨ held name s.current.span) :
    s.Covers t s.advance held := by
  intro token hmem hstart hstop
  obtain ⟨rest, hahead⟩ := exists_ahead hs hk
  have htaken : s.ahead = [s.current] ++ s.advance.ahead := by rw [Cursor.advance, hahead]; rfl
  rw [List.mem_singleton.mp (hs.mem_taken htaken rfl hmem hstart hstop)]
  exact h

/-! ## trees between two cursors -/

/-- the names in sight go through the trees, which stand for the identifiers between two cursors -/
structure Scans (t : Text) (s : Cursor) (trees : List Tree) (s' : Cursor) : Prop where
  passes : s.Passes s'
  resolved : Tree.ResolvedAll t s.locals trees s'.locals
  covered : s.Covers t s' (Tree.AnyOwns t trees)

namespace Scans
variable {trees a b : List Tree} {tree : Tree} {node : Node Tree}

theorem nil (s : Cursor) : Scans t s [] s :=
  ⟨Passes.refl s, .nil _, covers_self s⟩

theorem append (h : Scans t s a s') (h' : Scans t s' b s'') : Scans t s (a ++ b) s'' := by
  refine ⟨h.passes.trans h'.passes, h.resolved.append h'.resolved, ?_⟩
  exact (h.covered.mono fun _ _ howns => howns.mono (List.subset_append_left a b)).trans
    (h'.covered.mono fun _ _ howns => howns.mono (List.subset_append_right a b))

theorem plain {names : List Text} (hpasses : s.Passes s') (hscope : node.scope? t Tree.span span = none)
    (hsettled : node.Settled t Tree.span span s.locals)
    (hall : Tree.ResolvedAll t (node.opening ++ s.locals) node.inOrder names)
    (hlocals : s'.locals = node.closing ++ names)
    (hcovered : s.Covers t s' (fun name place =>
      node.Owns t span name place ∨ Tree.AnyOwns t node.inOrder name place)) :
    Scans t s [⟨node, span⟩] s' := by
  refine ⟨hpasses, hlocals ▸ .single (.plain hscope hsettled hall), hcovered.mono ?_⟩
  rintro name place (howns | ⟨child, hmem, howns⟩)
  · exact ⟨_, List.mem_cons_self, .here howns⟩
  · exact ⟨_, List.mem_cons_self, .child (Node.mem_inOrder.mp hmem) howns⟩

theorem scope {scope : Scope Tree} (hscope : node.scope? t Tree.span span = some scope)
    (hpasses : s.Passes s') (houtside : Tree.ResolvedAll t s.locals scope.outside s'.locals)
    (hcovered : s.Covers t s' (fun name place =>
      node.Owns t span name place ∨ Tree.AnyOwns t scope.outside name place))
    (hinside : Scans t { s' with locals := scope.names s'.locals } scope.inside s'') :
    Scans t s [⟨node, span⟩] { s'' with locals := s'.locals } := by
  have howned {children : List Tree} (hsub : children ⊆ scope.outside ++ scope.inside) {name : Text}
      {place : Span} (h : Tree.AnyOwns t children name place) :
      Tree.AnyOwns t [⟨node, span⟩] name place := by
    obtain ⟨child, hmem, howns⟩ := h
    have hchild : child ∈ node.inOrder := by
      rw [Node.inOrder_of_scope? hscope]
      exact hsub hmem
    exact ⟨_, List.mem_cons_self, .child (Node.mem_inOrder.mp hchild) howns⟩
  refine ⟨hpasses.trans hinside.passes, .single (.scope hscope houtside hinside.resolved), ?_⟩
  refine (hcovered.mono ?_).trans
    (hinside.covered.mono fun _ _ => howned (List.subset_append_right _ _))
  rintro name place (howns | howns)
  · exact ⟨_, List.mem_cons_self, .here howns⟩
  · exact howned (List.subset_append_left _ _) howns

theorem wrap (h : Scans t s node.inOrder s') (hscope : node.scope? t Tree.span span = none)
    (hsettled : node.Settled t Tree.span span s.locals) (hopening : node.opening = [])
    (hclosing : node.closing = []) : Scans t s [⟨node, span⟩] s' := by
  have hall : Tree.ResolvedAll t (node.opening ++ s.locals) node.inOrder s'.locals := by
    rw [hopening]
    exact h.resolved
  exact plain h.passes hscope hsettled hall (by rw [hclosing]; rfl) (h.covered.mono fun _ _ => .inr)

theorem token (hs : s.Valid t) (hk : s.current.kind ≠ .eof)
    (h : ∀ name, s.current.kind = .ident name → t.Selects s.current) : Scans t s [] s.advance :=
  ⟨(takes_advance hs hk).passes, .nil _, hs.covers_advance hk fun name hident => .inl (h name hident)⟩

/-- a token of a kind that is neither that of an identifier nor the end -/
theorem mark (hs : s.Valid t) (h : s.current.kind ≠ .eof ∧ ∀ name, s.current.kind ≠ .ident name) :
    Scans t s [] s.advance :=
  token hs h.1 fun name hk => absurd hk (h.2 name)

/-- a construct whose spelling begins with the tokens of its first child -/
theorem other_from {first : Tree} {rest : List Tree} (h : Scans t s (first :: rest) s')
    (hstart : first.span.start = span.start) : Scans t s [⟨.other (first :: rest), span⟩] s' :=
  h.wrap (Node.scope?_other_of_start hstart) trivial rfl rfl

/-- a construct that begins with a token which is no reserved word for a class or module -/
theorem other_of_kind {children : List Tree} (h : Scans t s children s') (hs : s.Valid t)
    (hstart : span.start = s.offset) (hk : s.current.kind ≠ .eof)
    (hclass : s.current.kind ≠ .keyword .class_) (hmodule : s.current.kind ≠ .keyword .module_) :
    Scans t s [⟨.other children, span⟩] s' :=
  h.wrap (Node.scope?_other_of_kind (by rw [hstart]; exact hs.tokenFrom hk) hclass hmodule) trivial rfl rfl

end Scans

end Cursor

/-! ## readers -/

/-- a run gives a placed tree through which the names in sight go -/
def Parse.TracksTree (t : Text) (p : Parse Tree) (s : Cursor) : Prop :=
  Outcome p s (fun tree s' => tree.ReadFrom t s s' ∧ s.Scans t [tree] s') ReadError.Any

/-- every phrase gives a placed tree through which the names in sight go, and a branch is only read
where its reserved word stands -/
structure Descent.Tracks (t : Text) (depth : Nat) (descend : Descent) : Prop where
  sound : descend.Sound t depth
  scans : ∀ phrase place s, s.Valid t → s.ahead.length < depth →
    (phrase = .branch → ∃ word, s.current.kind = .keyword word) →
    Parse.Outcome (descend phrase place) s (fun tree s' => s.Scans t [tree] s') ReadError.Any

namespace Descent.Tracks
variable {t : Text} {descend : Descent} {depth : Nat} {s : Cursor}

theorem reads (hd : descend.Tracks t depth) (phrase : Phrase) (place : Place) (hs : s.Valid t)
    (hdepth : s.ahead.length < depth)
    (hbranch : phrase = .branch → ∃ word, s.current.kind = .keyword word) :
    Parse.TracksTree t (descend phrase place) s := by
  refine (hd.sound phrase place s hs hdepth fun h => ?_).and (hd.scans phrase place s hs hdepth hbranch)
  obtain ⟨word, hk⟩ := hbranch h
  simp [hk]

end Descent.Tracks

namespace Parse
open Cursor
variable {t : Text} {descend : Descent} {depth : Nat} {s s₀ : Cursor}

/-! ## loops -/

theorem separatedIn_scans {α : Type} {item : Parse α} (tree : α → Tree) {closer : Option Token.Kind}
    (hitem : ∀ s, s.Valid t → s.ahead.length < depth →
      Outcome item s (fun a s' => (tree a).ReadFrom t s s' ∧ Scans t s [tree a] s') ReadError.Any)
    (n : Nat) : ∀ s, s.Valid t → s.ahead.length < depth →
      Outcome (separatedIn item closer n) s (fun items => Scans t s (items.map tree)) ReadError.Any := by
  induction n with
  | zero => intro s hs hdepth; trivial
  | succ n ih =>
    intro s hs hdepth
    unfold separatedIn
    refine (hitem s hs hdepth).bind ?_
    rintro a s' ⟨hread, ha⟩
    have hs' := hread.takes.valid hs
    have hlt := hread.takes.length_lt
    rw [outcome_bind, outcome_eat]
    split
    next hcomma =>
      have hmark := Scans.mark hs' (by simp [hcomma])
      have hlen := hmark.passes.length_le
      have hcons : Outcome (do return a :: (← separatedIn item closer n)) s'.advance
          (fun items => Scans t s (items.map tree)) ReadError.Any := by
        refine (ih s'.advance (hmark.passes.valid hs') (by omega)).bind ?_
        intro items s'' hitems
        exact (ha.append hmark).append hitems
      cases closer with
      | none =>
        rw [if_pos rfl, outcome_bind, outcome_closes_none]
        exact hcons
      | some kind =>
        rw [if_pos rfl, outcome_bind, outcome_closes_some]
        split
        next => exact ha.append hmark
        next => exact hcons
    next => exact ha

theorem separated_scans {α : Type} {item : Parse α} (tree : α → Tree) {closer : Option Token.Kind}
    (hitem : ∀ s, s.Valid t → s.ahead.length < depth →
      Outcome item s (fun a s' => (tree a).ReadFrom t s s' ∧ Scans t s [tree a] s') ReadError.Any)
    (hs : s.Valid t) (hdepth : s.ahead.length < depth) :
    Outcome (separated item closer) s (fun items => Scans t s (items.map tree)) ReadError.Any := by
  unfold separated
  rw [outcome_bind, outcome_rounds]
  exact separatedIn_scans tree hitem _ s hs hdepth

/-- a step leaves all as it is, or gives a longer tree through which the names in sight go -/
def Lengthened (t : Text) (s₀ s : Cursor) (longer : Option Tree) (s' : Cursor) : Prop :=
  match longer with
  | none => s' = s
  | some tree => Scans t s₀ [tree] s'

theorem chained_scans {p : Parse Tree} {extend : Tree → Parse (Option Tree)} (hp : TracksTree t p s)
    (hext : ∀ tree s', tree.ReadFrom t s s' → Scans t s [tree] s' →
      Outcome (extend tree) s' (fun longer s'' => Extended t s s' longer s'' ∧ Lengthened t s s' longer s'')
        ReadError.Any) :
    Outcome (do chained extend (← p)) s (fun tree => Scans t s [tree]) ReadError.Any := by
  refine (chained_keeps hp fun tree s' h => (hext tree s' h.1 h.2).mono ?_).mono fun _ _ h => h.2
  rintro longer s'' ⟨hread, hlonger⟩
  cases longer with
  | none => exact hread
  | some longer => exact ⟨hread.1, hlonger⟩

theorem skipSemicolons_scans (hs : s.Valid t) :
    Scans t s [] { s with ahead := s.ahead.dropWhile (fun t => decide (t.kind = .semicolon)) } := by
  refine ⟨passes_skipSemicolons s, .nil _, fun token hmem hstart hstop name hk => ?_⟩
  have htaken := @Valid.mem_taken t s
    { s with ahead := s.ahead.dropWhile (fun t => decide (t.kind = .semicolon)) } hs _
    List.takeWhile_append_dropWhile.symm rfl token hmem hstart hstop
  have hsemicolon : token.kind = .semicolon := by simpa using List.mem_takeWhile_imp htaken
  rw [hk] at hsemicolon
  cases hsemicolon

theorem statementsIn_scans (hd : descend.Tracks t depth) (place : Place) (stop : Token.Kind → Bool)
    (n : Nat) : ∀ s, s.Valid t → s.ahead.length < depth →
      Outcome (statementsIn descend place stop n) s (Scans t s) ReadError.Any := by
  induction n with
  | zero => intro s hs hdepth; trivial
  | succ n ih =>
    intro s hs hdepth
    unfold statementsIn skipSemicolons
    rw [outcome_bind, outcome_modify, outcome_bind, outcome_finished]
    have hskip := skipSemicolons_scans hs
    have hs' := hskip.passes.valid hs
    have hle := hskip.passes.length_le
    generalize ({ s with ahead := s.ahead.dropWhile (fun t => decide (t.kind = .semicolon)) } : Cursor)
      = s' at hskip hs' hle
    split
    next => exact hskip
    next =>
      refine (hd.reads .statement place hs' (by omega) (by simp)).bind ?_
      rintro first s'' ⟨hread, hfirst⟩
      have hlt := hread.takes.length_lt
      simp only [outcome_bind, outcome_finished, outcome_sees, outcome_sameLine]
      split
      next =>
        refine (ih s'' (hread.takes.valid hs') (by omega)).bind ?_
        intro rest last hrest
        exact (hskip.append hfirst).append hrest
      next => trivial

theorem statements_scans (hd : descend.Tracks t depth) (place : Place) (stop : Token.Kind → Bool)
    (hs : s.Valid t) (hdepth : s.ahead.length < depth) :
    Outcome (statements descend place stop) s (Scans t s) ReadError.Any := by
  unfold statements
  rw [outcome_bind, outcome_rounds]
  exact statementsIn_scans hd place stop _ s hs hdepth

end Parse

end Collate
