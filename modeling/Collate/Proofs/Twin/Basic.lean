import Collate.Grammar.Call
import Collate.Proofs.Node.Outline

/-!
# Two runs side by side

A text and the same text without some of its values are read by the same functions.  The two runs
see the same kinds of tokens, except where a label with its value stands in one of them and the label
alone in the other, and what they build has the same outline.

* `Token.Like`         two tokens that differ in their places only;
* `Cursor.Beside`      the tokens ahead of two cursors are alike, up to the values left out;
* `Parse.Twin`         when the first reader succeeds, so does the second, with results that fit;
* `Parse.Returns`      all that a reader gives has a property.

The first run may find that a value cannot be left out.  What it builds is spoiled then, and nothing is
said about the second run.
-/

namespace Collate

/-- the tokens differ in their places only -/
structure Token.Like (a b : Token) : Prop where
  kind : a.kind = b.kind
  text : a.text = b.text
  spaceBefore : a.spaceBefore = b.spaceBefore
  newlineBefore : a.newlineBefore = b.newlineBefore

/-- Lists of tokens that are alike, up to the values of the labels at the offsets: a name on the line
of its label, behind which stands a token that ends a label. -/
inductive TokensBeside (omitted : Nat → Bool) (eof : Token) : List Token → List Token → Prop
  | nil : TokensBeside omitted eof [] []
  | cons {a b : Token} {as bs : List Token} (hlike : a.Like b)
      (hkept : omitted a.span.start = false) (h : TokensBeside omitted eof as bs) :
      TokensBeside omitted eof (a :: as) (b :: bs)
  | skip {label label' value : Token} {as bs : List Token} (name : Text) (hlike : label.Like label')
      (hat : omitted label.span.start = true) (hlabel : label.kind = .label name)
      (hvalue : value.kind = .ident name) (hline : value.newlineBefore = false)
      (hnext : ((as.headD eof).newlineBefore || Parse.endsLabel (as.headD eof).kind) = true)
      (h : TokensBeside omitted eof as bs) :
      TokensBeside omitted eof (label :: value :: as) (label' :: bs)

theorem TokensBeside.dropSemicolons {omitted : Nat → Bool} {eof : Token} {as bs : List Token}
    (h : TokensBeside omitted eof as bs) :
    TokensBeside omitted eof (as.dropWhile (fun t => decide (t.kind = .semicolon)))
      (bs.dropWhile (fun t => decide (t.kind = .semicolon))) := by
  induction h with
  | nil => exact .nil
  | @cons a b as bs hlike hkept h ih =>
    by_cases hk : a.kind = .semicolon
    · rw [List.dropWhile_cons_of_pos (by simpa using hk),
        List.dropWhile_cons_of_pos (by simpa [← hlike.kind] using hk)]
      exact ih
    · rw [List.dropWhile_cons_of_neg (by simpa using hk),
        List.dropWhile_cons_of_neg (by simpa [← hlike.kind] using hk)]
      exact .cons hlike hkept h
  | @skip label label' value as bs name hlike hat hlabel hvalue hline hnext h ih =>
    rw [List.dropWhile_cons_of_neg (by simp [hlabel]),
      List.dropWhile_cons_of_neg (by simp [← hlike.kind, hlabel])]
    exact .skip name hlike hat hlabel hvalue hline hnext h

namespace Cursor

theorem length_advance_le (s : Cursor) : s.advance.ahead.length ≤ s.ahead.length := by
  rw [advance, List.length_tail]
  exact Nat.sub_le _ _

def pastSemicolons (s : Cursor) : Cursor :=
  { s with ahead := s.ahead.dropWhile (fun t => decide (t.kind = .semicolon)) }

theorem pastSemicolons_length_le (s : Cursor) : s.pastSemicolons.ahead.length ≤ s.ahead.length :=
  (List.dropWhile_suffix _).length_le

/-- the cursors stand at the same place of two texts -/
structure Beside (omitted : Nat → Bool) (s s' : Cursor) : Prop where
  ahead : TokensBeside omitted s.eof s.ahead s'.ahead
  eof : s.eof.Like s'.eof
  eof_kind : s.eof.kind = .eof
  /-- the same names are in sight, in whatever order they came -/
  locals : ∀ name, s.locals.contains name = s'.locals.contains name

namespace Beside
variable {omitted : Nat → Bool} {s s' : Cursor}

theorem headD_like {eof eof' : Token} {as bs : List Token} (h : TokensBeside omitted eof as bs)
    (heof : eof.Like eof') : (as.headD eof).Like (bs.headD eof') := by
  cases h with
  | nil => exact heof
  | cons hlike => exact hlike
  | skip name hlike => exact hlike

theorem current_like (h : s.Beside omitted s') : s.current.Like s'.current :=
  headD_like h.ahead h.eof

theorem kind_eq (h : s.Beside omitted s') : s'.current.kind = s.current.kind :=
  h.current_like.kind.symm

theorem newlineBefore_eq (h : s.Beside omitted s') :
    s'.current.newlineBefore = s.current.newlineBefore :=
  h.current_like.newlineBefore.symm

theorem spaceBefore_eq (h : s.Beside omitted s') : s'.current.spaceBefore = s.current.spaceBefore :=
  h.current_like.spaceBefore.symm

theorem advance (h : s.Beside omitted s') (hk : ∀ name, s.current.kind ≠ .label name) :
    s.advance.Beside omitted s'.advance := by
  obtain ⟨ahead, eof, locals⟩ := s
  obtain ⟨ahead', eof', locals'⟩ := s'
  obtain ⟨hahead, heof, hkind, hlocals⟩ := h
  refine ⟨?_, heof, hkind, hlocals⟩
  cases hahead with
  | nil => exact .nil
  | cons hlike hkept h => exact h
  | skip name hlike hat hlabel => exact absurd hlabel (hk name)

theorem second_like (h : s.Beside omitted s') (hk : ∀ name, s.current.kind ≠ .label name) :
    s.second.Like s'.second :=
  (h.advance hk).current_like

/-- a label is taken on both sides, with its value if that is left out on the second one -/
theorem advance_label (h : s.Beside omitted s') {name : Text} (hk : s.current.kind = .label name) :
    (s.advance.Beside omitted s'.advance ∧ omitted s.current.span.start = false) ∨
      (s.advance.advance.Beside omitted s'.advance ∧ omitted s.current.span.start = true ∧
        s.advance.current.kind = .ident name ∧ s.advance.current.newlineBefore = false ∧
        (s'.advance.current.newlineBefore || Parse.endsLabel s'.advance.current.kind) = true) := by
  obtain ⟨ahead, eof, locals⟩ := s
  obtain ⟨ahead', eof', locals'⟩ := s'
  obtain ⟨hahead, heof, hkind, hlocals⟩ := h
  cases hahead with
  | nil => exact nomatch hk.symm.trans hkind
  | cons hlike hkept h => exact .inl ⟨⟨h, heof, hkind, hlocals⟩, hkept⟩
  | skip held hlike hat hlabel hvalue hline hnext h =>
    obtain rfl : held = name := Token.Kind.label.inj (hlabel.symm.trans hk)
    have hnextLike := headD_like h heof
    refine .inr ⟨⟨h, heof, hkind, hlocals⟩, hat, hvalue, hline, ?_⟩
    rw [hnextLike.newlineBefore, hnextLike.kind] at hnext
    exact hnext

theorem length_advance (h : s.Beside omitted s') (hk : s.current.kind ≠ .eof) :
    s'.advance.ahead.length < s'.ahead.length := by
  obtain ⟨ahead, eof, locals⟩ := s
  obtain ⟨ahead', eof', locals'⟩ := s'
  obtain ⟨hahead, heof, hkind, hlocals⟩ := h
  cases hahead with
  | nil => exact absurd hkind hk
  | cons hlike hkept h => exact Nat.lt_succ_self _
  | skip held hlike hat hlabel hvalue hline hnext h => exact Nat.lt_succ_self _

theorem withLocals (h : s.Beside omitted s') {names names' : List Text}
    (hnames : ∀ name, names.contains name = names'.contains name) :
    ({ s with locals := names } : Cursor).Beside omitted { s' with locals := names' } :=
  ⟨h.ahead, h.eof, h.eof_kind, hnames⟩

theorem declare (h : s.Beside omitted s') (name : Text) :
    ({ s with locals := name :: s.locals } : Cursor).Beside omitted
      { s' with locals := name :: s'.locals } :=
  h.withLocals fun other => by rw [List.contains_cons, List.contains_cons, h.locals]

theorem pastSemicolons (h : s.Beside omitted s') :
    s.pastSemicolons.Beside omitted s'.pastSemicolons :=
  ⟨h.ahead.dropSemicolons, h.eof, h.eof_kind, h.locals⟩

end Beside

end Cursor

namespace Parse
variable {α β γ δ : Type} {omitted : Nat → Bool} {s s' : Cursor}

/-! ## what a reader gives -/

def Returns (p : Parse α) (P : α → Prop) : Prop :=
  ∀ s a s', p s = .ok (a, s') → P a

theorem bind_eq_ok_iff {p : Parse α} {f : α → Parse β} {b : β} {s₂ : Cursor} :
    (p >>= f) s = .ok (b, s₂) ↔ ∃ a s₁, p s = .ok (a, s₁) ∧ f a s₁ = .ok (b, s₂) := by
  show (p s >>= fun x => f x.1 x.2 : Except ReadError (β × Cursor)) = _ ↔ _
  cases hp : p s with
  | error e => exact ⟨fun h => (nomatch h), fun ⟨a, s₁, h, _⟩ => (nomatch h)⟩
  | ok x =>
    constructor
    · intro h
      exact ⟨x.1, x.2, rfl, h⟩
    · rintro ⟨a, s₁, h, hf⟩
      rw [Except.ok.inj h]
      exact hf

theorem Returns.pure {a : α} {P : α → Prop} (h : P a) : Returns (pure a) P := by
  intro s b s' hrun
  rw [← (Prod.mk.inj (Except.ok.inj hrun)).1]
  exact h

theorem Returns.bind {p : Parse α} {f : α → Parse β} {P : β → Prop} (h : ∀ a, Returns (f a) P) :
    Returns (p >>= f) P := by
  intro s b s₂ hrun
  obtain ⟨a, s₁, -, hf⟩ := bind_eq_ok_iff.mp hrun
  exact h a s₁ b s₂ hf

theorem Returns.throw {e : ReadError} {P : α → Prop} : Returns (throw e) P := by
  intro s a s' hrun
  exact nomatch hrun

theorem Returns.failHere {cause : Option Text → ReadCause} {P : α → Prop} :
    Returns (failHere cause) P := by
  intro s a s' hrun
  exact nomatch hrun

theorem Returns.outOfSteps {P : α → Prop} : Returns outOfSteps P :=
  Returns.failHere

theorem Returns.ite {p q : Parse α} {P : α → Prop} {c : Prop} [Decidable c] (hp : Returns p P)
    (hq : Returns q P) : Returns (if c then p else q) P := by
  by_cases hc : c
  · rw [if_pos hc]
    exact hp
  · rw [if_neg hc]
    exact hq

theorem Returns.withinScope {sight : Sight} {body : Parse α} {P : α → Prop} (h : Returns body P) :
    Returns (withinScope sight body) P := by
  unfold Parse.withinScope
  refine Returns.bind fun outer => ?_
  have hrest : Returns (do let result ← body; modify (fun s => { s with locals := outer.locals }); return result) P := by
    intro s b s₂ hrun
    obtain ⟨a, s₁, hbody, hf⟩ := bind_eq_ok_iff.mp hrun
    obtain ⟨_, s₃, -, hf⟩ := bind_eq_ok_iff.mp hf
    rw [← (Prod.mk.inj (Except.ok.inj hf)).1]
    exact h s a s₁ hbody
  dsimp only
  split
  · exact Returns.bind fun _ => hrest
  · exact hrest

/-! ## two readers -/

/-- When the first reader succeeds, its result is lost or the second one succeeds too, and the results
fit. -/
def Twin (omitted : Nat → Bool) (lost : α → Prop) (fit : α → β → Cursor → Prop) (p : Parse α)
    (p' : Parse β) (s s' : Cursor) : Prop :=
  ∀ a s₁, p s = .ok (a, s₁) → lost a ∨
    ∃ b s₁', p' s' = .ok (b, s₁') ∧ s₁.Beside omitted s₁' ∧ fit a b s₁'

variable {lost : α → Prop} {fit : α → β → Cursor → Prop}

theorem Twin.mono {fit' : α → β → Cursor → Prop} {p : Parse α} {p' : Parse β}
    (h : Twin omitted lost fit p p' s s') (hfit : ∀ a b s₁, fit a b s₁ → fit' a b s₁) :
    Twin omitted lost fit' p p' s s' := by
  intro a s₁ hrun
  rcases h a s₁ hrun with hlost | ⟨b, s₁', hrun', hbeside, hab⟩
  · exact .inl hlost
  · exact .inr ⟨b, s₁', hrun', hbeside, hfit a b s₁' hab⟩

theorem Twin.pure {a : α} {b : β} (hbeside : s.Beside omitted s') (h : fit a b s') :
    Twin omitted lost fit (pure a) (pure b) s s' := by
  intro c s₁ hrun
  obtain ⟨rfl, rfl⟩ := Prod.mk.inj (Except.ok.inj hrun)
  exact .inr ⟨b, s', rfl, hbeside, h⟩

theorem Twin.throw {e : ReadError} {p' : Parse β} : Twin omitted lost fit (throw e) p' s s' := by
  intro a s₁ hrun
  exact nomatch hrun

theorem Twin.failHere {cause : Option Text → ReadCause} {p' : Parse β} :
    Twin omitted lost fit (failHere cause) p' s s' := by
  intro a s₁ hrun
  exact nomatch hrun

theorem Twin.outOfSteps {p' : Parse β} : Twin omitted lost fit outOfSteps p' s s' :=
  Twin.failHere

theorem Twin.of_lost {p : Parse α} {p' : Parse β} (h : Returns p lost) :
    Twin omitted lost fit p p' s s' :=
  fun a s₁ hrun => .inl (h s a s₁ hrun)

/-- one part after the other; what is lost in the first part is lost in all -/
theorem Twin.bind {lost₂ : γ → Prop} {fit₂ : γ → δ → Cursor → Prop} {p : Parse α} {p' : Parse β}
    {f : α → Parse γ} {f' : β → Parse δ} (h : Twin omitted lost fit p p' s s')
    (hlost : ∀ a, lost a → Returns (f a) lost₂)
    (hf : ∀ a b s₁ s₁', s₁.Beside omitted s₁' → fit a b s₁' → Twin omitted lost₂ fit₂ (f a) (f' b) s₁ s₁') :
    Twin omitted lost₂ fit₂ (p >>= f) (p' >>= f') s s' := by
  intro c s₂ hrun
  obtain ⟨a, s₁, hp, hfa⟩ := bind_eq_ok_iff.mp hrun
  rcases h a s₁ hp with ha | ⟨b, s₁', hp', hbeside, hab⟩
  · exact .inl (hlost a ha s₁ c s₂ hfa)
  · rcases hf a b s₁ s₁' hbeside hab c s₂ hfa with hc | ⟨d, s₂', hf', hrest⟩
    · exact .inl hc
    · exact .inr ⟨d, s₂', bind_eq_ok_iff.mpr ⟨b, s₁', hp', hf'⟩, hrest⟩

theorem Twin.step {lost₂ : γ → Prop} {fit₂ : γ → δ → Cursor → Prop} {p : Parse α} {p' : Parse β}
    {f : α → Parse γ} {f' : β → Parse δ} {a : α} {b : β} {s₁ s₁' : Cursor} (hp : p s = .ok (a, s₁))
    (hp' : p' s' = .ok (b, s₁')) (h : Twin omitted lost₂ fit₂ (f a) (f' b) s₁ s₁') :
    Twin omitted lost₂ fit₂ (p >>= f) (p' >>= f') s s' := by
  intro c s₂ hrun
  obtain ⟨a', s₁'', hpa, hfa⟩ := bind_eq_ok_iff.mp hrun
  obtain ⟨rfl, rfl⟩ := Prod.mk.inj (Except.ok.inj (hp.symm.trans hpa))
  rcases h c s₂ hfa with hc | ⟨d, s₂', hf', hrest⟩
  · exact .inl hc
  · exact .inr ⟨d, s₂', bind_eq_ok_iff.mpr ⟨b, s₁', hp', hf'⟩, hrest⟩

theorem Twin.ite {p q : Parse α} {p' q' : Parse β} {c : Prop} [Decidable c]
    (hpos : c → Twin omitted lost fit p p' s s') (hneg : ¬c → Twin omitted lost fit q q' s s') :
    Twin omitted lost fit (if c then p else q) (if c then p' else q') s s' := by
  by_cases hc : c
  · rw [if_pos hc, if_pos hc]
    exact hpos hc
  · rw [if_neg hc, if_neg hc]
    exact hneg hc

theorem Twin.expect {f : Token → Parse α} {f' : Token → Parse β} {kind : Token.Kind} {wanted : String}
    (hbeside : s.Beside omitted s')
    (h : s.current.kind = kind →
      Twin omitted lost fit (f s.current) (f' s'.current) s.advance s'.advance) :
    Twin omitted lost fit (expect kind wanted >>= f) (expect kind wanted >>= f') s s' := by
  by_cases hk : s.current.kind = kind
  · have hrun (c : Cursor) (hc : c.current.kind = kind) :
        Parse.expect kind wanted c = .ok (c.current, c.advance) := by
      show (if decide (c.current.kind = kind) = true then Parse.advance else _) c = _
      rw [if_pos (decide_eq_true hc)]
      rfl
    exact Twin.step (hrun s hk) (hrun s' (hbeside.kind_eq.trans hk)) (h hk)
  · intro a s₁ hrun
    obtain ⟨token, s₂, hexpect, -⟩ := bind_eq_ok_iff.mp hrun
    change (if decide (s.current.kind = kind) = true then Parse.advance else _) s = _ at hexpect
    rw [if_neg (by simpa using hk)] at hexpect
    exact nomatch hexpect

theorem Twin.eat {f : Bool → Parse α} {f' : Bool → Parse β} {kind : Token.Kind}
    (hbeside : s.Beside omitted s')
    (hpos : s.current.kind = kind → Twin omitted lost fit (f true) (f' true) s.advance s'.advance)
    (hneg : s.current.kind ≠ kind → Twin omitted lost fit (f false) (f' false) s s') :
    Twin omitted lost fit (eat kind >>= f) (eat kind >>= f') s s' := by
  have htrue (c : Cursor) (hc : c.current.kind = kind) :
      Parse.eat kind c = .ok (true, c.advance) := by
    show (if decide (c.current.kind = kind) = true then _ else _ : Parse Bool) c = _
    rw [if_pos (decide_eq_true hc)]
    rfl
  have hfalse (c : Cursor) (hc : ¬c.current.kind = kind) : Parse.eat kind c = .ok (false, c) := by
    show (if decide (c.current.kind = kind) = true then _ else _ : Parse Bool) c = _
    rw [if_neg (by simpa using hc)]
    rfl
  by_cases hk : s.current.kind = kind
  · exact Twin.step (htrue s hk) (htrue s' (hbeside.kind_eq.trans hk)) (hpos hk)
  · exact Twin.step (hfalse s hk) (hfalse s' (by rw [hbeside.kind_eq]; exact hk)) (hneg hk)

theorem Twin.withinScope {sight : Sight} {body : Parse α} {body' : Parse β}
    (hlocals : ∀ name, s.locals.contains name = s'.locals.contains name)
    (hfit : ∀ a b s₁' names, fit a b s₁' → fit a b { s₁' with locals := names })
    (h : Twin omitted lost fit body body'
      { s with locals := if sight = .closed then [] else s.locals }
      { s' with locals := if sight = .closed then [] else s'.locals }) :
    Twin omitted lost fit (withinScope sight body) (withinScope sight body') s s' := by
  have hrun {γ : Type} (q : Parse γ) (c : Cursor) :
      Parse.withinScope sight q c = (do
        let r ← q { c with locals := if sight = .closed then [] else c.locals }
        return (r.1, { r.2 with locals := c.locals })) := by
    cases sight with
    | through => rfl
    | closed => rfl
  intro a s₁ hwhole
  rw [hrun] at hwhole
  cases hbody : body { s with locals := if sight = .closed then [] else s.locals } with
  | error e =>
    rw [hbody] at hwhole
    exact nomatch hwhole
  | ok r =>
    obtain ⟨a', s₂⟩ := r
    rw [hbody] at hwhole
    obtain ⟨rfl, rfl⟩ := Prod.mk.inj (Except.ok.inj hwhole)
    rcases h a' s₂ hbody with hlost | ⟨b, s₂', hbody', hbeside', hab⟩
    · exact .inl hlost
    · refine .inr ⟨b, { s₂' with locals := s'.locals }, ?_, hbeside'.withLocals hlocals, hfit _ _ _ _ hab⟩
      rw [hrun, hbody']
      rfl

/-! ## readers of trees -/

/-- The trees have the same outline, and less than so many tokens are left. -/
def TreeTwin (omitted : Nat → Bool) (n : Nat) (p p' : Parse Tree) (s s' : Cursor) : Prop :=
  Twin omitted (Tree.Spoiled omitted)
    (fun a b s₁' => a.outline omitted = b.bare ∧ s₁'.ahead.length < n) p p' s s'

/-- The lists of trees have the same outlines, and less than so many tokens are left. -/
def ListTwin (omitted : Nat → Bool) (n : Nat) (p p' : Parse (List Tree)) (s s' : Cursor) : Prop :=
  Twin omitted (Tree.AnySpoiled omitted)
    (fun as bs s₁' => as.map (Tree.outline omitted) = bs.map Tree.bare ∧ s₁'.ahead.length < n)
    p p' s s'

end Parse

/-- The phrases of two runs have the same outlines, down to a depth.  An expression that gives a
local variable is that name alone. -/
structure Descent.Twins (omitted : Nat → Bool) (depth : Nat) (descend descend' : Descent) : Prop where
  reads : ∀ phrase place s s', s.Beside omitted s' → s'.ahead.length < depth →
    (phrase = .branch → ∃ word, s.current.kind = .keyword word) →
    Parse.TreeTwin omitted s'.ahead.length (descend phrase place) (descend' phrase place) s s'
  variable_alone : ∀ place s tree s₁ name, descend .expression place s = .ok (tree, s₁) →
    tree.node = .localVariable name → s₁ = s.advance

end Collate
