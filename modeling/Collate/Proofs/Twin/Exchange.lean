import Collate.Proofs.Derivation.Form
import Collate.Proofs.Document.Respaced

/-!
# Parameters in another order

Parameters without default values may be written in any order, if parentheses hold them.  Each of them is a
token that declares one name, and the body sees the same names whatever order they came in.

* `Token.Kind.parameter?`         the parameter that a token declares;
* `Cursor.Defines`                a definition with such parameters begins at a cursor;
* `Parse.signature_declares`      its parameters are read as they stand;
* `Parse.definition_exchanged`    the definition with its parameters in another order.
-/

namespace Collate

/-- the parameter that a token declares: a name, or a label without a value -/
def Token.Kind.parameter? : Token.Kind → Option (ParameterKind × Text)
  | .ident name => some (.required, name)
  | .label name => some (.keyword, name)
  | _ => none

def Tree.ofParameter (param : ParameterKind × Text) : Tree :=
  ⟨.parameter param.1 (some param.2) none, .blank⟩

/-- tokens that declare parameters, with commas between them, and the tokens behind -/
inductive ListsParameters (behind : List Token) : List (ParameterKind × Text) → List Token → Prop
  | last {token : Token} {param : ParameterKind × Text} (h : token.kind.parameter? = some param) :
      ListsParameters behind [param] (token :: behind)
  | cons {token comma : Token} {param : ParameterKind × Text} {params : List (ParameterKind × Text)}
      {ahead : List Token} (h : token.kind.parameter? = some param) (hcomma : comma.kind = .comma)
      (rest : ListsParameters behind params ahead) :
      ListsParameters behind (param :: params) (token :: comma :: ahead)

namespace ListsParameters
variable {behind ahead : List Token} {params : List (ParameterKind × Text)}

theorem length_le (h : ListsParameters behind params ahead) : params.length ≤ ahead.length := by
  induction h with
  | last h => exact Nat.succ_le_succ (Nat.zero_le _)
  | cons h hcomma rest ih => exact Nat.succ_le_succ (Nat.le_succ_of_le ih)

theorem behind_length_lt (h : ListsParameters behind params ahead) : behind.length < ahead.length := by
  induction h with
  | last h => exact Nat.lt_succ_self _
  | cons h hcomma rest ih => exact Nat.lt_succ_of_lt (Nat.lt_succ_of_lt ih)

theorem exists_first (h : ListsParameters behind params ahead) :
    ∃ token others, ahead = token :: others ∧ token.kind ≠ .rightParen := by
  have hopen {token : Token} {param : ParameterKind × Text} (h : token.kind.parameter? = some param) :
      token.kind ≠ .rightParen := fun hk => by
    rw [hk] at h
    cases h
  cases h with
  | last h => exact ⟨_, _, rfl, hopen h⟩
  | cons h => exact ⟨_, _, rfl, hopen h⟩

end ListsParameters

/-- A definition of this name begins here.  Parentheses hold its parameters, which have no default values. -/
def Cursor.Defines (s : Cursor) (method : Text) (params : List (ParameterKind × Text))
    (behind : List Token) : Prop :=
  ∃ keyword name opening closing ahead, s.ahead = keyword :: name :: opening :: ahead ∧
    name.kind.definedName? = some method ∧ opening.kind = .leftParen ∧ closing.kind = .rightParen ∧
    ListsParameters (closing :: behind) params ahead

theorem Cursor.Defines.behind_length_lt {s : Cursor} {method : Text} {params : List (ParameterKind × Text)}
    {behind : List Token} (h : s.Defines method params behind) : behind.length < s.ahead.length := by
  obtain ⟨keyword, name, opening, closing, ahead, hahead, -, -, -, hparams⟩ := h
  have hlt := hparams.behind_length_lt
  rw [hahead]
  simp only [List.length_cons] at hlt ⊢
  omega

namespace Parse
variable {descend : Descent} {place : Place} {s : Cursor}

/-! ## the parameters -/

/-- the parameters are read, and their names are in sight behind them -/
def Declares (s : Cursor) (params : List (ParameterKind × Text)) (behind : List Token) (trees : List Tree)
    (s' : Cursor) : Prop :=
  s' = { s with ahead := behind, locals := (params.map Prod.snd).reverse ++ s.locals } ∧
    trees.map Tree.bare = params.map Tree.ofParameter

theorem parameter_declares {token next : Token} {more : List Token} {param : ParameterKind × Text}
    (hahead : s.ahead = token :: next :: more) (h : token.kind.parameter? = some param)
    (hnext : next.kind = .comma ∨ next.kind = .rightParen) :
    Outcome (parameter descend place) s (fun tree s' =>
      s' = { s with ahead := next :: more, locals := param.2 :: s.locals } ∧ tree.bare = .ofParameter param)
      (fun _ => False) := by
  have hadvance : s.advance = { s with ahead := next :: more } := by
    rw [Cursor.advance, hahead]
    rfl
  unfold parameter
  rw [outcome_bind, outcome_advance, Cursor.current_cons hahead, hadvance]
  cases hk : token.kind with
  | ident name =>
    rw [hk] at h
    obtain rfl := Option.some.inj h
    have hassign : next.kind ≠ .assign := by rcases hnext with h | h <;> simp [h]
    refine (outcome_bind _ _).mpr ((outcome_eat _).mpr ?_)
    refine (if_neg hassign).mpr ?_
    exact (outcome_bind _ _).mpr ((outcome_declare _).mpr ⟨rfl, rfl⟩)
  | label name =>
    rw [hk] at h
    obtain rfl := Option.some.inj h
    have hends : endsLabel next.kind = true := by rcases hnext with h | h <;> simp [h, endsLabel]
    refine (outcome_bind _ _).mpr (outcome_valueOmitted.mpr ?_)
    rw [show ({ s with ahead := next :: more } : Cursor).current = next from rfl, hends, Bool.or_true, if_pos rfl]
    exact (outcome_bind _ _).mpr ((outcome_declare _).mpr ⟨rfl, rfl⟩)
  | _ =>
    rw [hk] at h
    cases h

theorem separatedIn_declares {closing : Token} {more ahead : List Token} {params : List (ParameterKind × Text)}
    (h : ListsParameters (closing :: more) params ahead) (hclosing : closing.kind = .rightParen) :
    ∀ (n : Nat) (s : Cursor), params.length ≤ n → s.ahead = ahead →
      Outcome (separatedIn (parameter descend place) none n) s (Declares s params (closing :: more))
        (fun _ => False) := by
  induction h with
  | @last token param h =>
    intro n s hn hahead
    obtain ⟨n, rfl⟩ := Nat.exists_eq_succ_of_ne_zero (Nat.ne_of_gt hn)
    refine (parameter_declares hahead h (.inr hclosing)).bind ?_
    rintro tree s' ⟨rfl, htree⟩
    refine (outcome_bind _ _).mpr ((outcome_eat _).mpr ?_)
    have hcomma : closing.kind ≠ .comma := by simp [hclosing]
    refine (if_neg hcomma).mpr ?_
    exact ⟨rfl, congrArg (fun tree => [tree]) htree⟩
  | @cons token comma param params ahead h hcomma rest ih =>
    intro n s hn hahead
    obtain ⟨n, rfl⟩ := Nat.exists_eq_succ_of_ne_zero (Nat.ne_of_gt (Nat.zero_lt_of_lt hn))
    refine (parameter_declares hahead h (.inl hcomma)).bind ?_
    rintro tree s' ⟨rfl, htree⟩
    refine (outcome_bind _ _).mpr ((outcome_eat _).mpr ?_)
    refine (if_pos hcomma).mpr ?_
    refine (outcome_bind _ _).mpr (outcome_closes_none.mpr ?_)
    refine (ih n _ (Nat.le_of_succ_le_succ hn) rfl).bind ?_
    rintro trees s' ⟨rfl, htrees⟩
    refine ⟨by simp [Cursor.advance], ?_⟩
    rw [List.map_cons, List.map_cons, htree, htrees]

theorem signature_declares (descend : Descent) (place : Place) {opening closing : Token} {more ahead : List Token}
    {params : List (ParameterKind × Text)} (hahead : s.ahead = opening :: ahead)
    (hopening : opening.kind = .leftParen) (hclosing : closing.kind = .rightParen)
    (h : ListsParameters (closing :: more) params ahead) :
    Outcome (signature descend place) s (Declares s params more) (fun _ => False) := by
  have hadvance : s.advance = { s with ahead := ahead } := by
    rw [Cursor.advance, hahead]
    rfl
  obtain ⟨first, others, hfirst, hopen⟩ := h.exists_first
  unfold signature parameters separated
  rw [outcome_bind, outcome_sees, Cursor.current_cons hahead, hopening, if_pos (decide_eq_true rfl), outcome_bind,
    outcome_advance, hadvance]
  refine (outcome_bind _ _).mpr ((outcome_bind _ _).mpr ((outcome_closes_some _).mpr ?_))
  rw [Cursor.current_cons hfirst, if_neg (by simpa using hopen)]
  refine (outcome_bind _ _).mpr (outcome_rounds.mpr ?_)
  refine (separatedIn_declares h hclosing _ _ (Nat.le_succ_of_le h.length_le) rfl).mono ?_
  rintro trees s' ⟨rfl, htrees⟩
  refine (outcome_bind _ _).mpr ((outcome_expect _ _).mpr ?_)
  exact (if_pos hclosing).mpr ⟨rfl, htrees⟩

/-! ## the definition -/

theorem singleton_run (h : s.second.kind ≠ .dot) : singleton s = .ok (none, s) := by
  show (if s.current.kind = .keyword .self_ ∧ s.second.kind = .dot then _ else _ : Parse (Option Tree)) s = _
  rw [if_neg fun hself => h hself.2]
  rfl

theorem definedName_run {name next : Token} {more : List Token} {method : Text}
    (hahead : s.ahead = name :: next :: more) (hname : name.kind.definedName? = some method)
    (hnext : next.kind ≠ .assign) : definedName s = .ok (method, s.advance) := by
  have hcurrent : s.advance.current = next := by
    rw [Cursor.advance, hahead]
    rfl
  have hplain : Outcome definedName s (fun held s' => held = method ∧ s' = s.advance) (fun _ => False) := by
    unfold definedName
    rw [outcome_bind, outcome_advance, Cursor.current_cons hahead]
    cases hk : name.kind with
    | ident held | const held | op held | keyword held =>
      rw [hk] at hname
      obtain rfl := Option.some.inj hname
      refine (outcome_bind _ _).mpr ((outcome_pure _).mpr ((outcome_bind _ _).mpr (outcome_get.mpr ?_)))
      rw [if_neg fun hassign => hnext (hcurrent ▸ hassign.1)]
      exact ⟨rfl, rfl⟩
    | _ =>
      rw [hk] at hname
      cases hname
  obtain ⟨held, s', hrun, rfl, rfl⟩ := hplain.exists_run
  exact hrun

/-- up to the end of its parameters a definition is read as it stands, with names of its own -/
theorem defines_run {method : Text} {params : List (ParameterKind × Text)} {behind : List Token}
    (h : s.Defines method params behind) (descend : Descent) (place : Place) :
    singleton s.advance = .ok (none, s.advance) ∧
      definedName s.advance = .ok (method, s.advance.advance) ∧
      ∃ trees, signature descend place { s.advance.advance with locals := [] }
          = .ok (trees, ⟨behind, s.eof, (params.map Prod.snd).reverse⟩) ∧
        trees.map Tree.bare = params.map Tree.ofParameter := by
  obtain ⟨keyword, name, opening, closing, ahead, hahead, hname, hopening, hclosing, hparams⟩ := h
  have hhead : s.advance.ahead = name :: opening :: ahead := by
    rw [Cursor.advance, hahead]
    rfl
  have hparen : s.advance.advance.ahead = opening :: ahead := by
    rw [Cursor.advance, hhead]
    rfl
  have hsecond : s.advance.second.kind = .leftParen := by
    rw [Cursor.second, hhead]
    exact hopening
  obtain ⟨trees, s', hrun, rfl, htrees⟩ := (@signature_declares { s.advance.advance with locals := [] } descend
    place opening closing behind ahead params hparen hopening hclosing hparams).exists_run
  refine ⟨singleton_run (by simp [hsecond]), definedName_run hhead hname (by simp [hopening]), trees, ?_, htrees⟩
  rw [hrun, List.append_nil]
  rfl

/-- a definition with its parameters in one order, and in another one -/
def Exchanged (method : Text) (params params' : List (ParameterKind × Text)) (tree tree' : Tree) : Prop :=
  ∃ keyword keyword' trees trees' body body', tree.node = .definition keyword method none trees body ∧
    tree'.node = .definition keyword' method none trees' body' ∧
    trees.map Tree.bare = params.map Tree.ofParameter ∧ trees'.map Tree.bare = params'.map Tree.ofParameter ∧
    body.map Tree.bare = body'.map Tree.bare

theorem definition_twin_exchanged {descend' : Descent} {depth : Nat} {s' : Cursor} {method : Text}
    {params params' : List (ParameterKind × Text)} {behind behind' : List Token}
    (hd : descend.Twins (fun _ => false) depth descend') (place : Place) (h : s.Defines method params behind)
    (h' : s'.Defines method params' behind') (hperm : params.Perm params')
    (hbehind : TokensBeside (fun _ => false) s.eof behind behind') (heof : s.eof.Like s'.eof)
    (hkind : s.eof.kind = .eof) (hlocals : ∀ name, s.locals.contains name = s'.locals.contains name)
    (hdepth : s'.ahead.length ≤ depth) :
    Twin (fun _ => false) (Tree.Spoiled fun _ => false)
      (fun tree tree' _ => Exchanged method params params' tree tree')
      (definition descend place) (definition descend' place) s s' := by
  obtain ⟨hsingleton, hmethod, trees, hrun, htrees⟩ := defines_run h descend place
  obtain ⟨hsingleton', hmethod', trees', hrun', htrees'⟩ := defines_run h' descend' place
  unfold definition
  refine Twin.step rfl rfl (Twin.step hsingleton hsingleton' (Twin.step hmethod hmethod' ?_))
  refine Twin.withinScope hlocals (fun _ _ _ _ h => h) ?_
  rw [if_pos rfl, if_pos rfl]
  refine Twin.step hrun hrun' ?_
  -- the body sees the same names, and what stands there is alike
  have hsight (name : Text) : (params.map Prod.snd).reverse.contains name
      = (params'.map Prod.snd).reverse.contains name := by
    rw [Bool.eq_iff_iff, List.contains_iff_mem, List.contains_iff_mem, List.mem_reverse, List.mem_reverse]
    exact (hperm.map Prod.snd).mem_iff
  have hb : Cursor.Beside (fun _ => false) ⟨behind, s.eof, (params.map Prod.snd).reverse⟩
      ⟨behind', s'.eof, (params'.map Prod.snd).reverse⟩ := ⟨hbehind, heof, hkind, hsight⟩
  have hlength := Nat.lt_of_lt_of_le h'.behind_length_lt hdepth
  refine (definedBody_twin hd place hb hlength (Nat.lt_succ_self _)).mono ?_
  rintro tree tree' s₂ ⟨⟨body, body', hnode, hnode', hsame⟩, -⟩
  exact ⟨_, _, _, _, body, body', hnode, hnode', htrees, htrees', hsame⟩

/-- **A definition may have its parameters in another order**, if they are names and labels without values in
parentheses.  It is read again, with these parameters and the same body. -/
theorem definition_exchanged {s s' : Cursor} {method : Text} {params params' : List (ParameterKind × Text)}
    {behind behind' : List Token} (place : Place) (h : s.Defines method params behind)
    (h' : s'.Defines method params' behind') (hperm : params.Perm params')
    (hbehind : TokensBeside (fun _ => false) s.eof behind behind') (heof : s.eof.Like s'.eof)
    (hkind : s.eof.kind = .eof) (hlocals : ∀ name, s.locals.contains name = s'.locals.contains name)
    {depth depth' : Nat} (hdepth : s'.ahead.length ≤ depth') {tree : Tree} {s₁ : Cursor}
    (hrun : definition (phrase depth) place s = .ok (tree, s₁)) :
    ∃ tree' s₁', definition (phrase depth') place s' = .ok (tree', s₁') ∧
      s₁.Beside (fun _ => false) s₁' ∧ Exchanged method params params' tree tree' :=
  (definition_twin_exchanged (phrase_twins depth depth') place h h' hperm hbehind heof hkind hlocals hdepth tree s₁
    hrun).resolve_left Tree.not_spoiled

end Parse

end Collate
