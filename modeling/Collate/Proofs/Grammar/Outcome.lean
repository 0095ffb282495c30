import Collate.Grammar.Call

/-!
# Outcomes of readers

`Parse.Outcome p s Q E` says what a run of `p` from the cursor `s` ends in: a value and a cursor
with `Q`, or an error with `E`.  A reader is followed step by step: `outcome_bind` splits a
sequence, and every primitive step has one equation that replaces it by what it does.
-/

namespace Collate

/-- every error is admitted, as only the values of a reader matter -/
def ReadError.Any (_ : ReadError) : Prop :=
  True

namespace Parse
variable {α β : Type} {s : Cursor} {Q R : α → Cursor → Prop} {E : ReadError → Prop}

/-- a run ends in a value and a cursor with `Q`, or in an error with `E` -/
def Outcome (p : Parse α) (s : Cursor) (Q : α → Cursor → Prop) (E : ReadError → Prop) : Prop :=
  match p s with
  | .ok (a, s') => Q a s'
  | .error e => E e

theorem Outcome.mono {p : Parse α} (h : Outcome p s Q E) (hQ : ∀ a s', Q a s' → R a s') :
    Outcome p s R E := by
  unfold Outcome at h ⊢
  split at h
  next a s' _ => exact hQ a s' h
  next e _ => exact h

theorem Outcome.of_ok {p : Parse α} {a : α} {s' : Cursor} (h : Outcome p s Q E)
    (hp : p s = .ok (a, s')) : Q a s' := by
  unfold Outcome at h
  rw [hp] at h
  exact h

/-- a run that is refused in no case gives a value -/
theorem Outcome.exists_run {p : Parse α} (h : Outcome p s Q (fun _ => False)) :
    ∃ a s', p s = .ok (a, s') ∧ Q a s' := by
  unfold Outcome at h
  split at h
  next a s' hrun => exact ⟨a, s', hrun, h⟩
  next => exact h.elim

theorem Outcome.and {p : Parse α} (h : Outcome p s Q E) (h' : Outcome p s R ReadError.Any) :
    Outcome p s (fun a s' => Q a s' ∧ R a s') ReadError.Any := by
  unfold Outcome at h h' ⊢
  split
  next heq =>
    rw [heq] at h h'
    exact ⟨h, h'⟩
  next => trivial

@[simp]
theorem outcome_pure (a : α) : Outcome (pure a : Parse α) s Q E ↔ Q a s := Iff.rfl

@[simp]
theorem outcome_bind (p : Parse α) (f : α → Parse β) {Q : β → Cursor → Prop} :
    Outcome (p >>= f) s Q E ↔ Outcome p s (fun a s' => Outcome (f a) s' Q E) E := by
  unfold Outcome
  show (match (p s >>= fun x => f x.1 x.2 : Except ReadError (β × Cursor)) with
    | .ok (a, s') => Q a s'
    | .error e => E e) ↔ _
  cases p s with
  | error e => exact Iff.rfl
  | ok x => exact Iff.rfl

theorem Outcome.bind {p : Parse α} {f : α → Parse β} {R : β → Cursor → Prop}
    (h : Outcome p s Q E) (hf : ∀ a s', Q a s' → Outcome (f a) s' R E) :
    Outcome (p >>= f) s R E :=
  (outcome_bind p f).mpr (h.mono hf)

@[simp]
theorem outcome_throw (e : ReadError) : Outcome (throw e : Parse α) s Q E ↔ E e := Iff.rfl

@[simp]
theorem outcome_get {Q : Cursor → Cursor → Prop} : Outcome (get : Parse Cursor) s Q E ↔ Q s s :=
  Iff.rfl

@[simp]
theorem outcome_modify (f : Cursor → Cursor) {Q : PUnit → Cursor → Prop} :
    Outcome (modify f : Parse PUnit) s Q E ↔ Q ⟨⟩ (f s) := Iff.rfl

/-! ## single tokens -/

section
variable {Q : Token → Cursor → Prop}

@[simp]
theorem outcome_current : Outcome current s Q E ↔ Q s.current s := Iff.rfl

@[simp]
theorem outcome_advance : Outcome advance s Q E ↔ Q s.current s.advance := Iff.rfl

/-- a token of the wanted kind is taken, and every other one is refused -/
theorem outcome_expect (kind : Token.Kind) (wanted : String) :
    Outcome (expect kind wanted) s Q E ↔
      if s.current.kind = kind then Q s.current s.advance
      else E ⟨.expected wanted s.current.found, s.current.span.start⟩ := by
  unfold expect
  rw [outcome_bind]
  show Outcome (if decide (s.current.kind = kind) = true then advance
    else failHere (.expected wanted)) s Q E ↔ _
  by_cases hk : s.current.kind = kind
  · rw [if_pos (decide_eq_true hk), if_pos hk]
    exact Iff.rfl
  · rw [if_neg (by simpa using hk), if_neg hk]
    exact Iff.rfl

end

@[simp]
theorem outcome_peek {Q : Token.Kind → Cursor → Prop} :
    Outcome peek s Q E ↔ Q s.current.kind s := Iff.rfl

section
variable {Q : Bool → Cursor → Prop}

@[simp]
theorem outcome_sees (kind : Token.Kind) :
    Outcome (sees kind) s Q E ↔ Q (decide (s.current.kind = kind)) s := Iff.rfl

@[simp]
theorem outcome_sameLine : Outcome sameLine s Q E ↔ Q (!s.current.newlineBefore) s := Iff.rfl

@[simp]
theorem outcome_isLocal (name : Text) :
    Outcome (isLocal name) s Q E ↔ Q (s.locals.contains name) s := Iff.rfl

@[simp]
theorem outcome_valueOmitted :
    Outcome valueOmitted s Q E
      ↔ Q (s.current.newlineBefore || endsLabel s.current.kind) s := Iff.rfl

@[simp]
theorem outcome_tightParen :
    Outcome tightParen s Q E
      ↔ Q (decide (s.current.kind = .leftParen) && !s.current.spaceBefore) s := Iff.rfl

@[simp]
theorem outcome_startsCommand :
    Outcome startsCommand s Q E
      ↔ Q (s.current.spaceBefore && !s.current.newlineBefore
          && opensCommand s.current.kind (!s.second.spaceBefore)) s := Iff.rfl

@[simp]
theorem outcome_finished (stop : Token.Kind → Bool) :
    Outcome (finished stop) s Q E
      ↔ Q (decide (s.current.kind = .eof) || stop s.current.kind) s := Iff.rfl

theorem outcome_eat (kind : Token.Kind) :
    Outcome (eat kind) s Q E ↔
      if s.current.kind = kind then Q true s.advance else Q false s := by
  unfold eat
  rw [outcome_bind]
  show Outcome (if decide (s.current.kind = kind) = true then _ else _) s Q E ↔ _
  by_cases hk : s.current.kind = kind
  · rw [if_pos (decide_eq_true hk), if_pos hk]
    exact Iff.rfl
  · rw [if_neg (by simpa using hk), if_neg hk]
    exact Iff.rfl

theorem outcome_closes_none : Outcome (closes none) s Q E ↔ Q false s := Iff.rfl

theorem outcome_closes_some (kind : Token.Kind) :
    Outcome (closes (some kind)) s Q E ↔ Q (decide (s.current.kind = kind)) s := Iff.rfl

end

theorem Outcome.unlessClosed {α : Type} {x : Parse (List α)} {Q : List α → Cursor → Prop}
    (closer : Option Token.Kind) (hnone : Q [] s) (h : Outcome x s Q E) :
    Outcome (do if ← closes closer then return [] else x) s Q E := by
  cases closer with
  | none =>
    rw [outcome_bind, outcome_closes_none]
    exact h
  | some kind =>
    rw [outcome_bind, outcome_closes_some]
    split
    next => exact hnone
    next => exact h

@[simp]
theorem outcome_rounds {Q : Nat → Cursor → Prop} :
    Outcome rounds s Q E ↔ Q (s.ahead.length + 1) s := Iff.rfl

/-! ## local names -/

@[simp]
theorem outcome_declare (name : Text) {Q : Unit → Cursor → Prop} :
    Outcome (declare name) s Q E ↔ Q () { s with locals := name :: s.locals } := Iff.rfl

theorem outcome_withinScope (sight : Sight) (body : Parse α) :
    Outcome (withinScope sight body) s Q E ↔
      Outcome body { s with locals := if sight = .closed then [] else s.locals }
        (fun a s' => Q a { s' with locals := s.locals }) E := by
  unfold withinScope
  rw [outcome_bind, outcome_get]
  cases sight with
  | through =>
    show Outcome (body >>= _) s Q E ↔ _
    rw [outcome_bind]
    exact Iff.rfl
  | closed =>
    dsimp only
    rw [if_pos rfl, if_pos rfl, outcome_bind, outcome_modify, outcome_bind]
    exact Iff.rfl

end Parse

end Collate
