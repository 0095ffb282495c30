import Collate.Sequence.Entry

/-!
# Computations without faults

`Safe x P` says that `x` ends in a value with `P`, and `Attempt.Safe x P` that it ends without a
fault, and with `P` if it finds a value.  A computation is followed step by step, one rule for each
way to build it.

`Attempt.value` is the value that is found.  It respects every way to build a computation, so what
is found can be stated without the faults that do not occur.
-/

namespace Collate

theorem bind_eq_ok {ε α β : Type} {x : Except ε α} {f : α → Except ε β} {b : β}
    (h : x >>= f = .ok b) : ∃ a, x = .ok a ∧ f a = .ok b := by
  cases x with
  | error e => exact nomatch h
  | ok a => exact ⟨a, rfl, h⟩

theorem eq_ok_of_toOption {ε α : Type} {x : Except ε α} {a : α} (h : x.toOption = some a) :
    x = .ok a := by
  cases x with
  | error e => exact nomatch h
  | ok b => exact congrArg Except.ok (Option.some.inj h)

theorem exists_error_of_toOption {ε α : Type} {x : Except ε α} (h : x.toOption = none) :
    ∃ e, x = .error e := by
  cases x with
  | error e => exact ⟨e, rfl⟩
  | ok b => exact nomatch h

def Safe {ε α : Type} (x : Except ε α) (P : α → Prop) : Prop :=
  ∃ a, x = .ok a ∧ P a

namespace Safe
variable {ε α β : Type} {x : Except ε α} {P : α → Prop}

theorem ok {a : α} (h : P a) : Safe (.ok a : Except ε α) P :=
  ⟨a, rfl, h⟩

theorem mono {R : α → Prop} (h : Safe x P) (hR : ∀ a, P a → R a) : Safe x R := by
  obtain ⟨a, hx, ha⟩ := h
  exact ⟨a, hx, hR a ha⟩

theorem bind {f : α → Except ε β} {R : β → Prop} (h : Safe x P) (hf : ∀ a, P a → Safe (f a) R) :
    Safe (x >>= f) R := by
  obtain ⟨a, rfl, ha⟩ := h
  exact hf a ha

/-- a list of computations, with what each value is and what it keeps of its argument -/
theorem mapM {γ : Type} {f : α → Except ε β} {g : β → γ} {h : α → γ} {Q : β → Prop} {as : List α}
    (hf : ∀ a ∈ as, Safe (f a) (fun b => g b = h a ∧ Q b)) :
    Safe (as.mapM f) (fun bs => bs.map g = as.map h ∧ ∀ b ∈ bs, Q b) := by
  induction as with
  | nil => exact ⟨[], rfl, rfl, by simp⟩
  | cons a as ih =>
    rw [List.mapM_cons]
    refine (hf a List.mem_cons_self).bind ?_
    intro b hb
    refine (ih (fun x hx => hf x (List.mem_cons_of_mem _ hx))).bind ?_
    intro bs hbs
    refine ok ⟨by rw [List.map_cons, List.map_cons, hb.1, hbs.1], ?_⟩
    exact List.forall_mem_cons.mpr ⟨hb.2, hbs.2⟩

end Safe

namespace Attempt
variable {α β : Type} {P : α → Prop}

/-- the computation ends without a fault, and with `P` if it finds a value -/
def Safe (x : Attempt α) (P : α → Prop) : Prop :=
  Collate.Safe x.run (fun found => ∀ a, found = some a → P a)

theorem safe_pure {a : α} (h : P a) : Attempt.Safe (pure a) P := by
  refine ⟨some a, rfl, ?_⟩
  intro b hb
  rw [← Option.some.inj hb]
  exact h

theorem safe_failure : Attempt.Safe (failure : Attempt α) P :=
  ⟨none, rfl, fun _ h => nomatch h⟩

theorem Safe.bind {x : Attempt α} {f : α → Attempt β} {R : β → Prop} (h : Attempt.Safe x P)
    (hf : ∀ a, P a → Attempt.Safe (f a) R) : Attempt.Safe (x >>= f) R := by
  show Collate.Safe (x.run >>= fun found => match found with
    | some a => (f a).run
    | none => pure none) _
  refine Collate.Safe.bind h ?_
  intro found hfound
  cases found with
  | none => exact ⟨none, rfl, fun _ h => nomatch h⟩
  | some a => exact hf a (hfound a rfl)

theorem safe_lift {x : Except Fault α} (h : Collate.Safe x P) :
    Attempt.Safe (liftM x : Attempt α) P := by
  obtain ⟨a, rfl, ha⟩ := h
  exact safe_pure ha

theorem safe_mapM {γ : Type} {f : α → Attempt β} {g : β → γ} {h : α → γ} {Q : β → Prop}
    {as : List α} (hf : ∀ a ∈ as, Attempt.Safe (f a) (fun b => g b = h a ∧ Q b)) :
    Attempt.Safe (as.mapM f) (fun bs => bs.map g = as.map h ∧ ∀ b ∈ bs, Q b) := by
  induction as with
  | nil => exact safe_pure ⟨rfl, by simp⟩
  | cons a as ih =>
    rw [List.mapM_cons]
    refine (hf a List.mem_cons_self).bind ?_
    intro b hb
    refine (ih (fun x hx => hf x (List.mem_cons_of_mem _ hx))).bind ?_
    intro bs hbs
    refine safe_pure ⟨by rw [List.map_cons, List.map_cons, hb.1, hbs.1], ?_⟩
    exact List.forall_mem_cons.mpr ⟨hb.2, hbs.2⟩

/-! ## values -/

/-- the value that a computation finds -/
def value (x : Attempt α) : Option α :=
  match x.run with
  | .ok found => found
  | .error _ => none

theorem Safe.run_eq {x : Attempt α} (h : Attempt.Safe x P) : x.run = .ok x.value := by
  obtain ⟨found, hrun, -⟩ := h
  rw [value, hrun]

theorem Safe.of_value {x : Attempt α} {a : α} (h : Attempt.Safe x P) (ha : x.value = some a) :
    P a := by
  obtain ⟨found, hrun, hP⟩ := h
  rw [value, hrun] at ha
  exact hP a ha

@[simp]
theorem value_pure (a : α) : value (pure a) = some a := rfl

@[simp]
theorem value_failure : value (failure : Attempt α) = none := rfl

theorem value_liftM {x : Except Fault α} {a : α} :
    value (liftM x : Attempt α) = some a ↔ x = .ok a := by
  cases x with
  | error fault => exact ⟨(nomatch ·), (nomatch ·)⟩
  | ok b => exact ⟨fun h => congrArg Except.ok (Option.some.inj h), fun h => congrArg some (Except.ok.inj h)⟩

@[simp]
theorem value_bind (x : Attempt α) (f : α → Attempt β) :
    value (x >>= f) = x.value.bind (fun a => (f a).value) := by
  show value (OptionT.mk (x.run >>= fun found => match found with
    | some a => (f a).run
    | none => pure none)) = _
  unfold value
  cases x.run with
  | error fault => rfl
  | ok found =>
    cases found with
    | none => rfl
    | some a => rfl

theorem value_ite {c : Prop} [Decidable c] (x y : Attempt α) :
    value (if c then x else y) = if c then x.value else y.value :=
  apply_ite value c x y

theorem value_mapM (f : α → Attempt β) (as : List α) :
    value (as.mapM f) = as.mapM (fun a => (f a).value) := by
  induction as with
  | nil => rfl
  | cons a as ih =>
    rw [List.mapM_cons, List.mapM_cons, value_bind]
    refine congrArg _ (funext fun b => ?_)
    rw [value_bind, ih]
    rfl

end Attempt

end Collate
