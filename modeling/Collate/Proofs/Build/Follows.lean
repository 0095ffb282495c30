import Collate.Document
import Collate.Proofs.Grammar.Progress
import Collate.Proofs.Node.Forest

/-!
# Following the grammar

The program follows the grammar: where a reader of the grammar gives a value, the program gives its
counterpart over a larger table and stands at the same token, and where the reader refuses the text the
program stops with the same error.  The relation goes along a sequence, so every function is compared with
its namesake step by step.

* `Cursor.Ready`      a valid cursor whose mark of the end can be cut from the text as well;
* `Cursor.builder`    the program at a cursor;
* `Profile.Counts`    the nodes of a table have numbers of their own;
* `Build.Follows`     the program follows a reader from a cursor on.
-/

namespace Collate

def Profile.Counts (profile : Profile) (table : NodeTable) : Prop :=
  profile.numbering.Counts table.size

section
variable {profile : Profile} {table table' : NodeTable}

theorem Profile.Counts.of_extends (h : profile.Counts table') (hext : table.Extends table') :
    profile.Counts table :=
  fun hshort => Nat.le_trans hext.size_le (h hshort)

theorem Profile.counts_of_unbounded (h : profile.numbering = .unbounded) : profile.Counts table :=
  fun hshort => nomatch h.symm.trans hshort

end

namespace Cursor

/-- a valid cursor whose mark of the end can be cut from the text as well -/
structure Ready (t : Text) (s : Cursor) : Prop extends Valid t s where
  eof_slice : t.slice? s.eof.span = some s.eof.text

/-- the program at a cursor, with some nodes -/
def builder (profile : Profile) (t : Text) (table : NodeTable) (s : Cursor) : Builder :=
  ⟨profile, t, (t.tokens ++ [s.eof]).toArray, t.tokens.length - s.ahead.length, table, s.locals⟩

variable {t : Text} {s s' : Cursor}

theorem Passes.ready (h : s.Passes s') (hs : s.Ready t) : s'.Ready t := by
  have hvalid := h.valid hs.toValid
  obtain ⟨taken, -, heof⟩ := h
  exact ⟨hvalid, by rw [heof]; exact hs.eof_slice⟩

theorem Ready.advance (hs : s.Ready t) : s.advance.Ready t :=
  (passes_advance s).ready hs

theorem Ready.locals (hs : s.Ready t) (locals : List Text) : Ready t { s with locals := locals } :=
  Passes.ready ⟨[], rfl, rfl⟩ hs

theorem Ready.current_slice (hs : s.Ready t) : t.slice? s.current.span = some s.current.text := by
  cases hahead : s.ahead with
  | nil =>
    rw [current, hahead]
    exact hs.eof_slice
  | cons token rest =>
    rw [current_cons hahead]
    exact (hs.fits token (by rw [hahead]; exact List.mem_cons_self)).slice

theorem Ready.start_le_stop (hs : s.Ready t) : s.current.span.start ≤ s.current.span.stop := by
  obtain ⟨front, rest, -, -, hstop⟩ := Text.slice?_eq_some.mp hs.current_slice
  omega

theorem Ready.stop_le_advance (hs : s.Ready t) (hk : s.current.kind ≠ .eof) :
    s.current.span.stop ≤ s.advance.offset :=
  (takes_advance hs.toValid hk).stop_le hs.toValid

theorem Ready.offset_le_advance (hs : s.Ready t) : s.offset ≤ s.advance.offset :=
  (passes_advance s).offset_le hs.toValid

/-! ## tokens by their index -/

structure Split (t : Text) (s : Cursor) (taken : List Token) : Prop where
  tokens : t.tokens = taken ++ s.ahead
  index : ∀ profile table, (s.builder profile t table).index = taken.length
  size : ∀ profile table, (s.builder profile t table).tokens.size = taken.length + (s.ahead.length + 1)

theorem Ready.exists_split (hs : s.Ready t) : ∃ taken, Split t s taken := by
  obtain ⟨taken, htaken⟩ := hs.suffix
  refine ⟨taken, htaken.symm, fun profile table => ?_, fun profile table => ?_⟩
  · show t.tokens.length - s.ahead.length = taken.length
    rw [← htaken, List.length_append, Nat.add_sub_cancel]
  · simp [builder, ← htaken]

theorem Split.getElem? {taken : List Token} (h : Split t s taken) (profile : Profile) (table : NodeTable)
    (n : Nat) : (s.builder profile t table).tokens[taken.length + n]? = (s.ahead ++ [s.eof])[n]? := by
  rw [builder, List.getElem?_toArray, h.tokens, List.append_assoc,
    List.getElem?_append_right (Nat.le_add_right _ _), Nat.add_sub_cancel_left]

theorem Ready.size_sub_index (hs : s.Ready t) (profile : Profile) (table : NodeTable) :
    (s.builder profile t table).tokens.size - (s.builder profile t table).index = s.ahead.length + 1 := by
  obtain ⟨taken, h⟩ := hs.exists_split
  rw [h.index, h.size, Nat.add_sub_cancel_left]

theorem Ready.getElem?_index (hs : s.Ready t) (profile : Profile) (table : NodeTable) :
    (s.builder profile t table).tokens[(s.builder profile t table).index]? = some s.current := by
  obtain ⟨taken, h⟩ := hs.exists_split
  have hget := h.getElem? profile table 0
  rw [h.index, ← Nat.add_zero taken.length, hget, current]
  cases s.ahead <;> rfl

theorem Ready.getElem?_second (hs : s.Ready t) (profile : Profile) (table : NodeTable) :
    (s.builder profile t table).tokens[min ((s.builder profile t table).index + 1)
      ((s.builder profile t table).tokens.size - 1)]? = some s.second := by
  obtain ⟨taken, h⟩ := hs.exists_split
  have hmin : min (taken.length + 1) (taken.length + (s.ahead.length + 1) - 1)
      = taken.length + min 1 s.ahead.length := by omega
  rw [h.index, h.size, hmin, h.getElem?, second]
  cases s.ahead with
  | nil => rfl
  | cons token rest =>
    rw [List.length_cons, Nat.min_eq_left (Nat.le_add_left 1 _)]
    cases rest <;> rfl

theorem Ready.builder_advance (hs : s.Ready t) (profile : Profile) (table : NodeTable) :
    s.advance.builder profile t table = if s.current.kind ≠ .eof then
      { s.builder profile t table with index := (s.builder profile t table).index + 1 }
      else s.builder profile t table := by
  by_cases hk : s.current.kind = .eof
  · have hahead : s.ahead = [] := by
      cases hahead : s.ahead with
      | nil => rfl
      | cons token rest =>
        rw [current_cons hahead] at hk
        exact absurd hk (hs.fits token (by rw [hahead]; exact List.mem_cons_self)).kind_ne_eof
    rw [if_neg (not_not_intro hk), Cursor.advance, hahead, builder, builder, hahead]
    rfl
  · obtain ⟨rest, hahead⟩ := exists_ahead hs.toValid hk
    have hle := hs.suffix.length_le
    rw [hahead, List.length_cons] at hle
    have hindex : t.tokens.length - rest.length = t.tokens.length - (rest.length + 1) + 1 := by omega
    rw [if_pos hk, Cursor.advance, hahead, builder, builder, hahead, List.tail_cons, List.length_cons, hindex]

end Cursor

namespace Build
open Cursor
variable {α β γ δ : Type} {t : Text} {table table' : NodeTable} {s s' : Cursor}

/-! ## steps in a sequence -/

theorem exec_bind (run : Build α) (f : α → Build β) (b : Builder) :
    (run >>= f).exec b = match run.exec b with
      | (.ok a, b') => (f a).exec b'
      | (.error stop, b') => (.error stop, b') := by
  show (andThen run f).exec b = _
  rw [exec, exec, andThen]
  rcases run b with ⟨_ | _, b'⟩ <;> rfl

theorem exec_state_bind (f : Builder → Build β) (b : Builder) : (state >>= f).exec b = (f b).exec b :=
  rfl

theorem exec_ext {run run' : Build α} (h : ∀ b, run.exec b = run'.exec b) : run = run' := by
  funext b
  obtain ⟨hresult, hstate⟩ := Prod.mk.inj (h b)
  exact Prod.ext hresult (Subtype.ext hstate)

theorem bind_pure_self (run : Build α) : (run >>= fun a => Pure.pure a) = run := by
  refine exec_ext fun b => ?_
  rw [exec_bind]
  rcases run.exec b with ⟨_ | _, _⟩ <;> rfl

theorem bind_bind (run : Build α) (f : α → Build β) (g : β → Build γ) :
    (run >>= f) >>= g = run >>= fun a => f a >>= g := by
  refine exec_ext fun b => ?_
  rw [exec_bind, exec_bind, exec_bind]
  rcases run.exec b with ⟨_ | a, b'⟩
  · rfl
  · exact (exec_bind (f a) g b').symm

instance : LawfulMonad Build :=
  LawfulMonad.mk' Build bind_pure_self (fun _ _ => rfl) bind_bind

theorem bind_eq {look : Build γ} {c : γ} {b b' : Builder} (h : look.exec b = (.ok c, b')) (f : γ → Build δ) :
    (look >>= f).exec b = (f c).exec b' := by
  rw [exec_bind, h]

theorem bind_stop {look : Build γ} {stop : Stop} {b b' : Builder} (h : look.exec b = (.error stop, b'))
    (f : γ → Build δ) : (look >>= f).exec b = (.error stop, b') := by
  rw [exec_bind, h]

/-- a sequence has no fewer nodes than its first step -/
theorem size_le_bind (run : Build α) (f : α → Build β) (b : Builder) :
    (run.exec b).2.nodes.size ≤ ((run >>= f).exec b).2.nodes.size := by
  rw [exec_bind]
  rcases run.exec b with ⟨_ | a, b'⟩
  · exact Nat.le_refl _
  · exact (f a b').2.2.size_le

/-! ## the relation -/

/-- a run of the program comes out as it should if the nodes have numbers of their own; otherwise it pushes
nodes that have none -/
structure Predicts (profile : Profile) (table : NodeTable) (expected actual : Except Stop α × Builder) :
    Prop where
  eq_of_counts : profile.Counts table → actual = expected
  exhausted : ¬profile.Counts table → ¬profile.Counts actual.2.nodes

/-- The program follows a reader from a cursor on.  The nodes it needs are those of the last table. -/
def Follows (t : Text) (table : NodeTable) (run : Build α) (p : Parse β) (s : Cursor)
    (Q : β → Cursor → α → NodeTable → Prop) : Prop :=
  match p s with
  | .ok (b, s') => ∃ a table', s.Passes s' ∧ table.Extends table' ∧ Q b s' a table' ∧
      ∀ profile : Profile, Predicts profile table' (.ok a, s'.builder profile t table')
        (run.exec (s.builder profile t table))
  | .error e => ∃ s' table', s.Passes s' ∧ table.Extends table' ∧
      ∀ profile : Profile, Predicts profile table' (.error (profile.stop t e), s'.builder profile t table')
        (run.exec (s.builder profile t table))

variable {run : Build α} {p : Parse β} {Q : β → Cursor → α → NodeTable → Prop}

theorem Predicts.of_eq {profile : Profile} {expected actual : Except Stop α × Builder}
    (h : actual = expected) (hnodes : expected.2.nodes = table) : Predicts profile table expected actual :=
  ⟨fun _ => h, fun hshort => by rwa [h, hnodes]⟩

theorem Predicts.bind {profile : Profile} {f : α → Build γ} {a : α} {b b' : Builder}
    {expected : Except Stop γ × Builder} (hext : table.Extends table')
    (h : Predicts profile table (.ok a, b') (run.exec b))
    (h' : Predicts profile table' expected ((f a).exec b')) :
    Predicts profile table' expected ((run >>= f).exec b) := by
  constructor
  · intro hcounts
    rw [bind_eq (h.eq_of_counts (hcounts.of_extends hext)) f]
    exact h'.eq_of_counts hcounts
  · intro hshort
    by_cases hcounts : profile.Counts table
    · rw [bind_eq (h.eq_of_counts hcounts) f]
      exact h'.exhausted hshort
    · exact fun hlast => h.exhausted hcounts fun hn => Nat.le_trans (size_le_bind run f b) (hlast hn)

theorem Follows.pure {b : β} {a : α} (h : Q b s a table) :
    Follows t table (Pure.pure a) (Pure.pure b) s Q :=
  ⟨a, table, Passes.refl s, NodeTable.Extends.refl table, h, fun _ => .of_eq rfl rfl⟩

theorem Follows.error {e : ReadError} (hp : p s = .error e)
    (hrun : ∀ profile, run.exec (s.builder profile t table)
      = (.error (profile.stop t e), s.builder profile t table)) : Follows t table run p s Q := by
  unfold Follows
  rw [hp]
  exact ⟨s, table, Passes.refl s, NodeTable.Extends.refl table, fun profile => .of_eq (hrun profile) rfl⟩

theorem Follows.mono {R : β → Cursor → α → NodeTable → Prop} (h : Follows t table run p s Q)
    (hR : ∀ b s' a table', s.Passes s' → table.Extends table' → Q b s' a table' → R b s' a table') :
    Follows t table run p s R := by
  unfold Follows at h ⊢
  split at h
  next b s' _ =>
    obtain ⟨a, table', hpasses, hext, hQ, hrun⟩ := h
    exact ⟨a, table', hpasses, hext, hR b s' a table' hpasses hext hQ, hrun⟩
  next => exact h

/-- a first step of the program that comes out, and what follows it -/
theorem Follows.step {first : Build γ} {c : γ} {f : γ → Build α} (hpasses : s.Passes s')
    (hext : table.Extends table')
    (hfirst : ∀ profile, Predicts profile table' (.ok c, s'.builder profile t table')
      (first.exec (s.builder profile t table)))
    {p' : Parse β} (hp : p s = p' s') (h : Follows t table' (f c) p' s' Q) :
    Follows t table (first >>= f) p s Q := by
  unfold Follows at h ⊢
  rw [hp]
  split at h
  next b s'' _ =>
    obtain ⟨a, table'', hpasses', hext', hQ, hrun⟩ := h
    exact ⟨a, table'', hpasses.trans hpasses', hext.trans hext', hQ,
      fun profile => (hfirst profile).bind hext' (hrun profile)⟩
  next e _ =>
    obtain ⟨s'', table'', hpasses', hext', hrun⟩ := h
    exact ⟨s'', table'', hpasses.trans hpasses', hext.trans hext',
      fun profile => (hfirst profile).bind hext' (hrun profile)⟩

theorem Follows.bind {f : α → Build γ} {g : β → Parse δ} {R : δ → Cursor → γ → NodeTable → Prop}
    (h : Follows t table run p s Q)
    (hf : ∀ b s' a table', s.Passes s' → table.Extends table' → Q b s' a table' →
      Follows t table' (f a) (g b) s' R) :
    Follows t table (run >>= f) (p >>= g) s R := by
  have hp : (p >>= g) s = match p s with
    | .ok (b, s') => g b s'
    | .error e => .error e := by
    show (p s >>= fun x => g x.1 x.2) = _
    cases p s <;> rfl
  unfold Follows at h
  split at h
  next b s' heq =>
    rw [heq] at hp
    obtain ⟨a, table', hpasses, hext, hQ, hrun⟩ := h
    exact Follows.step hpasses hext hrun hp (hf b s' a table' hpasses hext hQ)
  next e heq =>
    obtain ⟨s', table', hpasses, hext, hrun⟩ := h
    unfold Follows
    rw [hp, heq]
    refine ⟨s', table', hpasses, hext, fun profile => ⟨fun hcounts => ?_, fun hshort hlast => ?_⟩⟩
    · exact bind_stop ((hrun profile).eq_of_counts hcounts) f
    · exact (hrun profile).exhausted hshort fun hn => Nat.le_trans (size_le_bind run f _) (hlast hn)

/-- steps of both sides that lead from one cursor to another -/
theorem Follows.move {run₁ : Build α} {p₁ : Parse β} (hpasses : s.Passes s') (hp : p s = p₁ s')
    (hrun : ∀ profile, run.exec (s.builder profile t table) = run₁.exec (s'.builder profile t table))
    (h : Follows t table run₁ p₁ s' Q) : Follows t table run p s Q := by
  unfold Follows at h ⊢
  rw [hp]
  simp only [hrun]
  split at h
  next b s'' heq =>
    obtain ⟨a, table', hpasses', hext, hQ, hrun'⟩ := h
    exact ⟨a, table', hpasses.trans hpasses', hext, hQ, hrun'⟩
  next e heq =>
    obtain ⟨s'', table', hpasses', hext, hrun'⟩ := h
    exact ⟨s'', table', hpasses.trans hpasses', hext, hrun'⟩

/-- a step of the program that only looks something up -/
theorem Follows.lookUp {look : Build γ} {c : γ} {f : γ → Build α}
    (hlook : ∀ profile, look.exec (s.builder profile t table) = (.ok c, s.builder profile t table))
    (h : Follows t table (f c) p s Q) : Follows t table (look >>= f) p s Q :=
  Follows.move (Passes.refl s) rfl (fun profile => bind_eq (hlook profile) f) h

theorem Follows.state {g : Cursor → Parse β} (h : Follows t table run (g s) s Q) :
    Follows t table run (get >>= g) s Q :=
  h

theorem Follows.lookUps {look : Build γ} {look' : Parse δ} {c : γ} {d : δ} {f : γ → Build α} {g : δ → Parse β}
    (hlook : ∀ profile, look.exec (s.builder profile t table) = (.ok c, s.builder profile t table))
    (hlook' : look' s = .ok (d, s)) (h : Follows t table (f c) (g d) s Q) :
    Follows t table (look >>= f) (look' >>= g) s Q := by
  refine Follows.lookUp hlook (Follows.move (Passes.refl s) ?_ (fun _ => rfl) h)
  show (look' s >>= fun x => g x.1 x.2) = _
  rw [hlook']
  rfl

/-! ## looking at tokens -/

theorem token_eq (profile : Profile) {index : Nat} {token : Token}
    (h : (s.builder profile t table).tokens[index]? = some token) :
    (Build.token index).exec (s.builder profile t table) = (.ok token, s.builder profile t table) := by
  rw [Build.token, exec_state_bind, h]
  rfl

theorem current_eq (hs : s.Ready t) (profile : Profile) :
    Build.current.exec (s.builder profile t table) = (.ok s.current, s.builder profile t table) :=
  token_eq profile (hs.getElem?_index profile table)

theorem second_eq (hs : s.Ready t) (profile : Profile) :
    Build.second.exec (s.builder profile t table) = (.ok s.second, s.builder profile t table) :=
  token_eq profile (hs.getElem?_second profile table)

theorem map_current_eq {c : γ} (hs : s.Ready t) (look : Token → γ) (hc : look s.current = c)
    (profile : Profile) :
    (do return look (← Build.current) : Build γ).exec (s.builder profile t table)
      = (.ok c, s.builder profile t table) := by
  rw [bind_eq (current_eq hs profile), ← hc]
  rfl

theorem peek_eq (hs : s.Ready t) (profile : Profile) :
    Build.peek.exec (s.builder profile t table) = (.ok s.current.kind, s.builder profile t table) :=
  map_current_eq hs (·.kind) rfl profile

theorem sees_eq {kind : Token.Kind} (hs : s.Ready t) (profile : Profile) :
    (Build.sees kind).exec (s.builder profile t table)
      = (.ok (decide (s.current.kind = kind)), s.builder profile t table) :=
  bind_eq (peek_eq hs profile) _

section
variable {f : Bool → Build α} {g : Bool → Parse β}

theorem Follows.current {f : Token → Build α} {g : Token → Parse β} (hs : s.Ready t)
    (h : Follows t table (f s.current) (g s.current) s Q) :
    Follows t table (Build.current >>= f) (Parse.current >>= g) s Q :=
  Follows.lookUps (current_eq hs) rfl h

theorem Follows.peek {f : Token.Kind → Build α} {g : Token.Kind → Parse β} (hs : s.Ready t)
    (h : Follows t table (f s.current.kind) (g s.current.kind) s Q) :
    Follows t table (Build.peek >>= f) (Parse.peek >>= g) s Q :=
  Follows.lookUps (peek_eq hs) rfl h

theorem Follows.sees {kind : Token.Kind} (hs : s.Ready t)
    (h : Follows t table (f (decide (s.current.kind = kind))) (g (decide (s.current.kind = kind))) s Q) :
    Follows t table (Build.sees kind >>= f) (Parse.sees kind >>= g) s Q :=
  Follows.lookUps (sees_eq hs) rfl h

theorem Follows.sameLine (hs : s.Ready t)
    (h : Follows t table (f (!s.current.newlineBefore)) (g (!s.current.newlineBefore)) s Q) :
    Follows t table (Build.sameLine >>= f) (Parse.sameLine >>= g) s Q :=
  Follows.lookUps (map_current_eq hs (fun token => !token.newlineBefore) rfl) rfl h

theorem Follows.valueOmitted (hs : s.Ready t)
    (h : Follows t table (f (s.current.newlineBefore || Parse.endsLabel s.current.kind))
      (g (s.current.newlineBefore || Parse.endsLabel s.current.kind)) s Q) :
    Follows t table (Build.valueOmitted >>= f) (Parse.valueOmitted >>= g) s Q :=
  Follows.lookUps (map_current_eq hs (fun token => token.newlineBefore || Parse.endsLabel token.kind) rfl)
    rfl h

theorem Follows.tightParen (hs : s.Ready t)
    (h : Follows t table (f (decide (s.current.kind = .leftParen) && !s.current.spaceBefore))
      (g (decide (s.current.kind = .leftParen) && !s.current.spaceBefore)) s Q) :
    Follows t table (Build.tightParen >>= f) (Parse.tightParen >>= g) s Q :=
  Follows.lookUps (map_current_eq hs
    (fun token => decide (token.kind = .leftParen) && !token.spaceBefore) rfl) rfl h

theorem Follows.finished {stop : Token.Kind → Bool} (hs : s.Ready t)
    (h : Follows t table (f (decide (s.current.kind = .eof) || stop s.current.kind))
      (g (decide (s.current.kind = .eof) || stop s.current.kind)) s Q) :
    Follows t table (Build.finished stop >>= f) (Parse.finished stop >>= g) s Q :=
  Follows.lookUps (fun profile => bind_eq (peek_eq hs profile) _) rfl h

theorem Follows.startsCommand (hs : s.Ready t)
    (h : Follows t table (f (s.current.spaceBefore && !s.current.newlineBefore
        && Parse.opensCommand s.current.kind (!s.second.spaceBefore)))
      (g (s.current.spaceBefore && !s.current.newlineBefore
        && Parse.opensCommand s.current.kind (!s.second.spaceBefore))) s Q) :
    Follows t table (Build.startsCommand >>= f) (Parse.startsCommand >>= g) s Q := by
  refine Follows.lookUps (fun profile => ?_) rfl h
  rw [Build.startsCommand, bind_eq (current_eq hs profile), bind_eq (second_eq hs profile)]
  rfl

theorem Follows.isLocal {name : Text} (h : Follows t table (f (s.locals.contains name))
    (g (s.locals.contains name)) s Q) :
    Follows t table (Build.isLocal name >>= f) (Parse.isLocal name >>= g) s Q :=
  Follows.lookUps (fun _ => rfl) rfl h

theorem Follows.closes {closer : Option Token.Kind} (hs : s.Ready t)
    (h : ∀ closed, Follows t table (f closed) (g closed) s Q) :
    Follows t table (Build.closes closer >>= f) (Parse.closes closer >>= g) s Q := by
  cases closer with
  | none => exact Follows.lookUps (fun _ => rfl) rfl (h false)
  | some kind => exact Follows.sees hs (h _)

end

theorem rounds_eq (hs : s.Ready t) (profile : Profile) :
    Build.rounds.exec (s.builder profile t table) = (.ok (s.ahead.length + 1), s.builder profile t table) := by
  rw [← hs.size_sub_index profile table]
  rfl

theorem Follows.rounds {f : Nat → Build α} {g : Nat → Parse β} (hs : s.Ready t)
    (h : Follows t table (f (s.ahead.length + 1)) (g (s.ahead.length + 1)) s Q) :
    Follows t table (Build.rounds >>= f) (Parse.rounds >>= g) s Q :=
  Follows.lookUps (rounds_eq hs) rfl h

/-! ## errors -/

theorem refuseAt_eq (cause : ReadCause) (offset : Nat) (profile : Profile) :
    (refuseAt cause offset : Build α).exec (s.builder profile t table)
      = (.error (profile.stop t ⟨cause, offset⟩), s.builder profile t table) := by
  show (ofResult (t.place profile.overflow offset) >>= fun place =>
    halt (.refused ⟨cause, offset⟩ place) : Build α).exec (s.builder profile t table) = _
  rw [Profile.stop]
  cases t.place profile.overflow offset <;> rfl

theorem Follows.refuseHere (hs : s.Ready t) (cause : Option Text → ReadCause) :
    Follows t table (Build.refuseHere (cause s.current.found)) (Parse.failHere cause : Parse β) s
      (Q : β → Cursor → α → NodeTable → Prop) := by
  refine Follows.error rfl fun profile => ?_
  rw [Build.refuseHere, bind_eq (current_eq hs profile)]
  exact refuseAt_eq _ _ profile

theorem slice_eq {span : Span} {text : Text} (h : t.slice? span = some text) (profile : Profile) :
    (Build.slice span).exec (s.builder profile t table) = (.ok text, s.builder profile t table) := by
  show (ofResult (t.slice span)).exec (s.builder profile t table) = _
  rw [Text.slice, h]
  rfl

theorem found_eq (hs : s.Ready t) (profile : Profile) :
    Build.found.exec (s.builder profile t table) = (.ok s.current.found, s.builder profile t table) := by
  rw [Build.found, bind_eq (current_eq hs profile), Token.found]
  split
  next => rfl
  next => exact bind_eq (slice_eq hs.current_slice profile) _

theorem Follows.failHere {cause : Option Text → ReadCause} (hs : s.Ready t) :
    Follows t table (Build.found >>= fun found => Build.refuseHere (cause found))
      (Parse.failHere cause : Parse β) s (Q : β → Cursor → α → NodeTable → Prop) :=
  Follows.lookUp (found_eq hs) (Follows.refuseHere hs cause)

theorem Follows.unexpected (hs : s.Ready t) :
    Follows t table Build.unexpected (Parse.unexpected : Parse β) s
      (Q : β → Cursor → α → NodeTable → Prop) :=
  Follows.failHere hs

theorem Follows.outOfSteps (hs : s.Ready t) :
    Follows t table Build.outOfSteps (Parse.outOfSteps : Parse β) s
      (Q : β → Cursor → α → NodeTable → Prop) :=
  Follows.refuseHere hs (fun _ => .outOfSteps)

theorem Follows.refuse {token : Token} (h : t.slice? token.span = some token.text) :
    Follows t table (Build.refuse token) (Parse.refuse token : Parse β) s
      (Q : β → Cursor → α → NodeTable → Prop) :=
  Follows.lookUp (slice_eq h) (Follows.error rfl (refuseAt_eq _ _))

/-! ## taking tokens -/

theorem advance_eq (hs : s.Ready t) (profile : Profile) :
    Build.advance.exec (s.builder profile t table) = (.ok s.current, s.advance.builder profile t table) := by
  rw [Build.advance, bind_eq (current_eq hs profile), hs.builder_advance]
  split <;> rfl

theorem Follows.advance {f : Token → Build α} {g : Token → Parse β} (hs : s.Ready t)
    (h : Follows t table (f s.current) (g s.current) s.advance Q) :
    Follows t table (Build.advance >>= f) (Parse.advance >>= g) s Q :=
  Follows.move (passes_advance s) rfl (fun profile => bind_eq (advance_eq hs profile) f) h

theorem Follows.eat {f : Bool → Build α} {g : Bool → Parse β} {kind : Token.Kind} (hs : s.Ready t)
    (htaken : s.current.kind = kind → Follows t table (f true) (g true) s.advance Q)
    (hleft : s.current.kind ≠ kind → Follows t table (f false) (g false) s Q) :
    Follows t table (Build.eat kind >>= f) (Parse.eat kind >>= g) s Q := by
  rw [Build.eat, Parse.eat, bind_assoc, bind_assoc]
  refine Follows.sees hs ?_
  by_cases hk : s.current.kind = kind
  · rw [if_pos (decide_eq_true hk), if_pos (decide_eq_true hk), bind_assoc, bind_assoc]
    exact Follows.advance hs (htaken hk)
  · rw [if_neg (by simpa using hk), if_neg (by simpa using hk)]
    exact hleft hk

theorem Follows.expect {f : Token → Build α} {g : Token → Parse β} {kind : Token.Kind} {wanted : String}
    (hs : s.Ready t)
    (h : s.current.kind = kind → Follows t table (f s.current) (g s.current) s.advance Q) :
    Follows t table (Build.expect kind wanted >>= f) (Parse.expect kind wanted >>= g) s Q := by
  rw [Build.expect, Parse.expect, bind_assoc, bind_assoc]
  refine Follows.sees hs ?_
  by_cases hk : s.current.kind = kind
  · rw [if_pos (decide_eq_true hk), if_pos (decide_eq_true hk)]
    exact Follows.advance hs (h hk)
  · rw [if_neg (by simpa using hk), if_neg (by simpa using hk)]
    exact (Follows.failHere hs (Q := fun _ _ _ _ => False)).bind fun _ _ _ _ _ _ h => h.elim

/-! ## local names -/

theorem Follows.declare {f : Unit → Build α} {g : Unit → Parse β} {name : Text}
    (h : Follows t table (f ()) (g ()) { s with locals := name :: s.locals } Q) :
    Follows t table (Build.declare name >>= f) (Parse.declare name >>= g) s Q :=
  Follows.move ⟨[], rfl, rfl⟩ rfl (fun _ => rfl) h

theorem Follows.withinScope {sight : Parse.Sight}
    (h : Follows t table run p { s with locals := if sight = .closed then [] else s.locals }
      fun b s' a table' => Q b { s' with locals := s.locals } a table') :
    Follows t table (Build.withinScope sight run) (Parse.withinScope sight p) s Q := by
  have hback : Follows t table
      (do let result ← run
          Build.rename (fun _ => s.locals)
          return result)
      (do let result ← p
          modify (fun s' => { s' with locals := s.locals })
          return result)
      { s with locals := if sight = .closed then [] else s.locals } Q := by
    refine h.bind fun b s' a table' _ _ hQ => ?_
    exact Follows.move ⟨[], rfl, rfl⟩ rfl (fun _ => rfl) (Follows.pure hQ)
  cases sight with
  | through => exact Follows.move (Passes.refl s) rfl (fun _ => rfl) hback
  | closed => exact Follows.move ⟨[], rfl, rfl⟩ rfl (fun _ => rfl) hback

end Build

end Collate
