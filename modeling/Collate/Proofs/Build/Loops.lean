import Collate.Proofs.Build.Pushed

/-!
# Loops follow the grammar

Both sides go as many rounds, so the loops need no bound on their rounds here: where one runs out of them, the
other does.

* `Build.separated_follows`   items between commas;
* `Build.chained_follows`     a construct that further tokens extend;
* `Build.statements_follows`  statements up to a closing token.
-/

namespace Collate

namespace Build
open Cursor NodeTable
variable {t : Text} {base table table' : NodeTable} {s s' : Cursor}

/-! ## items between commas -/

theorem separatedIn_follows {item : Build Nat} {item' : Parse Tree} (closer : Option Token.Kind)
    (hitem : ∀ (s : Cursor) table, s.Ready t → Follows t table item item' s (Pushed table s.offset)) (n : Nat) :
    ∀ (s : Cursor) table, s.Ready t →
      Follows t table (Build.separatedIn item closer n) (Parse.separatedIn item' closer n) s
        (fun trees _ => PushedAll table s.offset trees) := by
  induction n with
  | zero => exact fun s table hs => Follows.outOfSteps hs
  | succ n ih =>
    intro s table hs
    rw [Build.separatedIn, Parse.separatedIn]
    refine (hitem s table hs).bind fun tree s' id table' hpasses hext hid => ?_
    have hs' := hpasses.ready hs
    refine Follows.eat hs' (fun _ => ?_) (fun _ => Follows.pure (PushedAll.single hid))
    rw [if_pos rfl, if_pos rfl]
    refine Follows.closes hs'.advance fun closed => ?_
    cases closed with
    | true => exact Follows.pure (PushedAll.single hid)
    | false =>
      refine (ih s'.advance table' hs'.advance).bind fun trees s'' ids table'' _ hext' hids => ?_
      have hle := (hpasses.trans (passes_advance s')).offset_le hs.toValid
      exact Follows.pure (PushedAll.cons hid hids hext' hle)

theorem separated_follows {item : Build Nat} {item' : Parse Tree} (closer : Option Token.Kind)
    (hitem : ∀ (s : Cursor) table, s.Ready t → Follows t table item item' s (Pushed table s.offset))
    (hs : s.Ready t) :
    Follows t table (Build.separated item closer) (Parse.separated item' closer) s
      (fun trees _ => PushedAll table s.offset trees) :=
  Follows.rounds hs (separatedIn_follows closer hitem _ s table hs)

/-! ## constructs that further tokens extend -/

/-- a construct stays as it is, or a longer one was pushed over it -/
structure Lengthened (base : NodeTable) (start : Nat) (tree : Tree) (id : Nat) (longer : Option Tree)
    (s : Cursor) (longerId : Option Nat) (table : NodeTable) : Prop where
  isSome_eq : longer.isSome = longerId.isSome
  pushed : Pushed base start (longer.getD tree) s (longerId.getD id) table

theorem Lengthened.none {start : Nat} {tree : Tree} {id : Nat} (h : Pushed base start tree s id table) :
    Lengthened base start tree id none s none table :=
  ⟨rfl, h⟩

theorem Lengthened.some {start : Nat} {tree longer : Tree} {id longerId : Nat}
    (h : Pushed base start longer s longerId table) :
    Lengthened base start tree id (some longer) s (some longerId) table :=
  ⟨rfl, h⟩

/-- one step that extends a construct does so on both sides -/
def Extending (t : Text) (base : NodeTable) (start : Nat) (extend : Nat → Build (Option Nat))
    (extend' : Tree → Parse (Option Tree)) : Prop :=
  ∀ tree id (s : Cursor) table, s.Ready t → start ≤ s.offset → base.Extends table →
    Pushed base start tree s id table →
      Follows t table (extend id) (extend' tree) s (Lengthened base start tree id)

theorem chainedIn_follows {start : Nat} {extend : Nat → Build (Option Nat)}
    {extend' : Tree → Parse (Option Tree)} (hextend : Extending t base start extend extend') (n : Nat) :
    ∀ tree id (s : Cursor) table, s.Ready t → start ≤ s.offset → base.Extends table →
      Pushed base start tree s id table →
        Follows t table (Build.chainedIn extend n id) (Parse.chainedIn extend' n tree) s
          (Pushed base start) := by
  induction n with
  | zero => exact fun tree id s table hs _ _ _ => Follows.outOfSteps hs
  | succ n ih =>
    intro tree id s table hs hle hbase h
    rw [Build.chainedIn, Parse.chainedIn]
    refine (hextend tree id s table hs hle hbase h).bind fun longer s' longerId table' hpasses hext h' => ?_
    obtain ⟨hsame, hpushed⟩ := h'
    cases longer with
    | none =>
      cases longerId with
      | none => exact Follows.pure hpushed
      | some longerId => cases hsame
    | some longer =>
      cases longerId with
      | none => cases hsame
      | some longerId =>
        exact ih longer longerId s' table' (hpasses.ready hs) (Nat.le_trans hle (hpasses.offset_le hs.toValid))
          (hbase.trans hext) hpushed

theorem chained_follows {extend : Nat → Build (Option Nat)} {extend' : Tree → Parse (Option Tree)}
    {first : Build Nat} {first' : Parse Tree} (hs : s.Ready t)
    (hfirst : Follows t table first first' s (Pushed table s.offset))
    (hextend : Extending t table s.offset extend extend') :
    Follows t table (do Build.chained extend (← first)) (do Parse.chained extend' (← first')) s
      (Pushed table s.offset) := by
  refine hfirst.bind fun tree s' id table' hpasses hext h => ?_
  exact Follows.rounds (hpasses.ready hs) (chainedIn_follows hextend _ tree id s' table' (hpasses.ready hs)
    (hpasses.offset_le hs.toValid) hext h)

/-! ## statements -/

def skipped (s : Cursor) : Cursor :=
  { s with ahead := s.ahead.dropWhile (fun token => decide (token.kind = .semicolon)) }

theorem passes_skipped (s : Cursor) : s.Passes (skipped s) :=
  ⟨_, (List.takeWhile_append_dropWhile).symm, rfl⟩

theorem skipped_advance (hs : s.Ready t) (hk : s.current.kind = .semicolon) :
    skipped s.advance = skipped s := by
  obtain ⟨rest, hahead⟩ := exists_ahead hs.toValid (by rw [hk]; simp)
  rw [skipped, skipped, Cursor.advance, hahead, List.dropWhile_cons_of_pos (by rw [hk]; rfl)]
  rfl

theorem skipped_eq_self (hk : s.current.kind ≠ .semicolon) : skipped s = s := by
  cases hahead : s.ahead with
  | nil =>
    rw [skipped, hahead, List.dropWhile_nil, ← hahead]
  | cons token rest =>
    rw [current_cons hahead] at hk
    rw [skipped, hahead, List.dropWhile_cons_of_neg (by simpa using hk), ← hahead]

theorem skipSemicolons_eq (profile : Profile) (n : Nat) :
    ∀ s : Cursor, s.Ready t → s.ahead.length < n →
      (Build.skipSemicolons n).exec (s.builder profile t table)
        = (.ok (), (skipped s).builder profile t table) := by
  induction n with
  | zero => exact fun s _ hn => absurd hn (Nat.not_lt_zero _)
  | succ n ih =>
    intro s hs hn
    rw [Build.skipSemicolons, Build.eat, bind_assoc, bind_eq (sees_eq hs profile)]
    by_cases hk : s.current.kind = .semicolon
    · have hlt := (takes_advance hs.toValid (by rw [hk]; simp)).length_lt
      rw [if_pos (decide_eq_true hk), bind_assoc, bind_eq (advance_eq hs profile), ← skipped_advance hs hk]
      exact ih s.advance hs.advance (by omega)
    · rw [if_neg (by simpa using hk), skipped_eq_self hk]
      rfl

theorem Follows.skipSemicolons {α β : Type} {f : Unit → Build α} {g : Unit → Parse β}
    {Q : β → Cursor → α → NodeTable → Prop} (hs : s.Ready t)
    (h : Follows t table (f ()) (g ()) (skipped s) Q) :
    Follows t table (Build.rounds >>= fun n => Build.skipSemicolons n >>= f) (Parse.skipSemicolons >>= g) s
      Q := by
  refine Follows.move (passes_skipped s) rfl (fun profile => ?_) h
  rw [bind_eq (rounds_eq hs profile)]
  exact bind_eq (skipSemicolons_eq profile _ s hs (Nat.lt_succ_self _)) f

theorem statementsIn_follows {build : Build.Descent} {descend : Collate.Descent}
    (hd : Descent.Follows t build descend) (place : Place) (stop : Token.Kind → Bool) (n : Nat) :
    ∀ (s : Cursor) table, s.Ready t →
      Follows t table (Build.statementsIn build place stop n) (Parse.statementsIn descend place stop n) s
        (fun trees _ => PushedAll table s.offset trees) := by
  induction n with
  | zero => exact fun s table hs => Follows.outOfSteps hs
  | succ n ih =>
    intro s table hs
    have hskip := passes_skipped s
    have hle := hskip.offset_le hs.toValid
    have hs₁ := hskip.ready hs
    rw [Build.statementsIn, Parse.statementsIn]
    refine Follows.skipSemicolons hs (Follows.finished hs₁ ?_)
    split
    next => exact Follows.pure (PushedAll.nil table s.offset)
    next =>
      refine (hd .statement place _ table hs₁).bind fun first s' id table' hpasses hext hid => ?_
      have hs' := hpasses.ready hs₁
      have hid : Pushed table s.offset first s' id table' := ⟨hid.push, hid.isRun,
        Nat.le_trans hle hid.start_le, hid.le_offset⟩
      refine Follows.finished hs' (Follows.sees hs' (Follows.sameLine hs' ?_))
      split
      next =>
        refine (ih s' table' hs').bind fun rest s'' ids table'' _ hext' hids => ?_
        exact Follows.pure (PushedAll.cons hid hids hext'
          (Nat.le_trans hle (hpasses.offset_le hs₁.toValid)))
      next => exact Follows.unexpected hs'

theorem statements_follows {build : Build.Descent} {descend : Collate.Descent}
    (hd : Descent.Follows t build descend) (place : Place) (stop : Token.Kind → Bool) (hs : s.Ready t) :
    Follows t table (Build.statements build place stop) (Parse.statements descend place stop) s
      (fun trees _ => PushedAll table s.offset trees) :=
  Follows.rounds hs (statementsIn_follows hd place stop _ s table hs)

end Build

end Collate
