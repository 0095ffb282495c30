import Collate.Proofs.Document.Placed
import Collate.Proofs.Token.Failure
import Collate.Proofs.Token.Repeated

/-!
# Every text has an answer

Reading a text ends with a document or with an error at one of its character boundaries.  The cutting
takes a character with every piece.  A reader of constructs that gives a tree has taken a token for it,
every round of its loops takes one too or ends the loop, and no reader goes past the mark of the end,
so the steps that are counted out for it always suffice.

The program follows these readers, so it takes as many tokens and its index stays with them.  None of its
lookups fails: the one fault that is left is an error whose column has no successor in 32 bits.

* `Parse.Settles`           what all readers of constructs do at a cursor of the text;
* `Stop.Proper`             why the program may stop;
* `Build.Settles`           what the program does where the readers stand;
* `Document.build_settles`  what becomes of a text.
-/

namespace Collate

/-- Every reader gives placed trees over the tokens it takes, or an error at a character boundary.  A
single construct takes one token at least.  The readers are those of a depth that is above the number
of tokens ahead. -/
structure Parse.Settles (t : Text) (s : Cursor) (depth : Nat) (place : Place) : Prop where
  /-- a branch is only read where its reserved word stands -/
  phrase : ∀ phrase, (phrase = .branch → s.current.kind ≠ .eof) →
    ReadsTree t (Parse.phrase depth phrase place) s
  argument : Outcome (argument (Parse.phrase depth) place) s (fun arg => arg.tree.ReadFrom t s)
    (ReadError.Proper t)
  pair : ReadsTree t (labelPair (Parse.phrase depth) place) s
  element : ReadsTree t (bracedElement (Parse.phrase depth)) s
  parameter : ReadsTree t (parameter (Parse.phrase depth) place) s
  /-- a construct that is extended takes further tokens, and else the cursor stays -/
  access : ∀ s₀ tree, s₀.Valid t → tree.ReadFrom t s₀ s →
    Outcome (access (Parse.phrase depth) place tree) s (Extended t s₀ s) (ReadError.Proper t)
  binary : ∀ s₀ tree, s₀.Valid t → tree.ReadFrom t s₀ s →
    Outcome (binary (Parse.phrase depth) place tree) s (Extended t s₀ s) (ReadError.Proper t)
  modifier : ∀ s₀ tree, s₀.Valid t → tree.ReadFrom t s₀ s →
    Outcome (modifier (Parse.phrase depth) place tree) s (Extended t s₀ s) (ReadError.Proper t)
  /-- the loops over items and statements never use up their rounds -/
  arguments : ∀ closer, Outcome (arguments (Parse.phrase depth) place closer) s (s.Lists t)
    (ReadError.Proper t)
  parameters : ∀ closer, Outcome (parameters (Parse.phrase depth) place closer) s (s.Lists t)
    (ReadError.Proper t)
  statements : ∀ stop, Outcome (statements (Parse.phrase depth) place stop) s (s.Lists t)
    (ReadError.Proper t)

theorem Parse.settles {t : Text} {s : Cursor} (hs : s.Valid t) {depth : Nat}
    (hdepth : s.ahead.length < depth) (place : Place) : Settles t s depth place := by
  have hd : (Parse.phrase depth).Sound t depth := phrase_sound depth
  have hle := Nat.le_of_lt hdepth
  constructor
  case phrase => exact fun phrase hbranch => hd phrase place s hs hdepth hbranch
  case argument => exact argument_reads hd place hs hdepth
  case pair => exact labelPair_reads hd place hs hle
  case element => exact bracedElement_reads hd hs hdepth
  case parameter => exact parameter_reads hd place hs hle
  case access => exact fun s₀ tree hs₀ htree => access_extended hd place hs₀ htree hle
  case binary => exact fun s₀ tree hs₀ htree => binary_extended hd place hs₀ htree hle
  case modifier => exact fun s₀ tree hs₀ htree => modifier_extended hd place hs₀ htree hle
  case arguments =>
    intro closer
    cases closer with
    | none => exact (separatedArguments_lists hd place none hs hdepth).mono (fun _ _ h => h.1)
    | some kind => exact arguments_lists hd place kind hs hdepth
  case parameters => exact fun closer => parameters_lists hd place closer hs hdepth
  case statements => exact fun stop => statements_lists hd place stop hs hdepth

/-- the error of a text that is refused stands at one of its boundaries and is no lack of steps -/
theorem Tree.proper_of_read {t : Text} {e : ReadError} (h : Tree.read t = .error e) : e.Proper t := by
  rcases Tree.read_eq_error h with hstream | ⟨stream, hstream, hprogram⟩
  · obtain ⟨hcause, hboundary⟩ := TokenStream.read_error hstream
    exact ⟨hboundary, hcause⟩
  · have hlists := Parse.program_lists (TokenStream.cursor_valid hstream)
    unfold Parse.Outcome at hlists
    rw [hprogram] at hlists
    exact hlists

/-! ## the program -/

/-- Why the program may stop.  It refuses the text between two characters, with the place of the error, or
the column of that place has no successor. -/
def Stop.Proper (profile : Profile) (t : Text) : Stop → Prop
  | .refused e place => e.cause ≠ .outOfSteps ∧ e.offset ≤ t.size ∧ t.isBoundary e.offset = true ∧
      t.place profile.overflow e.offset = .ok place
  | .fault cause => profile.overflow = .stop ∧ ∃ offset, t.isBoundary offset = true ∧
      cause = .column offset ∧ (t.columnOf offset + 1) % positionLimit = 0

theorem ReadError.Proper.stop {t : Text} {e : ReadError} (h : e.Proper t) (profile : Profile) :
    (profile.stop t e).Proper profile t := by
  rw [Profile.stop]
  split
  next place hplace => exact ⟨h.finished, Text.isBoundary_le h.located, h.located, hplace⟩
  next fault hfault =>
    cases hoverflow : profile.overflow with
    | cut =>
      rw [hoverflow] at hfault
      cases hfault
    | stop =>
      rw [hoverflow] at hfault
      change t.findPosition e.offset = .error fault at hfault
      by_cases hcolumn : (t.columnOf e.offset + 1) % positionLimit = 0
      · rw [Text.findPosition, if_pos hcolumn] at hfault
        exact ⟨hoverflow, e.offset, h.located, (Except.error.inj hfault).symm, hcolumn⟩
      · rw [Text.findPosition_eq hcolumn] at hfault
        cases hfault

theorem Profile.stop_of_fault {t : Text} {e : ReadError} {fault : Fault}
    (h : t.findPosition e.offset = .error fault) : Profile.strict.stop t e = .fault fault := by
  have hplace : t.place Profile.strict.overflow e.offset = .error fault := h
  rw [Profile.stop, hplace]

namespace Build
open Cursor
variable {α β : Type} {profile : Profile} {t : Text} {table : NodeTable} {s : Cursor}

/-- A run of the program from a cursor on, whose nodes have numbers of their own.  It gives a value and takes
as many tokens as that value tells at least, or it stops.  The index stays with the tokens and the mark of
the end behind them. -/
def Ends (profile : Profile) (t : Text) (s : Cursor) (table : NodeTable) (run : Build α) (least : α → Nat) :
    Prop :=
  profile.Counts (run.exec (s.builder profile t table)).2.nodes →
    (run.exec (s.builder profile t table)).2.index ≤ t.tokens.length ∧
    match (run.exec (s.builder profile t table)).1 with
    | .ok a => (s.builder profile t table).index + least a ≤ (run.exec (s.builder profile t table)).2.index
    | .error stop => stop.Proper profile t

/-- a run ends as the reader does that it follows -/
theorem Follows.ends {run : Build α} {p : Parse β} {P : β → Cursor → Prop}
    {Q : β → Cursor → α → NodeTable → Prop} {least : α → Nat} (h : Follows t table run p s Q)
    (hs : s.Ready t) (hp : Parse.Outcome p s P (ReadError.Proper t))
    (hleast : ∀ b s' a table', P b s' → Q b s' a table' → s'.ahead.length + least a ≤ s.ahead.length) :
    Ends profile t s table run least := by
  intro hcounts
  have hindex (s' : Cursor) (table' : NodeTable) : (s'.builder profile t table').index ≤ t.tokens.length :=
    Nat.sub_le _ _
  have hsuffix := hs.suffix.length_le
  unfold Follows at h
  unfold Parse.Outcome at hp
  split at h
  next b s' heq =>
    obtain ⟨a, table', -, -, hQ, hrun⟩ := h
    rw [heq] at hp
    have hle := hleast b s' a table' hp hQ
    rw [(hrun profile).eq_of_counts (by_contra fun hno => (hrun profile).exhausted hno hcounts)]
    refine ⟨hindex s' table', ?_⟩
    show t.tokens.length - s.ahead.length + least a ≤ t.tokens.length - s'.ahead.length
    omega
  next e heq =>
    obtain ⟨s', table', -, -, hrun⟩ := h
    rw [heq] at hp
    rw [(hrun profile).eq_of_counts (by_contra fun hno => (hrun profile).exhausted hno hcounts)]
    exact ⟨hindex s' table', ReadError.Proper.stop hp profile⟩

/-- What the program does at a cursor.  Its functions are those of a depth that is above the number of tokens
ahead. -/
structure Settles (profile : Profile) (t : Text) (s : Cursor) (table : NodeTable) (depth : Nat)
    (place : Place) : Prop where
  /-- a construct takes one token at least; a branch is only read where its reserved word stands -/
  phrase : ∀ phrase, (phrase = .branch → s.current.kind ≠ .eof) →
    Ends profile t s table (Build.phrase depth phrase place) (fun _ => 1)
  argument : Ends profile t s table (argument (Build.phrase depth) place) (fun _ => 1)
  pair : Ends profile t s table (labelPair (Build.phrase depth) place) (fun _ => 1)
  element : Ends profile t s table (bracedElement (Build.phrase depth)) (fun _ => 1)
  parameter : Ends profile t s table (parameter (Build.phrase depth) place) (fun _ => 1)
  /-- a construct that is extended takes further tokens -/
  access : ∀ s₀ base tree id, s₀.Valid t → tree.ReadFrom t s₀ s → base.Extends table →
    Pushed base s₀.offset tree s id table →
      Ends profile t s table (access (Build.phrase depth) place id) (·.toList.length)
  binary : ∀ s₀ base tree id, s₀.Valid t → tree.ReadFrom t s₀ s → base.Extends table →
    Pushed base s₀.offset tree s id table →
      Ends profile t s table (binary (Build.phrase depth) place id) (·.toList.length)
  modifier : ∀ s₀ base tree id, s₀.Valid t → tree.ReadFrom t s₀ s → base.Extends table →
    Pushed base s₀.offset tree s id table →
      Ends profile t s table (modifier (Build.phrase depth) place id) (·.toList.length)
  /-- the loops over items and statements never use up their rounds -/
  arguments : ∀ closer, Ends profile t s table (arguments (Build.phrase depth) place closer) (fun _ => 0)
  parameters : ∀ closer, Ends profile t s table (parameters (Build.phrase depth) place closer) (fun _ => 0)
  statements : ∀ stop, Ends profile t s table (statements (Build.phrase depth) place stop) (fun _ => 0)

theorem settles (hs : s.Ready t) {depth : Nat} (hdepth : s.ahead.length < depth) (place : Place) :
    Settles profile t s table depth place := by
  have hd := phrase_follows t depth
  have hreads := Parse.settles hs.toValid hdepth place
  -- what is read takes tokens
  have hone {tree : Tree} {s' : Cursor} (h : tree.ReadFrom t s s') : s'.ahead.length + 1 ≤ s.ahead.length :=
    h.takes.length_lt
  have hlonger {base : NodeTable} {start : Nat} {tree : Tree} {id : Nat} {s₀ : Cursor} :
      ∀ longer s' longerId table', Parse.Extended t s₀ s longer s' →
        Lengthened base start tree id longer s' longerId table' →
          s'.ahead.length + longerId.toList.length ≤ s.ahead.length := by
    intro longer s' longerId table' hextended hlengthened
    cases longer with
    | none =>
      cases longerId with
      | none => exact Nat.le_of_eq (by rw [show s' = s from hextended]; rfl)
      | some longerId => exact nomatch hlengthened.isSome_eq
    | some longer =>
      cases longerId with
      | none => exact nomatch hlengthened.isSome_eq
      | some longerId => exact hextended.2
  have hstart {s₀ : Cursor} {tree : Tree} (hs₀ : s₀.Valid t) (htree : tree.ReadFrom t s₀ s) :
      s₀.offset ≤ s.offset := htree.takes.passes.offset_le hs₀
  constructor
  case phrase =>
    exact fun phrase hbranch => (hd phrase place s table hs).ends hs (hreads.phrase phrase hbranch)
      fun _ _ _ _ h _ => hone h
  case argument =>
    exact (argument_follows hd place hs).ends hs hreads.argument fun _ _ _ _ h _ => hone h
  case pair => exact (labelPair_follows hd place hs).ends hs hreads.pair fun _ _ _ _ h _ => hone h
  case element => exact (bracedElement_follows hd hs).ends hs hreads.element fun _ _ _ _ h _ => hone h
  case parameter => exact (parameter_follows hd place hs).ends hs hreads.parameter fun _ _ _ _ h _ => hone h
  case access =>
    exact fun s₀ base tree id hs₀ htree hbase h => (access_follows hd place tree id s table hs
      (hstart hs₀ htree) hbase h).ends hs (hreads.access s₀ tree hs₀ htree) hlonger
  case binary =>
    exact fun s₀ base tree id hs₀ htree hbase h => (binary_follows hd place tree id s table hs
      (hstart hs₀ htree) hbase h).ends hs (hreads.binary s₀ tree hs₀ htree) hlonger
  case modifier =>
    exact fun s₀ base tree id hs₀ htree hbase h => (modifier_follows hd place tree id s table hs
      (hstart hs₀ htree) hbase h).ends hs (hreads.modifier s₀ tree hs₀ htree) hlonger
  case arguments =>
    exact fun closer => (arguments_follows hd place closer hs).ends hs (hreads.arguments closer)
      fun _ _ _ _ h _ => h.passes.length_le
  case parameters =>
    exact fun closer => (parameters_follows hd place closer hs).ends hs (hreads.parameters closer)
      fun _ _ _ _ h _ => h.passes.length_le
  case statements =>
    exact fun stop => (statements_follows hd place stop hs).ends hs (hreads.statements stop)
      fun _ _ _ _ h _ => h.passes.length_le

end Build

namespace Document

/-- **Every text has an answer**, as long as its nodes have numbers of their own. -/
theorem build_settles (profile : Profile) (t : Text) :
    (∀ c rest piece, Piece.read c rest = .ok piece →
      ∃ behind, c :: rest = piece.text ++ behind ∧ 0 < piece.text.size) ∧
    (∀ stream, TokenStream.read t = .ok stream → ∃ s : Cursor, s.Ready t ∧
      stream.builder profile t = s.builder profile t .empty ∧
      Build.Ends profile t s .empty Build.program (fun _ => 0)) ∧
    (∀ s : Cursor, s.Ready t → ∀ table depth place, s.ahead.length < depth →
      Build.Settles profile t s table depth place) ∧
    (profile.Counts (nodesBuilt profile t) → match build profile t with
      | .ok d => d.text = t ∧ d.Placed
      | .error stop => stop.Proper profile t) := by
  refine ⟨?_, ?_, fun s hs table depth place hdepth => Build.settles hs hdepth place, ?_⟩
  · intro c rest piece h
    obtain ⟨behind, hb, hne, -⟩ := Piece.read_proper h
    exact ⟨behind, hb, Text.size_pos_of_ne_nil hne⟩
  · intro stream hstream
    have hready := TokenStream.cursor_ready hstream
    refine ⟨_, hready, builder_eq hstream, ?_⟩
    exact (exec_program hstream).ends hready (Parse.program_lists hready.toValid)
      fun _ _ _ _ h _ => h.1.passes.length_le
  · intro hcounts
    rw [build_eq hcounts]
    cases htree : Tree.read t with
    | ok r =>
      obtain ⟨tree, comments⟩ := r
      have hread : read t = .ok (ofTree t tree comments) := by
        rw [read_eq, htree]
        rfl
      exact placed_of_read hread
    | error e => exact (Tree.proper_of_read htree).stop profile

/-- an argument list that the text does not close, behind a character past ASCII -/
theorem build_settles_unclosed : ∃ e place, build .strict "é(a, b:".toList = .error (.refused e place) ∧
    e.offset = 8 ∧ e.offset ≤ Text.size "é(a, b:".toList ∧ place = ⟨1, 9, some 8⟩ ∧
    Text.isBoundary "é(a, b:".toList e.offset = true := by
  have hcounts : Profile.strict.Counts (nodesBuilt .strict "é(a, b:".toList) := fun _ => by decide +kernel
  have hshape : (match build .strict "é(a, b:".toList with
      | .error (.refused e place) => some (e.offset, place)
      | _ => none) = some (8, ⟨1, 9, some 8⟩) := by
    decide +kernel
  have hsettled := (build_settles .strict "é(a, b:".toList).2.2.2 hcounts
  split at hshape
  next e place h =>
    rw [h] at hsettled
    obtain ⟨hoffset, hplace⟩ := Prod.mk.inj (Option.some.inj hshape)
    exact ⟨e, place, h, hoffset, hsettled.2.1, hplace, hsettled.2.2.1⟩
  next => exact nomatch hshape

/-- 4 GiB less one byte of blanks in front of an error: its column has no successor -/
theorem build_unplaced :
    build .strict (List.replicate 4294967295 ' ' ++ ['?']) = .error (.fault (.column 4294967295)) := by
  have hread (n : Nat) : TokenStream.read (List.replicate n ' ' ++ ['?'])
      = .error ⟨.ternary, n⟩ := by
    rw [TokenStream.read_blanks, Piece.readAll]
    rfl
  have hsize : Text.size (List.replicate 4294967295 ' ') = 4294967295 := Text.size_replicate rfl _
  have hnone : '\n' ∉ List.replicate 4294967295 ' ' := fun h => by
    have := List.eq_of_mem_replicate h
    exact absurd this (by decide)
  have hplace := Text.findPosition_atLimit (b := ['?']) hnone (by rw [hsize]; rfl)
  rw [hsize] at hplace
  rw [build, hread]
  exact congrArg Except.error (Profile.stop_of_fault hplace)

end Document

end Collate
