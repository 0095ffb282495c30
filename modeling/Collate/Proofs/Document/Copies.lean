import Collate.Proofs.Document.Read
import Collate.Proofs.Token.Repeated

/-!
# Documents of many statements

A text of so many statements `1;` has a node for each of them, and the root over them is pushed last.

* `Parse.statements_copies`    the trees of the statements;
* `Document.build_copies`      the root of their document.
-/

namespace Collate

/-! ## the trees -/

namespace Parse
open Build

theorem statement_number (depth : Nat) {s : Cursor} {number semicolon : Token} {rest : List Token}
    (hahead : s.ahead = number :: semicolon :: rest) (hnumber : number.kind = .number ['1'])
    (hsemicolon : semicolon.kind = .semicolon) :
    Parse.phrase (depth + 1) .statement .free s = .ok (.leaf number.span, s.advance) := by
  obtain ⟨ahead, eof, locals⟩ := s
  obtain ⟨kind, text, span, space, newline⟩ := number
  obtain ⟨kind', text', span', space', newline'⟩ := semicolon
  obtain rfl : ahead = _ := hahead
  obtain rfl : kind = _ := hnumber
  obtain rfl : kind' = _ := hsemicolon
  -- what extends a construct looks at the flags of the semicolon
  cases space' <;> cases newline' <;> rfl

theorem outcome_of_eq {α : Type} {p : Parse α} {s s' : Cursor} {a : α} {Q : α → Cursor → Prop}
    {E : ReadError → Prop} (hp : p s = .ok (a, s')) (h : Q a s') : Outcome p s Q E := by
  unfold Outcome
  rw [hp]
  exact h

theorem copies_dropWhile {n : Nat} {tokens : List Token} (h : Token.Copies n tokens) :
    tokens.dropWhile (fun token => decide (token.kind = .semicolon)) = tokens := by
  cases h with
  | nil => rfl
  | cons hnumber => exact List.dropWhile_cons_of_neg (by rw [hnumber]; decide)

theorem statementsIn_copies (depth n : Nat) : ∀ (rounds : Nat) (s : Cursor), n < rounds →
    s.eof.kind = .eof → Token.Copies n (skipped s).ahead →
      Outcome (statementsIn (Parse.phrase (depth + 1)) .free (fun _ => false) rounds) s
        (fun trees s' => s'.ahead = [] ∧ s'.eof = s.eof ∧ trees.length = n ∧
          ∀ tree ∈ trees, ∃ span, tree = .leaf span) (fun _ => False) := by
  induction n with
  | zero =>
    intro rounds s hrounds heof hcopies
    obtain ⟨rounds, rfl⟩ := Nat.exists_eq_succ_of_ne_zero (Nat.ne_of_gt hrounds)
    generalize hahead : (skipped s).ahead = ahead at hcopies
    cases hcopies
    have hkind : (skipped s).current.kind = .eof := by
      rw [Cursor.current, hahead]
      exact heof
    rw [statementsIn, outcome_bind]
    show Outcome _ (skipped s) _ _
    rw [outcome_bind, outcome_finished, hkind]
    exact ⟨hahead, rfl, rfl, by simp⟩
  | succ n ih =>
    intro rounds s hrounds heof hcopies
    obtain ⟨rounds, rfl⟩ := Nat.exists_eq_succ_of_ne_zero (Nat.ne_of_gt (Nat.zero_lt_of_lt hrounds))
    generalize hahead : (skipped s).ahead = ahead at hcopies
    cases hcopies with
    | @cons _ number semicolon rest hnumber hsemicolon hrest =>
      have hkind : (skipped s).current.kind = .number ['1'] := by
        rw [Cursor.current_cons hahead, hnumber]
      have hnext : (skipped s).advance.ahead = semicolon :: rest := by
        rw [Cursor.advance, hahead]
        rfl
      have hkind' : (skipped s).advance.current.kind = .semicolon := by
        rw [Cursor.current_cons hnext, hsemicolon]
      have hskipped : (skipped (skipped s).advance).ahead = rest := by
        rw [skipped, hnext, List.dropWhile_cons_of_pos (by rw [hsemicolon]; rfl), copies_dropWhile hrest]
      have hstatement := statement_number depth hahead hnumber hsemicolon
      rw [statementsIn, outcome_bind]
      show Outcome _ (skipped s) _ _
      rw [outcome_bind, outcome_finished, hkind]
      show Outcome (Parse.phrase (depth + 1) .statement .free >>= _) (skipped s) _ _
      refine (outcome_bind _ _).mpr (outcome_of_eq hstatement ?_)
      rw [outcome_bind, outcome_finished, outcome_bind, outcome_sees, outcome_bind, outcome_sameLine, hkind']
      refine (ih rounds (skipped s).advance (Nat.lt_of_succ_lt_succ hrounds) heof (by rwa [hskipped])).bind ?_
      rintro trees s' ⟨hend, heof', hlength, hleaves⟩
      refine ⟨hend, heof', congrArg (· + 1) hlength, List.forall_mem_cons.mpr ⟨⟨_, rfl⟩, hleaves⟩⟩

theorem statements_copies (depth : Nat) {n : Nat} {s : Cursor} (h : Token.Copies n s.ahead)
    (heof : s.eof.kind = .eof) : ∃ trees s',
      statements (Parse.phrase (depth + 1)) .free (fun _ => false) s = .ok (trees, s') ∧
        s'.current.kind = .eof ∧ trees.length = n ∧ ∀ tree ∈ trees, ∃ span, tree = .leaf span := by
  have hlength : n < s.ahead.length + 1 := Nat.lt_succ_of_le h.le_length
  have hskipped : (skipped s).ahead = s.ahead := copies_dropWhile h
  obtain ⟨trees, s', hrun, hend, heof', hcount, hleaves⟩ :=
    (statementsIn_copies depth n _ s hlength heof (by rwa [hskipped])).exists_run
  refine ⟨trees, s', hrun, ?_, hcount, hleaves⟩
  rw [Cursor.current, hend, List.headD_nil, heof', heof]

end Parse

/-! ## the table -/

namespace NodeTable

theorem pushAll_leaves {trees : List Tree} (h : ∀ tree ∈ trees, ∃ span, tree = .leaf span) :
    ∀ table : NodeTable, (table.pushAll trees).1.size = table.size + trees.length ∧
      table.Extends (table.pushAll trees).1 := by
  induction trees with
  | nil => exact fun table => ⟨rfl, Extends.refl table⟩
  | cons tree trees ih =>
    intro table
    obtain ⟨⟨span, rfl⟩, hrest⟩ := List.forall_mem_cons.mp h
    obtain ⟨hsize, hext⟩ := ih hrest (table.push (.other []) span)
    rw [pushAll_cons table (.inl rfl), pushTree_leaf]
    refine ⟨?_, (extends_push _ _).trans hext⟩
    show ((table.push (.other []) span).pushAll trees).1.size = _
    rw [hsize, size_push, List.length_cons]
    omega

theorem node_pushAll_leaves {trees : List Tree} (h : ∀ tree ∈ trees, ∃ span, tree = .leaf span)
    (hne : trees ≠ []) : (NodeTable.empty.pushAll trees).1.node 0 = .other [] := by
  obtain ⟨tree, rest, rfl⟩ := List.exists_cons_of_ne_nil hne
  obtain ⟨⟨span, rfl⟩, hrest⟩ := List.forall_mem_cons.mp h
  have hext := (pushAll_leaves hrest (NodeTable.empty.push (.other []) span)).2
  rw [pushAll_cons _ (.inl rfl), pushTree_leaf]
  exact hext.node_eq 0 (by rw [size_push]; exact Nat.succ_pos _)

end NodeTable

/-! ## the document -/

namespace Document
open Build Cursor NodeTable

/-- the first statement has the number zero, and the root the number behind the last statement -/
theorem build_copies (profile : Profile) {n : Nat} (hpos : 0 < n) (hcounts : profile.numbering.Counts n) :
    ∃ d, build profile (Text.copies n) = .ok d ∧ d.root = profile.numbering.number n ∧
      d.node 0 = .other [] := by
  obtain ⟨stream, hstream, hcopies⟩ := TokenStream.read_copies n
  have hready := TokenStream.cursor_ready hstream
  obtain ⟨trees, s', htrees, heof, hlength, hleaves⟩ :=
    Parse.statements_copies stream.tokens.length hcopies hready.eof_kind
  have hfollows : Follows _ NodeTable.empty _ _ _ _ := statements_follows
    (phrase_follows _ (stream.tokens.length + 1)) .free (fun _ => false) hready
  unfold Follows at hfollows
  rw [htrees] at hfollows
  obtain ⟨ids, table, hpasses, -, hids, hrun⟩ := hfollows
  have htable : table = (NodeTable.empty.pushAll trees).1 := by rw [hids.push]
  have hsize : table.size = n := by
    rw [htable, (pushAll_leaves hleaves .empty).1, hlength]
    exact Nat.zero_add n
  have hne : trees ≠ [] := List.ne_nil_of_length_pos (by rwa [hlength])
  have hstatements := (hrun profile).eq_of_counts (by rwa [Profile.Counts, hsize])
  have hready' := hpasses.ready hready
  let nodes : NodeTable := table.pushAs profile.numbering (.program ids) ⟨0, (Text.copies n).size⟩
  have hroot : Build.program.exec (stream.builder profile (Text.copies n))
      = (.ok (profile.numbering.number n), s'.builder profile (Text.copies n) nodes) := by
    rw [builder_eq hstream, Build.program, bind_eq (rounds_eq hready profile), bind_eq hstatements,
      bind_eq (peek_eq hready' profile), if_pos heof]
    show (Build.pushFrom (.program ids) 0 (Text.copies n).size).exec _ = _
    rw [pushFrom_eq (Nat.zero_le _), push_eq _ (fun _ => Stands.lt_of_mem hids.stands), hsize]
  refine ⟨⟨Text.copies n, nodes, profile.numbering.number n, stream.comments⟩, ?_, rfl, ?_⟩
  · rw [build, hstream]
    dsimp only
    rw [hroot]
    rfl
  · show nodes.node 0 = _
    have hfirst := node_pushAll_leaves hleaves hne
    rw [← htable] at hfirst
    rw [NodeTable.node, row_pushAs_of_lt _ _ _ (by rwa [hsize])]
    split <;> exact hfirst

end Document

end Collate
