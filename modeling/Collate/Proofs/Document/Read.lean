import Collate.Proofs.Build.Statement
import Collate.Proofs.Token.Lossless

/-!
# Reading a text

The program stands at the first token of the text and follows the grammar to the end.  So it has the
document of the tree that the grammar has, or stops where the grammar refuses the text, as long as the nodes
can be numbered.

* `TokenStream.cursor_valid`, `TokenStream.cursor_ready`   where both sides begin;
* `Build.program_follows`    a whole file;
* `Document.build_of_tree`, `Document.build_of_error`   what the program gives;
* `Document.read_eq`         the document of a text is that of its tree.
-/

namespace Collate

/-! ## the first cursor -/

theorem TokenStream.cursor_valid {t : Text} {stream : TokenStream} (h : TokenStream.read t = .ok stream) :
    Cursor.Valid t ⟨stream.tokens, stream.eof, []⟩ := by
  obtain ⟨pieces, rfl, hcut, rfl⟩ := TokenStream.exists_pieces_of_read h
  have heof := TokenStream.place_eof 0 true true pieces
  rw [Nat.zero_add] at heof
  have hspelled := TokenStream.place_spelled hcut true true
  have hnonempty := TokenStream.place_tokens_nonempty hcut true true
  have hcomments := Text.comments_of_read h
  constructor
  · exact TokenStream.place_tokens_ordered 0 true true
  · intro token hmem
    obtain ⟨hslice, hkind⟩ := hspelled token (List.mem_append_left _ hmem)
    obtain ⟨hne, heof⟩ := hnonempty token hmem
    refine ⟨hslice, hkind, hne, heof, ?_⟩
    rw [hcomments]
    exact TokenStream.place_disjoint 0 true true token (List.mem_append_left _ hmem)
  · exact heof.1
  · rw [heof.2.2]
    exact Text.isBoundary_size _
  · exact Text.tokens_of_read h ▸ List.suffix_refl _

theorem TokenStream.cursor_ready {t : Text} {stream : TokenStream} (h : TokenStream.read t = .ok stream) :
    Cursor.Ready t ⟨stream.tokens, stream.eof, []⟩ := by
  refine ⟨TokenStream.cursor_valid h, ?_⟩
  obtain ⟨pieces, rfl, -, rfl⟩ := TokenStream.exists_pieces_of_read h
  obtain ⟨-, htext, hspan⟩ := TokenStream.place_eof 0 true true pieces
  rw [Nat.zero_add] at hspan
  rw [hspan, htext]
  exact Text.slice?_eq_some.mpr ⟨Piece.concat pieces, [], by simp, rfl, rfl⟩

theorem Text.tokens_fit (t : Text) :
    (∀ token ∈ t.tokens, token.Fits t) ∧
      t.tokens.Pairwise (fun a b => a.span.Precedes b.span) := by
  cases hread : TokenStream.read t with
  | error e =>
    rw [Text.tokens, hread]
    exact ⟨by simp, List.Pairwise.nil⟩
  | ok stream =>
    have hvalid := TokenStream.cursor_valid hread
    rw [Text.tokens_of_read hread]
    exact ⟨hvalid.fits, (List.pairwise_append.mp hvalid.ordered).1⟩

theorem Text.token_eq_of_start {t : Text} {a b : Token} (ha : a ∈ t.tokens) (hb : b ∈ t.tokens)
    (h : a.span.start = b.span.start) : a = b := by
  obtain ⟨hfit, hordered⟩ := t.tokens_fit
  by_cases heq : a = b
  · exact heq
  · have h₁ := (hfit a ha).nonempty
    have h₂ := (hfit b hb).nonempty
    have hapart := Span.precedes_of_pairwise hordered ha hb heq
    unfold Span.Precedes at hapart
    omega

/-! ## the tree of a text -/

theorem Tree.read_eq_ok {t : Text} {tree : Tree} {comments : List Span} :
    Tree.read t = .ok (tree, comments) ↔ ∃ stream body s', TokenStream.read t = .ok stream ∧
      Parse.program ⟨stream.tokens, stream.eof, []⟩ = .ok (body, s') ∧
      tree = ⟨.program body, ⟨0, t.size⟩⟩ ∧ comments = stream.comments := by
  have hread : Tree.read t = (do
      let stream ← TokenStream.read t
      let r ← Parse.program ⟨stream.tokens, stream.eof, []⟩
      return ((⟨.program r.1, ⟨0, t.size⟩⟩ : Tree), stream.comments)) := rfl
  rw [hread]
  constructor
  · intro h
    cases hstream : TokenStream.read t with
    | error e =>
      rw [hstream] at h
      exact nomatch h
    | ok stream =>
      rw [hstream] at h
      change (Parse.program ⟨stream.tokens, stream.eof, []⟩ >>= _) = _ at h
      cases hprogram : Parse.program ⟨stream.tokens, stream.eof, []⟩ with
      | error e =>
        rw [hprogram] at h
        exact nomatch h
      | ok r =>
        rw [hprogram] at h
        obtain ⟨htree, hcomments⟩ := Prod.mk.inj (Except.ok.inj h)
        exact ⟨stream, r.1, r.2, rfl, hprogram, htree.symm, hcomments.symm⟩
  · rintro ⟨stream, body, s', hstream, hprogram, rfl, rfl⟩
    rw [hstream]
    show (Parse.program ⟨stream.tokens, stream.eof, []⟩ >>= _) = _
    rw [hprogram]
    rfl

/-- a text is refused because of its tokens or because of its constructs -/
theorem Tree.read_eq_error {t : Text} {e : ReadError} (h : Tree.read t = .error e) :
    TokenStream.read t = .error e ∨ ∃ stream, TokenStream.read t = .ok stream ∧
      Parse.program ⟨stream.tokens, stream.eof, []⟩ = .error e := by
  cases hstream : TokenStream.read t with
  | error held =>
    rw [Tree.read, hstream] at h
    exact .inl (congrArg _ (Except.error.inj h))
  | ok stream =>
    refine .inr ⟨stream, rfl, ?_⟩
    rw [Tree.read, hstream] at h
    change (Parse.program ⟨stream.tokens, stream.eof, []⟩ >>= _) = _ at h
    cases hprogram : Parse.program ⟨stream.tokens, stream.eof, []⟩ with
    | error held =>
      rw [hprogram] at h
      exact congrArg _ (Except.error.inj h)
    | ok r =>
      rw [hprogram] at h
      cases h

/-! ## the program -/

namespace Build
open Cursor NodeTable
variable {t : Text} {table : NodeTable} {s : Cursor}

/-- a whole file: its statements are pushed, and then the root over them -/
theorem program_follows (hs : s.Ready t) :
    Follows t table Build.program Parse.program s
      (fun body _ id table' => table.pushTree ⟨.program body, ⟨0, t.size⟩⟩ = (table', id)) := by
  rw [Build.program, Parse.program]
  refine Follows.rounds hs ?_
  refine (statements_follows (phrase_follows t _) .free _ hs).bind fun body s' ids table' hpasses _ hids => ?_
  refine Follows.peek (hpasses.ready hs) ?_
  split
  next =>
    have hsize (profile : Profile) :
        (do Build.pushFrom (.program ids) 0 (← Build.state).text.size : Build Nat).exec
            (s'.builder profile t table')
          = (Build.push (.program ids) ⟨0, t.size⟩).exec (s'.builder profile t table') := by
      show (Build.pushFrom (.program ids) 0 t.size).exec (s'.builder profile t table') = _
      rw [pushFrom_eq (Nat.zero_le _)]
    refine Follows.move (Passes.refl s') rfl hsize (Follows.push_last (fun _ => Stands.lt_of_mem hids.stands) ?_)
    refine pushTree_mk ?_ _
    simp only [pushNode, hids.push]
  next => exact Follows.unexpected (hpasses.ready hs)

end Build

namespace Document

/-- the tree of all nodes -/
def tree (d : Document) : Tree :=
  d.nodes.tree d.root

theorem tree_ofTree (t : Text) (tree : Tree) (comments : List Span) :
    (ofTree t tree comments).tree = tree :=
  (NodeTable.pushTree_grown .empty [] NodeTable.forest_empty tree).2

variable {profile : Profile} {t : Text} {tree : Tree} {comments : List Span} {e : ReadError}

theorem builder_eq {stream : TokenStream} (h : TokenStream.read t = .ok stream) :
    stream.builder profile t = Cursor.builder profile t .empty ⟨stream.tokens, stream.eof, []⟩ := by
  rw [TokenStream.builder, Cursor.builder, Text.tokens_of_read h, Nat.sub_self]

/-- the program over the tokens of a text follows the grammar -/
theorem exec_program {stream : TokenStream} (h : TokenStream.read t = .ok stream) :
    Build.Follows t .empty Build.program Parse.program ⟨stream.tokens, stream.eof, []⟩
      (fun body _ root table => NodeTable.empty.pushTree ⟨.program body, ⟨0, t.size⟩⟩ = (table, root)) :=
  Build.program_follows (TokenStream.cursor_ready h)

/-- where the nodes have numbers of their own, the program has the document of the tree, or stops with the
error of the grammar -/
theorem build_eq (hcounts : profile.Counts (nodesBuilt profile t)) :
    build profile t = match Tree.read t with
      | .ok (tree, comments) => .ok (ofTree t tree comments)
      | .error e => .error (profile.stop t e) := by
  cases htree : Tree.read t with
  | ok r =>
    obtain ⟨tree, comments⟩ := r
    obtain ⟨stream, body, s', hstream, hprogram, rfl, rfl⟩ := Tree.read_eq_ok.mp htree
    have hfollows := exec_program hstream
    unfold Build.Follows at hfollows
    rw [hprogram] at hfollows
    obtain ⟨root, table, -, -, hpush, hrun⟩ := hfollows
    simp only [nodesBuilt, hstream, builder_eq hstream] at hcounts
    have hactual := (hrun profile).eq_of_counts (by_contra fun hno => (hrun profile).exhausted hno hcounts)
    simp only [build, hstream, builder_eq hstream, hactual, ofTree, hpush]
    rfl
  | error e =>
    rcases Tree.read_eq_error htree with hstream | ⟨stream, hstream, hprogram⟩
    · simp only [build, hstream]
    · have hfollows := exec_program hstream
      unfold Build.Follows at hfollows
      rw [hprogram] at hfollows
      obtain ⟨s', table, -, -, hrun⟩ := hfollows
      simp only [nodesBuilt, hstream, builder_eq hstream] at hcounts
      have hactual := (hrun profile).eq_of_counts (by_contra fun hno => (hrun profile).exhausted hno hcounts)
      simp only [build, hstream, builder_eq hstream, hactual]

/-- a document holds all nodes that were pushed for it -/
theorem nodesBuilt_of_build {d : Document} (h : build profile t = .ok d) : nodesBuilt profile t = d.nodes := by
  cases hstream : TokenStream.read t with
  | error e =>
    rw [build, hstream] at h
    exact nomatch h
  | ok stream =>
    rw [build, hstream] at h
    rw [nodesBuilt, hstream]
    dsimp only at h ⊢
    rcases hexec : Build.program.exec (stream.builder profile t) with ⟨_ | root, b⟩
    · rw [hexec] at h
      exact nomatch h
    · rw [hexec] at h
      rw [← Except.ok.inj h]

/-- the nodes of a tree that have numbers of their own are those that the program pushes -/
theorem nodesBuilt_of_tree (h : Tree.read t = .ok (tree, comments))
    (hcounts : profile.Counts (ofTree t tree comments).nodes) :
    nodesBuilt profile t = (ofTree t tree comments).nodes := by
  obtain ⟨stream, body, s', hstream, hprogram, rfl, rfl⟩ := Tree.read_eq_ok.mp h
  have hfollows := exec_program hstream
  unfold Build.Follows at hfollows
  rw [hprogram] at hfollows
  obtain ⟨root, table, -, -, hpush, hrun⟩ := hfollows
  rw [ofTree, hpush] at hcounts ⊢
  simp only [nodesBuilt, hstream, builder_eq hstream, (hrun profile).eq_of_counts hcounts]
  rfl

/-- the program has the document of a tree whose nodes can be numbered -/
theorem build_of_tree (h : Tree.read t = .ok (tree, comments))
    (hcounts : profile.Counts (ofTree t tree comments).nodes) :
    build profile t = .ok (ofTree t tree comments) := by
  rw [build_eq (by rw [nodesBuilt_of_tree h hcounts]; exact hcounts), h]

/-- the document of a text is the document of its tree -/
theorem read_eq (t : Text) : Document.read t = (Tree.read t).map (fun r => ofTree t r.1 r.2) := by
  rw [Document.read, build_eq (Profile.counts_of_unbounded rfl)]
  cases Tree.read t <;> rfl

/-- a document whose nodes can be numbered is the document of the text -/
theorem read_of_build {d : Document} (h : build profile t = .ok d) (hcounts : profile.Counts d.nodes) :
    Document.read t = .ok d := by
  rw [build_eq (by rw [nodesBuilt_of_build h]; exact hcounts)] at h
  rw [read_eq]
  cases htree : Tree.read t with
  | ok r =>
    rw [htree] at h
    exact congrArg Except.ok (Except.ok.inj h)
  | error e =>
    rw [htree] at h
    exact nomatch h

theorem read_eq_ok {d : Document} :
    Document.read t = .ok d ↔ ∃ comments, Tree.read t = .ok (d.tree, comments) ∧
      d = ofTree t d.tree comments := by
  rw [read_eq]
  constructor
  · intro h
    cases htree : Tree.read t with
    | error e =>
      rw [htree] at h
      exact nomatch h
    | ok r =>
      obtain ⟨tree, comments⟩ := r
      rw [htree] at h
      obtain rfl : ofTree t tree comments = d := Except.ok.inj h
      rw [tree_ofTree]
      exact ⟨comments, rfl, rfl⟩
  · rintro ⟨comments, htree, hd⟩
    rw [htree, hd, tree_ofTree]
    rfl

theorem exists_read (h : Tree.read t = .ok (tree, comments)) :
    ∃ d, Document.read t = .ok d ∧ d.tree = tree := by
  have htree := tree_ofTree t tree comments
  exact ⟨ofTree t tree comments, read_eq_ok.mpr ⟨comments, by rw [htree]; exact h, by rw [htree]⟩, htree⟩

end Document

end Collate
