import Collate.Proofs.Derivation.Trees

/-!
# Brackets and bodies

A child of a construct is sheltered if it stands between two brackets of the construct, among the
parameters or in the body of a block, or in a body that `end` closes.  It is exposed if it is an argument
without parentheses around it, or the header of a loop.  The tokens that the construct has of its own tell
both.  Inside a command, what is not sheltered is inside the command too.

* `Node.enclosed`, `Node.Shelters`   the children that are sheltered;
* `Node.exposed`                     the children that are exposed;
* `Form.sheltered`                   the place of what is not sheltered;
* `Form.exposed_command`             the place of what is exposed;
* `Form.free_of_do`                  the place of a block that `do` opens.
-/

namespace Collate

def Token.Kind.closing? : Token.Kind → Option Token.Kind
  | .leftParen => some .rightParen
  | .leftBracket => some .rightBracket
  | .leftBrace => some .rightBrace
  | _ => none

def Token.Kind.isNamespace : Token.Kind → Bool
  | .keyword .class_ | .keyword .module_ => true
  | _ => false

def Token.Kind.isJump : Token.Kind → Bool
  | .keyword .return_ | .keyword .yield_ => true
  | _ => false

theorem Token.Kind.isJump_iff {kind : Token.Kind} :
    kind.isJump = true ↔ kind = .keyword .return_ ∨ kind = .keyword .yield_ := by
  constructor
  · intro h
    unfold isJump at h
    split at h
    · exact .inl rfl
    · exact .inr rfl
    · exact nomatch h
  · rintro (rfl | rfl) <;> rfl

theorem Token.Kind.isJump_eq_false (p : Token.Kind → Bool) {kind : Token.Kind} (h : p kind = true)
    (hreturn : p (.keyword .return_) = false) (hyield : p (.keyword .yield_) = false) :
    kind.isJump = false := by
  rw [Bool.eq_false_iff, ne_eq, isJump_iff]
  rintro (rfl | rfl)
  · exact absurd (h.symm.trans hreturn) (by simp)
  · exact absurd (h.symm.trans hyield) (by simp)

namespace Node
variable {α β : Type}

/-- The children that need no brackets to be sheltered: parameters and body of a block, the body of a
definition that `end` closes, and the bodies of conditionals, loops, classes and modules.  A trailing condition
shelters nothing, and neither does `elsif`.  A class with a less sign names the class above it. -/
def enclosed (own : List Token) : Node α → List α
  | .block _ params body => params ++ body
  | .definition _ _ _ _ body =>
    if own.getLast?.map (·.kind) = some (.keyword .end_) then body else []
  | .conditional _ _ false _ body alternative =>
    body ++ if .keyword .else_ ∈ own.map (·.kind) then alternative else []
  | .other (_ :: children) =>
    if own.head?.any (·.kind.isNamespace) then
      if .op ['<'] ∈ own.map (·.kind) then children.tail else children
    else
      []
  | _ => []

/-- the arguments of a call or jump without parentheses, and the header of a loop -/
def exposed (own : List Token) : Node α → List α
  | .call _ _ _ args => if .leftParen ∈ own.map (·.kind) then [] else args
  | .other children =>
    if own.head?.any (·.kind.isJump) ∧ .leftParen ∉ own.map (·.kind) then children else []
  | .conditional keyword _ false condition _ _ =>
    if keyword = .while_ ∨ keyword = .until_ then [condition] else []
  | _ => []

theorem enclosed_map (f : α → β) (own : List Token) (node : Node α) :
    (node.map f).enclosed own = (node.enclosed own).map f := by
  cases node with
  | block owner params body => exact List.map_append.symm
  | definition keyword name singleton params body =>
    simp only [map, enclosed]
    split <;> rfl
  | conditional keyword span modifier condition body alternative =>
    cases modifier with
    | false =>
      simp only [map, enclosed, List.map_append]
      split <;> rfl
    | true => rfl
  | other children =>
    cases children with
    | nil => rfl
    | cons child children =>
      simp only [map, List.map_cons, enclosed]
      split
      · split
        · exact List.map_tail.symm
        · rfl
      · rfl
  | _ => rfl

theorem exposed_map (f : α → β) (own : List Token) (node : Node α) :
    (node.map f).exposed own = (node.exposed own).map f := by
  cases node with
  | call receiver method selector args =>
    simp only [map, exposed]
    split <;> rfl
  | conditional keyword span modifier condition body alternative =>
    cases modifier with
    | false =>
      simp only [map, exposed]
      split <;> rfl
    | true => rfl
  | other children =>
    simp only [map, exposed]
    split <;> rfl
  | _ => rfl

end Node

/-- a span stands between a bracket and the one that closes it -/
def Span.Bracketed (own : List Token) (span : Span) : Prop :=
  ∃ opening ∈ own, ∃ closing ∈ own, opening.kind.closing? = some closing.kind ∧
    opening.span.Precedes span ∧ span.Precedes closing.span

/-- a child of the construct is sheltered -/
def Node.Shelters {α : Type} (spanOf : α → Span) (own : List Token) (node : Node α) (child : α) : Prop :=
  child ∈ node.enclosed own ∨ (spanOf child).Bracketed own

/-! ## the places of slots -/

namespace Slot
variable {place inner : Place} {left right mark : Token.Kind} {closed : Bool} {marks : Delimiters}
  {items : List Tree} {row slots : List Slot} {tokens : List Token} {tree : Tree}

theorem mem_own {token : Token} : token ∈ slots.filterMap own? ↔ .own token ∈ slots := by
  rw [List.mem_filterMap]
  constructor
  · rintro ⟨slot, hmem, hown⟩
    cases slot with
    | own other =>
      obtain rfl : other = token := Option.some.inj hown
      exact hmem
    | part place tokens tree => exact nomatch hown
  · intro hmem
    exact ⟨_, hmem, rfl⟩

theorem mem_kinds {kind : Token.Kind} : kind ∈ (slots.filterMap own?).map (·.kind) ↔
    ∃ token, .own token ∈ slots ∧ token.kind = kind := by
  simp only [List.mem_map, mem_own]

theorem mem_trees_of_part (hmem : .part inner tokens tree ∈ slots) : tree ∈ Slot.trees slots :=
  mem_trees.mpr ⟨inner, tokens, hmem⟩

theorem Items.place_eq (h : Items place closed items row) (hmem : .part inner tokens tree ∈ row) :
    inner = place := by
  induction h with
  | single tokens' tree' => exact (Slot.part.inj (List.mem_singleton.mp hmem)).1
  | trailing tokens' tree' hclosed hcomma =>
    rcases List.mem_cons.mp hmem with heq | hmem
    · exact (Slot.part.inj heq).1
    · exact nomatch List.mem_singleton.mp hmem
  | cons tokens' tree' hcomma rest ih =>
    rcases List.mem_cons.mp hmem with heq | hmem
    · exact (Slot.part.inj heq).1
    · rcases List.mem_cons.mp hmem with heq | hmem
      · exact nomatch heq
      · exact ih hmem

theorem Marked.place_eq (h : Marked place mark items row) (hmem : .part inner tokens tree ∈ row) :
    inner = place := by
  cases h with
  | none => exact nomatch hmem
  | some hmark tokens' tree' =>
    rcases List.mem_cons.mp hmem with heq | hmem
    · exact nomatch heq
    · exact (Slot.part.inj (List.mem_singleton.mp hmem)).1

theorem Receiver.place_eq {receiver : Option Tree} (h : Receiver place receiver row)
    (hmem : .part inner tokens tree ∈ row) : inner = place := by
  cases h with
  | none => exact nomatch hmem
  | self hdot tokens' tree' =>
    rcases List.mem_cons.mp hmem with heq | hmem
    · exact (Slot.part.inj heq).1
    · exact nomatch List.mem_singleton.mp hmem

/-- an alternative stands at the place of the conditional, or behind `else` -/
theorem Alternative.place_eq (h : Alternative place items row) (hmem : .part inner tokens tree ∈ row) :
    inner = place ∨ ∃ token, .own token ∈ row ∧ token.kind = .keyword .else_ := by
  cases h with
  | none => simp at hmem
  | otherwise helse => exact .inr ⟨_, List.mem_cons_self, helse⟩
  | nested tokens' tree' => exact .inl (Slot.part.inj (List.mem_singleton.mp hmem)).1

theorem Body.own_kind (h : Body items row) {token : Token} (hmem : .own token ∈ row) :
    token.kind = .semicolon := by
  induction h with
  | nil => exact nomatch hmem
  | semicolon hsemicolon rest ih =>
    rcases List.mem_cons.mp hmem with heq | hmem
    · rw [Slot.own.inj heq]
      exact hsemicolon
    · exact ih hmem
  | statement tokens tree rest ih =>
    rcases List.mem_cons.mp hmem with heq | hmem
    · exact nomatch heq
    · exact ih hmem

theorem Group.exists_opening (h : Group left right closed marks items row) :
    ∃ opening rest, row = .own opening :: rest ∧ opening.kind = left := by
  cases h with
  | empty hleft hright => exact ⟨_, _, rfl, hleft⟩
  | items hleft hright hitems => exact ⟨_, _, rfl, hleft⟩

theorem Arguments.exists_command (h : Arguments items row)
    (hparen : ∀ token, .own token ∈ row → token.kind ≠ .leftParen) (htree : tree ∈ items) :
    ∃ tokens, .part .command tokens tree ∈ row := by
  cases h with
  | none => exact nomatch htree
  | group hgroup =>
    obtain ⟨opening, rest, rfl, hk⟩ := hgroup.exists_opening
    exact absurd hk (hparen opening List.mem_cons_self)
  | command hitems =>
    rw [← hitems.trees_eq] at htree
    obtain ⟨inner, tokens, hmem⟩ := mem_trees.mp htree
    exact ⟨tokens, hitems.place_eq hmem ▸ hmem⟩

section
variable (hsub : row.Sublist slots) (hordered : slots.Pairwise (fun a b => a.span.Precedes b.span))
include hsub hordered

theorem Group.bracketed (h : Group left right closed marks items row)
    (hbrackets : left.closing? = some right) (hmem : .part inner tokens tree ∈ row) :
    tree.span.Bracketed (slots.filterMap own?) := by
  have hrow := hordered.sublist hsub
  cases h with
  | empty => simp at hmem
  | @items opening closing _ inside hleft hright hitems =>
    rw [← List.cons_append, List.mem_append, List.mem_cons] at hmem
    rcases hmem with (heq | hmem) | hmem
    · exact nomatch heq
    · obtain ⟨hbehind, hinside⟩ := List.pairwise_cons.mp hrow
      have hfront := (List.pairwise_append.mp hinside).2.2 _ hmem _ List.mem_cons_self
      refine ⟨opening, mem_own.mpr (hsub.subset List.mem_cons_self), closing,
        mem_own.mpr (hsub.subset (by simp)), ?_, hbehind _ (List.mem_append_left _ hmem), hfront⟩
      rw [hleft, hright]
      exact hbrackets
    · exact nomatch List.mem_singleton.mp hmem

theorem Arguments.place_eq (h : Arguments items row) (hmem : .part inner tokens tree ∈ row) :
    inner = .command ∨ tree.span.Bracketed (slots.filterMap own?) := by
  cases h with
  | none => exact nomatch hmem
  | group hgroup => exact .inr (hgroup.bracketed hsub hordered rfl hmem)
  | command hitems => exact .inl (hitems.place_eq hmem)

theorem Signature.place_eq (h : Signature place items row) (hmem : .part inner tokens tree ∈ row) :
    inner = place ∨ tree.span.Bracketed (slots.filterMap own?) := by
  cases h with
  | none => exact nomatch hmem
  | group hgroup => exact .inr (hgroup.bracketed hsub hordered rfl hmem)
  | bare hitems => exact .inl (hitems.place_eq hmem)

theorem header_place {receiver : Option Tree} {name : Text} {front middle back : List Slot}
    (hrow : row = front ++ middle ++ back) (hreceiver : Receiver place receiver front)
    (hname : Name name middle) (hparams : Signature place items back)
    (hmem : .part inner tokens tree ∈ row) :
    inner = place ∨ tree.span.Bracketed (slots.filterMap own?) := by
  subst hrow
  rcases List.mem_append.mp hmem with hmem | hmem
  · rcases List.mem_append.mp hmem with hmem | hmem
    · exact .inl (hreceiver.place_eq hmem)
    · exact absurd (mem_trees_of_part hmem) (by simp [hname.trees_eq])
  · exact hparams.place_eq ((List.sublist_append_right _ _).trans hsub) hordered hmem

end

end Slot

/-! ## constructs -/

namespace Form
variable {place inner : Place} {node : Node Tree} {slots : List Slot} {tokens : List Token} {tree : Tree}

/-- the body of a class or module is told from its name, and from the class above it, by the less sign -/
theorem mem_enclosed_namespaced {keyword closing : Token} {name : Tree} {parents body : List Tree}
    {front back : List Slot} (h : keyword.kind = .keyword .class_ ∨ keyword.kind = .keyword .module_)
    (hparents : Slot.Marked place (.op ['<']) parents front) (hbody : Slot.Body body back)
    (hend : closing.kind = .keyword .end_) (htree : tree ∈ body) :
    tree ∈ (Node.other (name :: (parents ++ body))).enclosed ((.own keyword :: .part inner tokens name ::
      (front ++ back ++ [.own closing]) : List Slot).filterMap Slot.own?) := by
  have hkeyword : keyword.kind.isNamespace = true := by rcases h with h | h <;> rw [h] <;> rfl
  have hfirst : keyword.kind ≠ .op ['<'] := by
    intro heq
    rw [heq] at hkeyword
    exact nomatch hkeyword
  have hlast : closing.kind ≠ .op ['<'] := by simp [hend]
  rw [Node.enclosed]
  split
  next =>
    cases hparents with
    | none =>
      rw [if_neg]
      · exact htree
      · intro hsign
        obtain ⟨token, hmem, hk⟩ := Slot.mem_kinds.mp hsign
        simp only [List.nil_append, List.mem_cons, List.mem_append, Slot.own.injEq, reduceCtorEq,
          List.not_mem_nil, false_or, or_false] at hmem
        rcases hmem with rfl | hmem | rfl
        · exact hfirst hk
        · exact nomatch (hbody.own_kind hmem).symm.trans hk
        · exact hlast hk
    | @some mark hmark tokens' tree' =>
      rw [if_pos (Slot.mem_kinds.mpr ⟨mark, by simp, hmark⟩)]
      exact htree
  next hno => exact absurd hkeyword hno

/-- What is not sheltered stands at the place of the construct, or it is an argument or a header. -/
theorem sheltered (h : Form place node slots)
    (hordered : slots.Pairwise (fun a b => a.span.Precedes b.span))
    (hmem : .part inner tokens tree ∈ slots) : inner = place ∨ inner = .command ∨
      node.Shelters Tree.span (slots.filterMap Slot.own?) tree := by
  cases h with
  | braced hgroup => exact .inr (.inr (.inr (hgroup.bracketed (.refl _) hordered rfl hmem)))
  | bare hitems => exact .inl (hitems.place_eq hmem)
  | bareCall h hargs =>
    have hmem := List.mem_of_ne_of_mem (by simp) hmem
    exact .inr ((hargs.place_eq (.cons _ (.refl _)) hordered hmem).imp_right .inr)
  | dotCall hdot h hargs front receiver =>
    simp only [List.mem_cons, Slot.part.injEq, reduceCtorEq, false_or] at hmem
    rcases hmem with ⟨rfl, -⟩ | hmem
    · exact .inl rfl
    · have hplace := hargs.place_eq (.cons _ (.cons _ (.cons _ (.refl _)))) hordered hmem
      exact .inr (hplace.imp_right .inr)
  | jump h hargs =>
    have hmem := List.mem_of_ne_of_mem (by simp) hmem
    exact .inr ((hargs.place_eq (.cons _ (.refl _)) hordered hmem).imp_right .inr)
  | block hmarks hparams hbody front owner =>
    simp only [List.mem_cons, List.mem_append, Slot.part.injEq, reduceCtorEq, List.not_mem_nil, false_or,
      or_false] at hmem
    rcases hmem with ⟨rfl, -⟩ | hmem | hmem
    · exact .inl rfl
    · have htree := hparams.trees_eq ▸ Slot.mem_trees_of_part hmem
      exact .inr (.inr (.inl (List.mem_append_left _ htree)))
    · have htree := hbody.trees_eq ▸ Slot.mem_trees_of_part hmem
      exact .inr (.inr (.inl (List.mem_append_right _ htree)))
  | endless h hreceiver hname hparams hsign tokens' body =>
    rcases List.mem_append.mp (List.mem_of_ne_of_mem (by simp) hmem) with hmem | hmem
    · have hplace := Slot.header_place (.cons _ (List.sublist_append_left _ _)) hordered rfl hreceiver hname
        hparams hmem
      exact hplace.imp_right fun hbracketed => .inr (.inr hbracketed)
    · exact .inl (by simpa using hmem : _ ∧ _).1
  | definition h hreceiver hname hparams hbody hend =>
    rcases List.mem_append.mp (List.mem_of_ne_of_mem (by simp) hmem) with hmem | hmem
    · rcases List.mem_append.mp hmem with hmem | hmem
      · have hplace := Slot.header_place (.cons _ ((List.sublist_append_left _ _).trans
          (List.sublist_append_left _ _))) hordered rfl hreceiver hname hparams hmem
        exact hplace.imp_right fun hbracketed => .inr (.inr hbracketed)
      · have htree := hbody.trees_eq ▸ Slot.mem_trees_of_part hmem
        refine .inr (.inr (.inl ?_))
        simpa [Node.enclosed, Slot.own?, List.getLast?_cons, List.getLast?_append, hend] using htree
    · exact nomatch List.mem_singleton.mp hmem
  | namespaced h hparents hbody hend tokens' name =>
    simp only [List.mem_cons, List.mem_append, Slot.part.injEq, reduceCtorEq, List.not_mem_nil, false_or,
      or_false] at hmem
    rcases hmem with ⟨rfl, -⟩ | hmem | hmem
    · exact .inl rfl
    · exact .inl (hparents.place_eq hmem)
    · have htree := hbody.trees_eq ▸ Slot.mem_trees_of_part hmem
      exact .inr (.inr (.inl (mem_enclosed_namespaced h hparents hbody hend htree)))
  | branch h hkeyword hthen hbody hback =>
    simp only [List.mem_cons, List.mem_append, Slot.part.injEq, reduceCtorEq, false_or] at hmem
    rcases hmem with ⟨rfl, -⟩ | (hmem | hmem) | hmem
    · exact .inl rfl
    · exact absurd (Slot.mem_trees_of_part hmem) (by simp [hthen.trees_eq])
    · have htree := hbody.trees_eq ▸ Slot.mem_trees_of_part hmem
      exact .inr (.inr (.inl (List.mem_append_left _ htree)))
    · rcases hback.place_eq hmem with hplace | ⟨mark, hmark, helse⟩
      · exact .inl hplace
      · have htree := hback.trees_eq ▸ Slot.mem_trees_of_part hmem
        refine .inr (.inr (.inl (List.mem_append_right _ ?_)))
        rw [if_pos (Slot.mem_kinds.mpr ⟨mark, by simp [hmark], helse⟩)]
        exact htree
  | repetition h hkeyword hdo hbody =>
    simp only [List.mem_cons, List.mem_append, Slot.part.injEq, reduceCtorEq, List.not_mem_nil, false_or,
      or_false] at hmem
    rcases hmem with ⟨rfl, -⟩ | hmem | hmem
    · exact .inr (.inl rfl)
    · exact absurd (Slot.mem_trees_of_part hmem) (by simp [hdo.trees_eq])
    · have htree := hbody.trees_eq ▸ Slot.mem_trees_of_part hmem
      exact .inr (.inr (.inl (List.mem_append_left _ htree)))
  | index hgroup front tree' =>
    rcases List.mem_cons.mp hmem with heq | hmem
    · exact .inl (Slot.part.inj heq).1
    · exact .inr (.inr (.inr (hgroup.bracketed (.cons _ (.refl _)) hordered rfl hmem)))
  | array hgroup => exact .inr (.inr (.inr (hgroup.bracketed (.refl _) hordered rfl hmem)))
  | parenthesized hleft hright tokens' tree' =>
    have hgroup : Slot.Group .leftParen .rightParen false ⟨_, _⟩ _ _ :=
      .items hleft hright (.single tokens' tree')
    exact .inr (.inr (.inr (hgroup.bracketed (.refl _) hordered rfl hmem)))
  | _ => exact .inl (by grind)

/-- the children of a construct that is no jump are exposed only if it is a call or a loop -/
theorem not_mem_exposed {children : List Tree} {own : List Token} {token : Token}
    (hhead : own.head? = some token) (hk : token.kind.isJump = false) :
    tree ∉ (Node.other children).exposed own := by
  rw [Node.exposed, hhead, Option.any_some, hk]
  simp

theorem exposed_command (h : Form place node slots) (htree : tree ∈ node.exposed (slots.filterMap Slot.own?)) :
    ∃ tokens, .part .command tokens tree ∈ slots := by
  cases h with
  | bareCall h hargs =>
    rw [Node.exposed] at htree
    split at htree
    next => exact nomatch htree
    next hparen =>
      obtain ⟨tokens, hmem⟩ := hargs.exists_command (fun token hmem hk =>
        hparen (Slot.mem_kinds.mpr ⟨token, List.mem_cons_of_mem _ hmem, hk⟩)) htree
      exact ⟨tokens, List.mem_cons_of_mem _ hmem⟩
  | dotCall hdot h hargs =>
    rw [Node.exposed] at htree
    split at htree
    next => exact nomatch htree
    next hparen =>
      obtain ⟨tokens, hmem⟩ := hargs.exists_command (fun token hmem hk =>
        hparen (Slot.mem_kinds.mpr ⟨token, by simp [hmem], hk⟩)) htree
      exact ⟨tokens, by simp [hmem]⟩
  | jump h hargs =>
    rw [Node.exposed] at htree
    split at htree
    next hjump =>
      obtain ⟨tokens, hmem⟩ := hargs.exists_command (fun token hmem hk =>
        hjump.2 (Slot.mem_kinds.mpr ⟨token, List.mem_cons_of_mem _ hmem, hk⟩)) htree
      exact ⟨tokens, List.mem_cons_of_mem _ hmem⟩
    next => exact nomatch htree
  | branch h hkeyword =>
    rw [Node.exposed, if_neg (by simp [hkeyword])] at htree
    exact nomatch htree
  | repetition h hkeyword hdo hbody hend tokens condition =>
    rw [Node.exposed, if_pos hkeyword, List.mem_singleton] at htree
    subst htree
    exact ⟨tokens, by simp⟩
  | leaf h =>
    rw [Node.exposed] at htree
    split at htree <;> exact nomatch htree
  | namespaced h => exact absurd htree (not_mem_exposed rfl (by rcases h with h | h <;> rw [h] <;> rfl))
  | leading h =>
    refine absurd htree (not_mem_exposed rfl ?_)
    rcases h with h | h
    · exact Token.Kind.isJump_eq_false Parse.isLeading h rfl rfl
    · rw [h]
      rfl
  | @binary mark h =>
    have hjump := Token.Kind.isJump_eq_false (fun kind => Parse.isBinary { mark with kind := kind }) h rfl rfl
    exact absurd htree (not_mem_exposed rfl hjump)
  | scope h => exact absurd htree (not_mem_exposed rfl (by rw [h]; rfl))
  | index hgroup =>
    obtain ⟨opening, rest, rfl, hk⟩ := hgroup.exists_opening
    exact absurd htree (not_mem_exposed rfl (by rw [hk]; rfl))
  | array hgroup =>
    obtain ⟨opening, rest, rfl, hk⟩ := hgroup.exists_opening
    exact absurd htree (not_mem_exposed rfl (by rw [hk]; rfl))
  | parenthesized hleft => exact absurd htree (not_mem_exposed rfl (by rw [hleft]; rfl))
  | otherAssignment h =>
    exact absurd htree (not_mem_exposed rfl (Token.Kind.isJump_eq_false Token.Kind.isLeaf h rfl rfl))
  | _ => exact nomatch htree

theorem free_of_do {owner : Tree} {params body : List Tree} (h : Form place (.block owner params body) slots)
    (hdo : (slots.filterMap Slot.own?).head?.map (·.kind) = some (.keyword .do_)) : place = .free := by
  cases h with
  | block hmarks =>
    rcases hmarks with ⟨hleft, -⟩ | ⟨hfree, -⟩
    · exact nomatch hleft.symm.trans (Option.some.inj hdo)
    · exact hfree

end Form

end Collate
