import Collate.Grammar.Statement

/-!
# What constructs are made of

The grammar, said without the reader: which tokens a construct has of its own, which constructs stand
between them, and at which place each of these stands.

* `Slot`             a token of a construct, or a construct inside it with the tokens it takes;
* `Slot.Items`       items with commas between them;
* `Slot.Group`       items between two marks;
* `Slot.Body`        statements with semicolons between and around them;
* `Slot.Arguments`   the arguments of a call or jump;
* `Form`             the slots of a construct, as they are written;
* `Tree.Derived`     a tree whose constructs all have their form, with its tokens.
-/

namespace Collate

/-- a token of a construct, or a construct inside it with the tokens it takes -/
inductive Slot where
  | own (token : Token)
  | part (place : Place) (tokens : List Token) (tree : Tree)

namespace Slot

/-- the tokens of a slot -/
def tokens : Slot → List Token
  | own token => [token]
  | part _ tokens _ => tokens

/-- the token of a slot, unless a construct stands there -/
def own? : Slot → Option Token
  | own token => some token
  | part .. => none

/-- all tokens of some slots -/
def all (slots : List Slot) : List Token :=
  slots.flatMap tokens

/-! ## lists -/

/-- One or more items with one comma between neighbours.  In a closed list one may also stand behind
the last item. -/
inductive Items (place : Place) (closed : Bool) : List Tree → List Slot → Prop
  | single (tokens : List Token) (tree : Tree) : Items place closed [tree] [.part place tokens tree]
  | trailing (tokens : List Token) (tree : Tree) {comma : Token} (hclosed : closed = true)
      (hcomma : comma.kind = .comma) :
      Items place closed [tree] [.part place tokens tree, .own comma]
  | cons (tokens : List Token) (tree : Tree) {comma : Token} {trees : List Tree} {slots : List Slot}
      (hcomma : comma.kind = .comma) (rest : Items place closed trees slots) :
      Items place closed (tree :: trees) (.part place tokens tree :: .own comma :: slots)

inductive Group (left right : Token.Kind) (closed : Bool) : Delimiters → List Tree → List Slot → Prop
  | empty {opening closing : Token} (hleft : opening.kind = left) (hright : closing.kind = right) :
      Group left right closed ⟨opening.span, closing.span⟩ [] [.own opening, .own closing]
  | items {opening closing : Token} {trees : List Tree} {slots : List Slot}
      (hleft : opening.kind = left) (hright : closing.kind = right)
      (hitems : Items .free closed trees slots) :
      Group left right closed ⟨opening.span, closing.span⟩ trees
        (.own opening :: (slots ++ [.own closing]))

/-- statements with semicolons between and around them -/
inductive Body : List Tree → List Slot → Prop
  | nil : Body [] []
  | semicolon {token : Token} {trees : List Tree} {slots : List Slot}
      (hsemicolon : token.kind = .semicolon) (rest : Body trees slots) :
      Body trees (.own token :: slots)
  | statement (tokens : List Token) (tree : Tree) {trees : List Tree} {slots : List Slot}
      (rest : Body trees slots) : Body (tree :: trees) (.part .free tokens tree :: slots)

/-- the arguments of a call or jump; without parentheses they are those of a command -/
inductive Arguments : List Tree → List Slot → Prop
  | none : Arguments [] []
  | group {marks : Delimiters} {args : List Tree} {slots : List Slot}
      (hgroup : Group .leftParen .rightParen true marks args slots) : Arguments args slots
  | command {args : List Tree} {slots : List Slot} (hitems : Items .command false args slots) :
      Arguments args slots

inductive Signature (place : Place) : List Tree → List Slot → Prop
  | none : Signature place [] []
  | group {marks : Delimiters} {params : List Tree} {slots : List Slot}
      (hgroup : Group .leftParen .rightParen false marks params slots) : Signature place params slots
  | bare {params : List Tree} {slots : List Slot} (hitems : Items place false params slots) :
      Signature place params slots

inductive Piped : List Tree → List Slot → Prop
  | none : Piped [] []
  | group {marks : Delimiters} {params : List Tree} {slots : List Slot}
      (hgroup : Group .pipe .pipe false marks params slots) : Piped params slots

inductive Marked (place : Place) (mark : Token.Kind) : List Tree → List Slot → Prop
  | none : Marked place mark [] []
  | some {token : Token} (hmark : token.kind = mark) (tokens : List Token) (tree : Tree) :
      Marked place mark [tree] [.own token, .part place tokens tree]

/-- the receiver in front of the name of a definition -/
inductive Receiver (place : Place) : Option Tree → List Slot → Prop
  | none : Receiver place .none []
  | self {dot : Token} (hdot : dot.kind = .dot) (tokens : List Token) (tree : Tree) :
      Receiver place (.some tree) [.part place tokens tree, .own dot]

inductive Alternative (place : Place) : List Tree → List Slot → Prop
  | none {closing : Token} (hend : closing.kind = .keyword .end_) :
      Alternative place [] [.own closing]
  | otherwise {mark closing : Token} {body : List Tree} {slots : List Slot}
      (helse : mark.kind = .keyword .else_) (hbody : Body body slots)
      (hend : closing.kind = .keyword .end_) :
      Alternative place body (.own mark :: (slots ++ [.own closing]))
  | nested (tokens : List Token) (tree : Tree) :
      Alternative place [tree] [.part place tokens tree]

/-- a token of a kind, if there is one; nothing is left out that could be it -/
inductive Optional (kind : Token.Kind) : List Slot → List Slot → Prop
  | some {token : Token} (rest : List Slot) (hkind : token.kind = kind) :
      Optional kind [.own token] rest
  | none {rest : List Slot} (hrest : ∀ token ∈ (all rest).head?, token.kind ≠ kind) :
      Optional kind [] rest

end Slot

/-! ## tokens that make a name or a construct -/

/-- a token of this kind alone is a construct that no rule inspects -/
def Token.Kind.isLeaf : Token.Kind → Bool
  | .ivar _ | .number _ | .const _ => true
  | .keyword .nil_ | .keyword .true_ | .keyword .false_ | .keyword .self_ => true
  | _ => false

/-- a token of this kind names a method behind a dot -/
def Token.Kind.methodName? : Token.Kind → Option Text
  | .ident name | .const name => some name
  | .keyword word => some word.text
  | _ => none

def Token.Kind.definedName? : Token.Kind → Option Text
  | .ident name | .const name | .op name => some name
  | .keyword word => some word.text
  | _ => none

/-- the name of a definition; an equals sign may belong to it -/
inductive Slot.Name : Text → List Slot → Prop
  | plain {token : Token} {name : Text} (h : token.kind.definedName? = some name) :
      Name name [.own token]
  | setter {token sign : Token} {name : Text} (h : token.kind.definedName? = some name)
      (hsign : sign.kind = .assign) : Name (name ++ ['=']) [.own token, .own sign]

/-- the sign of a parameter that takes what is left over -/
def ParameterKind.sign? : ParameterKind → Option Token.Kind
  | .rest => some .star
  | .keywordRest => some .doubleStar
  | .block => some .ampersand
  | _ => none

def Tree.isElement (tree : Tree) : Bool :=
  match tree.node with
  | .pair .. | .doubleSplat _ => true
  | _ => false

def Tree.ofLabel (name : Text) (token : Token) : Tree :=
  ⟨.symbol name, ⟨token.span.start, token.span.stop - 1⟩⟩

/-! ## constructs -/

/-- the slots of a construct at a place, as they are written -/
inductive Form (place : Place) : Node Tree → List Slot → Prop
  | localVariable {token : Token} {name : Text} (h : token.kind = .ident name) :
      Form place (.localVariable name) [.own token]
  | symbol {token : Token} {name : Text} (h : token.kind = .symbol name) :
      Form place (.symbol name) [.own token]
  | str {token : Token} {content : Text} (h : token.kind = .str content) :
      Form place (.str content) [.own token]
  | leaf {token : Token} (h : token.kind.isLeaf = true) : Form place (.other []) [.own token]
  -- pairs and literals
  | label {token : Token} {name : Text} (h : token.kind = .label name) :
      Form place (.pair (.ofLabel name token) none true) [.own token]
  | labelled {token : Token} {name : Text} (h : token.kind = .label name) (tokens : List Token)
      (value : Tree) :
      Form place (.pair (.ofLabel name token) (some value) true)
        [.own token, .part place tokens value]
  | arrow {mark : Token} (h : mark.kind = .arrow) (front : List Token) (key : Tree)
      (tokens : List Token) (value : Tree) :
      Form place (.pair key (some value) false)
        [.part place front key, .own mark, .part place tokens value]
  | doubleSplat {mark : Token} (h : mark.kind = .doubleStar) (tokens : List Token) (value : Tree) :
      Form place (.doubleSplat value) [.own mark, .part place tokens value]
  | braced {braces : Delimiters} {elements : List Tree} {slots : List Slot}
      (hgroup : Slot.Group .leftBrace .rightBrace true braces elements slots)
      (helements : ∀ element ∈ elements, element.isElement = true) :
      Form place (.literal (some braces) elements) slots
  | bare {elements : List Tree} {slots : List Slot} (hitems : Slot.Items place false elements slots)
      (helements : ∀ element ∈ elements, element.isElement = true) :
      Form place (.literal none elements) slots
  -- calls and blocks
  | bareCall {token : Token} {name : Text} {args : List Tree} {slots : List Slot}
      (h : token.kind = .ident name ∨ token.kind = .const name)
      (hargs : Slot.Arguments args slots) :
      Form place (.call none name token.span args) (.own token :: slots)
  | dotCall {dot token : Token} {name : Text} {args : List Tree} {slots : List Slot}
      (hdot : dot.kind = .dot ∨ dot.kind = .safeDot) (h : token.kind.methodName? = some name)
      (hargs : Slot.Arguments args slots) (tokens : List Token) (receiver : Tree) :
      Form place (.call (some receiver) name token.span args)
        (.part place tokens receiver :: .own dot :: .own token :: slots)
  | splat {mark : Token} (h : mark.kind = .star) (tokens : List Token) (value : Tree) :
      Form place (.splat value) [.own mark, .part place tokens value]
  | block {opening closing : Token} {params body : List Tree} {front slots : List Slot}
      (hmarks : opening.kind = .leftBrace ∧ closing.kind = .rightBrace ∨
        place = .free ∧ opening.kind = .keyword .do_ ∧ closing.kind = .keyword .end_)
      (hparams : Slot.Piped params front) (hbody : Slot.Body body slots) (tokens : List Token)
      (owner : Tree) :
      Form place (.block owner params body)
        (.part place tokens owner :: .own opening :: (front ++ slots ++ [.own closing]))
  | jump {token : Token} {args : List Tree} {slots : List Slot}
      (h : token.kind = .keyword .return_ ∨ token.kind = .keyword .yield_)
      (hargs : Slot.Arguments args slots) : Form place (.other args) (.own token :: slots)
  -- definitions
  | endless {keyword sign : Token} {name : Text} {receiver : Option Tree} {params : List Tree}
      {front middle back : List Slot} (h : keyword.kind = .keyword .def_)
      (hreceiver : Slot.Receiver place receiver front) (hname : Slot.Name name middle)
      (hparams : Slot.Signature place params back) (hsign : sign.kind = .assign)
      (tokens : List Token) (body : Tree) :
      Form place (.definition keyword.span name receiver params [body])
        (.own keyword :: (front ++ middle ++ back ++ [.own sign, .part place tokens body]))
  | definition {keyword closing : Token} {name : Text} {receiver : Option Tree}
      {params body : List Tree} {front middle back slots : List Slot}
      (h : keyword.kind = .keyword .def_) (hreceiver : Slot.Receiver place receiver front)
      (hname : Slot.Name name middle) (hparams : Slot.Signature place params back)
      (hbody : Slot.Body body slots) (hend : closing.kind = .keyword .end_) :
      Form place (.definition keyword.span name receiver params body)
        (.own keyword :: (front ++ middle ++ back ++ slots ++ [.own closing]))
  | namespaced {keyword closing : Token} {parents body : List Tree} {front slots : List Slot}
      (h : keyword.kind = .keyword .class_ ∨ keyword.kind = .keyword .module_)
      (hparents : Slot.Marked place (.op ['<']) parents front) (hbody : Slot.Body body slots)
      (hend : closing.kind = .keyword .end_) (tokens : List Token) (name : Tree) :
      Form place (.other (name :: (parents ++ body)))
        (.own keyword :: .part place tokens name :: (front ++ slots ++ [.own closing]))
  -- parameters
  | required {token : Token} {name : Text} (h : token.kind = .ident name) :
      Form place (.parameter .required (some name) none) [.own token]
  | optional {token sign : Token} {name : Text} (h : token.kind = .ident name)
      (hsign : sign.kind = .assign) (tokens : List Token) (fallback : Tree) :
      Form place (.parameter .optional (some name) (some fallback))
        [.own token, .own sign, .part place tokens fallback]
  | keyword {token : Token} {name : Text} (h : token.kind = .label name) :
      Form place (.parameter .keyword (some name) none) [.own token]
  | optionalKeyword {token : Token} {name : Text} (h : token.kind = .label name)
      (tokens : List Token) (fallback : Tree) :
      Form place (.parameter .optionalKeyword (some name) (some fallback))
        [.own token, .part place tokens fallback]
  | anonymous {sign : Token} {kind : ParameterKind} (h : kind.sign? = some sign.kind) :
      Form place (.parameter kind none none) [.own sign]
  | rest {sign token : Token} {kind : ParameterKind} {name : Text} (h : kind.sign? = some sign.kind)
      (hname : token.kind = .ident name) :
      Form place (.parameter kind (some name) none) [.own sign, .own token]
  | refused {sign token : Token} {kind : ParameterKind} (h : kind.sign? = some sign.kind)
      (hnil : token.kind = .keyword .nil_) :
      Form place (.parameter kind none none) [.own sign, .own token]
  -- conditionals
  | branch {token : Token} {keyword : ConditionalKeyword} {body alternative : List Tree}
      {front slots back : List Slot} (h : ConditionalKeyword.ofKind? token.kind = some keyword)
      (hkeyword : keyword ≠ .while_ ∧ keyword ≠ .until_)
      (hthen : Slot.Optional (.keyword .then_) front (slots ++ back)) (hbody : Slot.Body body slots)
      (hback : Slot.Alternative place alternative back) (tokens : List Token) (condition : Tree) :
      Form place (.conditional keyword token.span false condition body alternative)
        (.own token :: .part place tokens condition :: (front ++ slots ++ back))
  | repetition {token closing : Token} {keyword : ConditionalKeyword} {body : List Tree}
      {front slots : List Slot} (h : ConditionalKeyword.ofKind? token.kind = some keyword)
      (hkeyword : keyword = .while_ ∨ keyword = .until_)
      (hdo : Slot.Optional (.keyword .do_) front (slots ++ [.own closing]))
      (hbody : Slot.Body body slots) (hend : closing.kind = .keyword .end_) (tokens : List Token)
      (condition : Tree) :
      Form place (.conditional keyword token.span false condition body [])
        (.own token :: .part .command tokens condition :: (front ++ slots ++ [.own closing]))
  | modifier {token : Token} {keyword : ConditionalKeyword}
      (h : Parse.trailingKeyword token.kind = some keyword) (front : List Token) (tree : Tree)
      (tokens : List Token) (condition : Tree) :
      Form place (.conditional keyword token.span true condition [tree] [])
        [.part place front tree, .own token, .part place tokens condition]
  -- operators, brackets and assignments
  | leading {mark : Token} (h : Parse.isLeading mark.kind = true ∨ mark.kind = .ampersand)
      (tokens : List Token) (inner : Tree) :
      Form place (.other [inner]) [.own mark, .part place tokens inner]
  | binary {mark : Token} (h : Parse.isBinary mark = true) (front : List Token) (left : Tree)
      (tokens : List Token) (right : Tree) :
      Form place (.other [left, right])
        [.part place front left, .own mark, .part place tokens right]
  | scope {mark token : Token} (h : mark.kind = .scope) (front : List Token) (tree : Tree) :
      Form place (.other [tree]) [.part place front tree, .own mark, .own token]
  | index {marks : Delimiters} {items : List Tree} {slots : List Slot}
      (hgroup : Slot.Group .leftBracket .rightBracket true marks items slots) (front : List Token)
      (tree : Tree) : Form place (.other (tree :: items)) (.part place front tree :: slots)
  | array {marks : Delimiters} {items : List Tree} {slots : List Slot}
      (hgroup : Slot.Group .leftBracket .rightBracket true marks items slots) :
      Form place (.other items) slots
  | parenthesized {opening closing : Token} (hleft : opening.kind = .leftParen)
      (hright : closing.kind = .rightParen) (tokens : List Token) (inner : Tree) :
      Form place (.other [inner]) [.own opening, .part .free tokens inner, .own closing]
  | assignment {target sign : Token} {name : Text} (h : target.kind = .ident name)
      (hsign : Parse.isAssigning sign.kind = true) (tokens : List Token) (value : Tree) :
      Form place (.assignment name value) [.own target, .own sign, .part place tokens value]
  | otherAssignment {target sign : Token}
      (h : target.kind.isLeaf = true) (hsign : Parse.isAssigning sign.kind = true)
      (tokens : List Token) (value : Tree) :
      Form place (.other [value]) [.own target, .own sign, .part place tokens value]

/-! ## trees -/

/-- the span reaches from the start of the first token to the end of the last one -/
structure Covers (tokens : List Token) (span : Span) : Prop where
  first : tokens.head?.map (·.span.start) = some span.start
  last : tokens.getLast?.map (·.span.stop) = some span.stop

/-- the tree has these tokens, and all its constructs have their form -/
inductive Tree.Derived : Place → List Token → Tree → Prop
  | mk {place : Place} {node : Node Tree} {span : Span} {slots : List Slot}
      (form : Form place node slots) (covers : Covers (Slot.all slots) span)
      (parts : ∀ inner tokens tree, .part inner tokens tree ∈ slots → Tree.Derived inner tokens tree) :
      Tree.Derived place (Slot.all slots) ⟨node, span⟩

end Collate
