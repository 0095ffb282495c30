import Collate.Grammar.Phrase
import Collate.Node.Table
import Collate.Text.Lines

/-!
# Reading into a table

The grammar says which tree a text has.  The program builds no tree: it walks over an array of tokens
by an index, pushes every construct into a table of nodes when it is complete, and goes on with its
number.  It looks up spans by number, cuts the texts of its messages out of the source, and computes
positions in 32 bits; every lookup that does not succeed is a fault.

* `Builder`            the tokens with the index of the next one, the nodes so far, and the names in sight;
* `Build`              a step of the program, which never takes a token or a node back;
* `Build.advance`      take a token; the index stays at the mark of the end;
* `Build.push`         one more node, over nodes of the table;
* `Build.pushFrom`     the same over a span that must not be reversed;
* `Build.refuseAt`     refuse the text at an offset.

The functions have the names of the grammar and are organised like it.  `Document.read` runs them.
-/

namespace Collate

/-- how the program counts in 32 bits -/
structure Profile where
  numbering : Numbering
  overflow : Overflow
  deriving DecidableEq, Repr

/-- why the program stops -/
inductive Stop where
  /-- the text is refused, with an error and its place -/
  | refused (error : ReadError) (place : Position)
  | fault (fault : Fault)
  deriving DecidableEq, Repr

/-- where the program stands -/
structure Builder where
  profile : Profile
  text : Text
  /-- the tokens of the text and the mark of its end -/
  tokens : Array Token
  /-- the index of the next token -/
  index : Nat
  nodes : NodeTable
  locals : List Text
  deriving DecidableEq, Repr

/-- the program has gone on, over further tokens and with further nodes -/
structure Builder.Leads (b b' : Builder) : Prop where
  index_le : b.index ≤ b'.index
  size_le : b.nodes.size ≤ b'.nodes.size

theorem Builder.Leads.refl (b : Builder) : b.Leads b :=
  ⟨Nat.le_refl _, Nat.le_refl _⟩

theorem Builder.Leads.trans {b b' b'' : Builder} (h : b.Leads b') (h' : b'.Leads b'') : b.Leads b'' :=
  ⟨Nat.le_trans h.index_le h'.index_le, Nat.le_trans h.size_le h'.size_le⟩

/-- a step of the program: what it gives or why it stops, and where it stands then -/
def Build (α : Type) : Type :=
  (b : Builder) → Except Stop α × { b' : Builder // b.Leads b' }

namespace Build
variable {α β : Type}

def exec (run : Build α) (b : Builder) : Except Stop α × Builder :=
  ((run b).1, (run b).2)

/-- go on with what a step gave -/
def andThen (run : Build α) (next : α → Build β) : Build β := fun b =>
  match run b with
  | (.ok a, b') => ((next a b').1, ⟨(next a b').2, b'.2.trans (next a b').2.2⟩)
  | (.error stop, b') => (.error stop, b')

instance : Monad Build where
  pure a := fun b => (.ok a, ⟨b, .refl b⟩)
  bind := andThen

/-- where the program stands -/
def state : Build Builder := fun b =>
  (.ok b, ⟨b, .refl b⟩)

def goTo (next : (b : Builder) → { b' : Builder // b.Leads b' }) : Build Unit := fun b =>
  (.ok (), next b)

def halt (stop : Stop) : Build α := fun b =>
  (.error stop, ⟨b, .refl b⟩)

/-- a result that may be a fault -/
def ofResult : Except Fault α → Build α
  | .ok a => pure a
  | .error fault => halt (.fault fault)

/-! ## single tokens -/

def token (index : Nat) : Build Token := do
  match (← state).tokens[index]? with
  | some token => return token
  | none => halt (.fault (.entry index))

def current : Build Token := do
  token (← state).index

/-- the token after the next one; there is none behind the mark of the end -/
def second : Build Token := do
  let b ← state
  token (min (b.index + 1) (b.tokens.size - 1))

def advance : Build Token := do
  let token ← current
  if token.kind ≠ .eof then
    goTo fun b => ⟨{ b with index := b.index + 1 }, Nat.le_succ _, Nat.le_refl _⟩
  return token

def peek : Build Token.Kind := do
  return (← current).kind

def sees (kind : Token.Kind) : Build Bool := do
  return decide ((← peek) = kind)

def sameLine : Build Bool := do
  return !(← current).newlineBefore

/-- take the next token if it is of a kind -/
def eat (kind : Token.Kind) : Build Bool := do
  if ← sees kind then
    let _ ← advance
    return true
  else
    return false

/-! ## errors -/

def slice (span : Span) : Build Text := do
  ofResult ((← state).text.slice span)

def refuseAt (cause : ReadCause) (offset : Nat) : Build α := do
  let b ← state
  let place ← ofResult (b.text.place b.profile.overflow offset)
  halt (.refused ⟨cause, offset⟩ place)

def refuseHere (cause : ReadCause) : Build α := do
  refuseAt cause (← current).span.start

/-- the next token as messages show it -/
def found : Build (Option Text) := do
  let token ← current
  if token.kind = .eof then return none else return some (← slice token.span)

def unexpected : Build α := do
  refuseHere (.unexpected (← found))

def refuse (token : Token) : Build α := do
  refuseAt (.unexpected (some (← slice token.span))) token.span.start

def expect (kind : Token.Kind) (wanted : String) : Build Token := do
  if ← sees kind then advance else refuseHere (.expected wanted (← found))

def expectWord (word : Keyword) : Build Token :=
  expect (.keyword word) ("`" ++ word.spelling ++ "`")

def outOfSteps : Build α :=
  refuseHere .outOfSteps

/-! ## nodes -/

def spanOf (id : Nat) : Build Span := do
  match (← state).nodes.rows[id]? with
  | some row => return row.span
  | none => halt (.fault (.entry id))

/-- one more node -/
def push (node : Node Nat) (span : Span) : Build Nat := do
  let b ← state
  -- the parent of every child is set, so the table has to have them all
  match node.children.find? (fun child => decide (b.nodes.size ≤ child)) with
  | some child => halt (.fault (.entry child))
  | none =>
    goTo fun b => ⟨{ b with nodes := b.nodes.pushAs b.profile.numbering node span }, Nat.le_refl _,
      b.nodes.size_le_pushAs b.profile.numbering node span⟩
    return b.profile.numbering.number b.nodes.size

/-- one more node, between two offsets -/
def pushFrom (node : Node Nat) (start stop : Nat) : Build Nat := do
  push node (← ofResult (Span.ofBounds start stop))

/-! ## local names -/

/-- change the names in sight -/
def rename (names : List Text → List Text) : Build Unit :=
  goTo fun b => ⟨{ b with locals := names b.locals }, Nat.le_refl _, Nat.le_refl _⟩

def declare (name : Text) : Build Unit :=
  rename fun names => name :: names

def isLocal (name : Text) : Build Bool := do
  return (← state).locals.contains name

/-- read with names of its own -/
def withinScope (sight : Parse.Sight) (body : Build α) : Build α := do
  let outer := (← state).locals
  if sight = .closed then rename fun _ => []
  let result ← body
  rename fun _ => outer
  return result

/-! ## loops -/

/-- as many rounds as there are tokens left, the mark of the end included -/
def rounds : Build Nat := do
  let b ← state
  return b.tokens.size - b.index

def closes (closer : Option Token.Kind) : Build Bool := do
  match closer with
  | some kind => sees kind
  | none => return false

/-- one or more items in at most so many rounds -/
def separatedIn (item : Build α) (closer : Option Token.Kind) : Nat → Build (List α)
  | 0 => outOfSteps
  | n + 1 => do
    let first ← item
    if ← eat .comma then
      if ← closes closer then
        return [first]
      else
        return first :: (← separatedIn item closer n)
    else
      return [first]

def separated (item : Build α) (closer : Option Token.Kind) : Build (List α) := do
  separatedIn item closer (← rounds)

def chainedIn (extend : Nat → Build (Option Nat)) : Nat → Nat → Build Nat
  | 0, _ => outOfSteps
  | n + 1, id => do
    match ← extend id with
    | some longer => chainedIn extend n longer
    | none => return id

def chained (extend : Nat → Build (Option Nat)) (id : Nat) : Build Nat := do
  chainedIn extend (← rounds) id

/-! ## statements -/

/-- a function for every phrase at every place -/
abbrev Descent := Phrase → Place → Build Nat

def finished (stop : Token.Kind → Bool) : Build Bool := do
  let kind ← peek
  return decide (kind = .eof) || stop kind

def skipSemicolons : Nat → Build Unit
  | 0 => return ()
  | n + 1 => do
    if ← eat .semicolon then skipSemicolons n

def statementsIn (descend : Descent) (place : Place) (stop : Token.Kind → Bool) :
    Nat → Build (List Nat)
  | 0 => outOfSteps
  | n + 1 => do
    skipSemicolons (← rounds)
    if ← finished stop then
      return []
    else
      let first ← descend .statement place
      if (← finished stop) || (← sees .semicolon) || !(← sameLine) then
        return first :: (← statementsIn descend place stop n)
      else
        unexpected

def statements (descend : Descent) (place : Place) (stop : Token.Kind → Bool) :
    Build (List Nat) := do
  statementsIn descend place stop (← rounds)

end Build

end Collate
