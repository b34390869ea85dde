import SchemaContract.Schema.Source

/-!
Walks over the tokens of a text, by index. A walk stands at an index into the tokens and their end,
looks up what is there and moves on. Nothing bounds the index, and nothing makes a walk come to an
end: it halts where it looks up what is not there, where a count falls below zero, or at a fault of
the text, and a walk that goes on forever has no outcome. It keeps a record of every index that it
comes to and of every rule that it enters.
-/
namespace SchemaContract

/-- A token of a text, or the end of the text, which is of no kind. -/
structure Cell where
  kind? : Option Token.Kind
  offset : Nat

def Tokens.cells (tokens : Tokens) : List Cell :=
  tokens.list.map (fun t => ⟨some t.kind, t.offset⟩) ++ [⟨none, tokens.stop⟩]

namespace Walk

/-- The rules that a walk follows. A loop is a rule that is entered again for each round. -/
inductive Rule where
  | program | statements | statement | scope | model | enumeration | cases | interface | operations
  | operation | union | variants | members | property | decorators | dottedName | nameParts
  | expression | unionOptions | intersection | intersectionOptions | operand | brackets | primary
  | memberChain | items | projection | recover | braces
deriving DecidableEq

/-- The rules that a rule may enter at the index where it was entered itself. -/
def Rule.leads : Rule → List Rule
  | program => [statements]
  | statements => [statement]
  | statement => [decorators, recover]
  | scope => [dottedName]
  | members => [decorators, property]
  | cases | variants => [decorators]
  | operations => [decorators, operation]
  | items => [expression]
  | expression => [intersection]
  | intersection => [operand]
  | operand => [primary]
  | projection | recover => [braces]
  | _ => []

structure Entry where
  rule : Rule
  index : Nat

inductive Event where
  | stands (index : Nat)
  | enters (caller callee : Entry)

structure State where
  index : Nat
  record : List Event

def State.start : State := ⟨0, [.stands 0]⟩

structure Ground where
  text : List Char
  cells : List Cell

inductive Halt where
  | fault (e : SyntaxError)
  | outside
  | belowZero
  | openBlock

end Walk

abbrev Walk := ReaderT Walk.Ground (ExceptT Walk.Halt (StateT Walk.State Option))

namespace Walk

variable {α : Type}

/-- How a walk from a state ends, if it does. -/
def outcome (w : Walk α) (ground : Ground) (s : State) : Option (Except Halt α × State) :=
  ((w.run ground).run).run s

def current : Walk Cell := do
  match (← read).cells[(← get).index]? with
  | some cell => return cell
  | none => throw .outside

/-- A cell further on, or the last one. -/
def ahead (distance : Nat) : Walk Cell := do
  let cells := (← read).cells
  if cells.length = 0 then throw .belowZero
  else
    match cells[min ((← get).index + distance) (cells.length - 1)]? with
    | some cell => return cell
    | none => throw .outside

def advance (distance : Nat) : Walk Unit :=
  modify fun s => ⟨s.index + distance, s.record ++ [.stands (s.index + distance)]⟩

def enter (caller : Entry) (rule : Rule) : Walk Entry := do
  let callee : Entry := ⟨rule, (← get).index⟩
  modify fun s => { s with record := s.record ++ [.enters caller callee] }
  return callee

def fail (cause : SyntaxError.Cause) : Walk α := do
  let cell ← current
  throw (.fault ⟨.ofOffset (← read).text cell.offset, cause⟩)

def take (accepts : Option Token.Kind → Bool) : Walk Bool := do
  if accepts (← current).kind? then
    advance 1
    return true
  else return false

def isMark (mark : Mark) (kind? : Option Token.Kind) : Bool :=
  kind? = some (.mark mark)

def isSeparator (kind? : Option Token.Kind) : Bool :=
  isMark .semicolon kind? || isMark .comma kind?

def isWord (word : String) (kind? : Option Token.Kind) : Bool :=
  kind? = some (.name word)

def expect (mark : Mark) (what : Expectation) : Walk Unit := do
  if ← take (isMark mark) then return ()
  else fail (.expected what)

def name (what : Expectation) : Walk String := do
  match (← current).kind? with
  | some (.name name) =>
    advance 1
    return name
  | _ => fail (.expected what)

def quoted (what : Expectation) : Walk String := do
  match (← current).kind? with
  | some (.text text) =>
    advance 1
    return text
  | _ => fail (.expected what)

def key (what : Expectation) : Walk Key := do
  match (← current).kind? with
  | some (.name name) =>
    advance 1
    return .identifier name
  | some (.text text) =>
    advance 1
    return .quoted text
  | _ => fail (.expected what)

def separator (close : Mark) (what : Expectation) : Walk Unit := do
  if ← take isSeparator then return ()
  else
    if isMark close (← current).kind? then return ()
    else fail (.expected what)

/-- Goes on where a walk ends at a fault of the text. -/
def despiteFault (w : Walk Unit) : Walk Unit := fun ground s =>
  (w.outcome ground s).map fun
    | (.error (.fault _), s) => (.ok (), s)
    | ending => ending

end Walk
end SchemaContract
