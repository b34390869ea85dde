import SchemaContract.Grammar.Statement
import SchemaContract.Proofs.Grammar.Names
import SchemaContract.Proofs.Walk.Steps

/-!
The rules of the grammar as walks. Each rule is told by which entry it is entered and keeps its own,
and a loop is a rule that enters itself. No rule has a measure: that a walk ends is a theorem.
-/
namespace SchemaContract.Walk

open Grammar (MemberList unionOf intersectionOf keywordType? Keyword)

namespace Entry

def nameParts (caller : Entry) (start : String) : Walk String := do
  let here ← enter caller .nameParts
  if ← take (isMark .dot) then
    let part ← name .identifierAfterDot
    here |>.nameParts (start ++ "." ++ part)
  else return start
partial_fixpoint

def dottedName (caller : Entry) : Walk String := do
  let here ← enter caller .dottedName
  let start ← name .identifier
  here |>.nameParts start

def memberChain (caller : Entry) (base : Expression) : Walk Expression := do
  let here ← enter caller .memberChain
  if ← take (isMark .dot) then
    let part ← name .identifierAfterDot
    here |>.memberChain (.member base part)
  else return base
partial_fixpoint

def brackets (caller : Entry) (element : Expression) : Walk Expression := do
  let here ← enter caller .brackets
  if isMark .leftBracket (← current).kind? then
    if isMark .rightBracket (← ahead 1).kind? then
      advance 2
      here |>.brackets (.array element)
    else return element
  else return element
partial_fixpoint

mutual

def expression (caller : Entry) : Walk Expression := do
  let here ← enter caller .expression
  let _ ← take (isMark .pipe)
  let first ← here |>.intersection
  let others ← here |>.unionOptions
  return unionOf first others
partial_fixpoint

def unionOptions (caller : Entry) : Walk (List Expression) := do
  let here ← enter caller .unionOptions
  if ← take (isMark .pipe) then
    let option ← here |>.intersection
    let others ← here |>.unionOptions
    return option :: others
  else return []
partial_fixpoint

def intersection (caller : Entry) : Walk Expression := do
  let here ← enter caller .intersection
  let first ← here |>.operand
  let others ← here |>.intersectionOptions
  return intersectionOf first others
partial_fixpoint

def intersectionOptions (caller : Entry) : Walk (List Expression) := do
  let here ← enter caller .intersectionOptions
  if ← take (isMark .ampersand) then
    let option ← here |>.operand
    let others ← here |>.intersectionOptions
    return option :: others
  else return []
partial_fixpoint

def operand (caller : Entry) : Walk Expression := do
  let here ← enter caller .operand
  let element ← here |>.primary
  here |>.brackets element
partial_fixpoint

def primary (caller : Entry) : Walk Expression := do
  let here ← enter caller .primary
  match (← current).kind? with
  | some (.number value) =>
    advance 1
    return .number value
  | some (.text value) =>
    advance 1
    return .text value
  | some (.truth value) =>
    advance 1
    return .boolean value
  | some (.name name) =>
    advance 1
    match keywordType? name with
    | some keyword => return keyword
    | none =>
      let chain ← here |>.memberChain (.reference name)
      if isMark .less (← current).kind? then fail .templateArguments
      else return chain
  | some (.mark .leftBracket) =>
    advance 1
    return .tuple (← here |>.listing .rightBracket .tupleEnd)
  | some (.mark .leftBrace) =>
    advance 1
    return .model (← here |>.members .body)
  | some (.mark .leftParen) =>
    advance 1
    let inside ← here |>.expression
    expect .rightParen .groupEnd
    return inside
  | some (.mark mark) => fail (.unexpected (some mark))
  | none => fail (.unexpected none)
partial_fixpoint

/-- Behind the opening mark of a list, in the entry of what the list belongs to. -/
def listing (caller : Entry) (close : Mark) (what : Expectation) : Walk (List Expression) := do
  if ← take (isMark close) then return []
  else caller |>.items close what
partial_fixpoint

def items (caller : Entry) (close : Mark) (what : Expectation) : Walk (List Expression) := do
  let here ← enter caller .items
  let item ← here |>.expression
  if ← take (isMark .comma) then
    let others ← here |>.items close what
    return item :: others
  else
    expect close what
    return [item]
partial_fixpoint

def members (caller : Entry) (place : MemberList) : Walk (List Member) := do
  let here ← enter caller .members
  if ← take (isMark place.close) then return []
  else
    let decorators ← here |>.decorators
    let first ← here |>.member decorators
    separator place.close place.separator
    let others ← here |>.members place
    return first :: others
partial_fixpoint

/-- A member behind its decorators, in the round of its list. -/
def member (caller : Entry) (decorators : List Decorator) : Walk Member := do
  if ← take (isMark .ellipsis) then return .spread (← caller |>.expression)
  else caller |>.property decorators
partial_fixpoint

def property (caller : Entry) (decorators : List Decorator) : Walk Member := do
  let here ← enter caller .property
  let key ← key .propertyName
  let optional ← take (isMark .question)
  expect .colon .propertyColon
  let type ← here |>.expression
  let default? ← here |>.default
  return .property ⟨key, type, optional, default?, decorators⟩
partial_fixpoint

/-- Behind the type of a property, in the entry of the property. -/
def default (caller : Entry) : Walk (Option Expression) := do
  if ← take (isMark .equals) then return some (← caller |>.expression)
  else return none
partial_fixpoint

def decorators (caller : Entry) : Walk (List Decorator) := do
  let here ← enter caller .decorators
  if ← take (isMark .atSign) then
    let target ← here |>.dottedName
    let arguments ← here |>.arguments
    let others ← here |>.decorators
    return ⟨target, arguments⟩ :: others
  else return []
partial_fixpoint

/-- Behind the target of a decorator, in its round. -/
def arguments (caller : Entry) : Walk (List Expression) := do
  if ← take (isMark .leftParen) then caller |>.listing .rightParen .argumentsEnd
  else return []
partial_fixpoint

end

def modelTarget (caller : Entry) : Walk (Option Expression) := do
  if ← take (isWord "is") then return some (← caller |>.expression)
  else return none

def modelBody (caller : Entry) (target? : Option Expression) : Walk (List Member) := do
  if ← take (isMark .leftBrace) then caller |>.members .body
  else
    match target? with
    | some _ =>
      expect .semicolon .semicolon
      return []
    | none => fail (.expected .modelBody)

def model (caller : Entry) (decorators : List Decorator) : Walk Model := do
  let here ← enter caller .model
  let modelName ← name .modelName
  if isMark .less (← current).kind? then fail .templateParameters
  else
    let target? ← here |>.modelTarget
    let members ← here |>.modelBody target?
    return ⟨modelName, decorators, target?, members⟩

/-- A case behind its decorators, in the round of its list. -/
def enumerationCase (caller : Entry) (decorators : List Decorator) : Walk Case := do
  if ← take (isMark .ellipsis) then return .spread (← caller |>.primary)
  else
    let caseKey ← key .caseName
    if ← take (isMark .colon) then return .plain caseKey (some (← caller |>.primary)) decorators
    else return .plain caseKey none decorators

def cases (caller : Entry) : Walk (List Case) := do
  let here ← enter caller .cases
  if ← take (isMark .rightBrace) then return []
  else
    let decorators ← here |>.decorators
    let first ← here |>.enumerationCase decorators
    separator .rightBrace .caseSeparator
    let others ← here |>.cases
    return first :: others
partial_fixpoint

def enumeration (caller : Entry) (decorators : List Decorator) : Walk Enumeration := do
  let here ← enter caller .enumeration
  let enumerationName ← name .enumerationName
  expect .leftBrace .enumerationBody
  let cases ← here |>.cases
  return ⟨enumerationName, decorators, cases⟩

def operation (caller : Entry) (decorators : List Decorator) : Walk Operation := do
  let here ← enter caller .operation
  let operationName ← name .operationName
  expect .leftParen .parameterList
  let parameters ← here |>.members .parameters
  expect .colon .resultColon
  let result ← here |>.expression
  return ⟨operationName, decorators, parameters, result⟩

def operations (caller : Entry) : Walk (List Operation) := do
  let here ← enter caller .operations
  if ← take (isMark .rightBrace) then return []
  else
    let decorators ← here |>.decorators
    let _ ← take (isWord "op")
    let first ← here |>.operation decorators
    separator .rightBrace .operationSeparator
    let others ← here |>.operations
    return first :: others
partial_fixpoint

def interface (caller : Entry) (decorators : List Decorator) : Walk Interface := do
  let here ← enter caller .interface
  let interfaceName ← name .interfaceName
  expect .leftBrace .interfaceBody
  let operations ← here |>.operations
  return ⟨interfaceName, decorators, operations⟩

def variants (caller : Entry) : Walk (List Variant) := do
  let here ← enter caller .variants
  if ← take (isMark .rightBrace) then return []
  else
    let _ ← here |>.decorators
    let variantKey ← key .variantName
    expect .colon .variantColon
    let type ← here |>.expression
    separator .rightBrace .variantSeparator
    let others ← here |>.variants
    return ⟨variantKey, type⟩ :: others
partial_fixpoint

def union (caller : Entry) (decorators : List Decorator) : Walk Statement := do
  let here ← enter caller .union
  let unionName ← name .unionName
  expect .leftBrace .unionBody
  let variants ← here |>.variants
  return .union unionName decorators variants

/-- Counts braces from an opening one to the one that closes it. -/
def braces (caller : Entry) (depth : Nat) : Walk Unit := do
  let here ← enter caller .braces
  match (← current).kind? with
  | some (.mark .leftBrace) =>
    advance 1
    here |>.braces (depth + 1)
  | some (.mark .rightBrace) =>
    if depth = 0 then throw .belowZero
    else if depth - 1 = 0 then advance 1
    else
      advance 1
      here |>.braces (depth - 1)
  | none => fail .openBrace
  | some _ =>
    advance 1
    here |>.braces depth
partial_fixpoint

def projection (caller : Entry) : Walk Unit := do
  let here ← enter caller .projection
  match (← current).kind? with
  | some (.mark .leftBrace) => here |>.braces 0
  | none => fail (.expected .projectionBody)
  | some _ =>
    advance 1
    here |>.projection
partial_fixpoint

/-- Skips a statement that begins at `start`. A closing brace ends it, and is skipped itself only
where it stands there. -/
def recover (caller : Entry) (start : Nat) : Walk Unit := do
  let here ← enter caller .recover
  match (← current).kind? with
  | none => return ()
  | some (.mark .semicolon) => advance 1
  | some (.mark .leftBrace) => despiteFault (here |>.braces 0)
  | some (.mark .rightBrace) => if (← get).index = start then advance 1 else return ()
  | some _ =>
    advance 1
    here |>.recover start
partial_fixpoint

def importPath : Walk Statement := do
  let path ← quoted .importPath
  expect .semicolon .semicolon
  return .importPath path

def usingName (caller : Entry) : Walk Statement := do
  let used ← caller |>.dottedName
  expect .semicolon .semicolon
  return .usingName used

def bareOperation (caller : Entry) (decorators : List Decorator) : Walk Operation := do
  let declared ← caller |>.operation decorators
  expect .semicolon .semicolon
  return declared

def typeAlias (caller : Entry) : Walk Statement := do
  let aliasName ← name .aliasName
  expect .equals .aliasEquals
  let type ← caller |>.expression
  expect .semicolon .semicolon
  return .typeAlias aliasName type

/-- A statement that begins with no keyword. -/
def skipped (caller : Entry) : Walk Statement := do
  caller |>.recover (← get).index
  return .invalid

/-- Behind the statements of a block. -/
def closeBlock : Walk Unit := do
  if ← take (isMark .rightBrace) then return () else throw .openBlock

mutual

/-- The statements up to the end of the text, or up to the closing brace of a block. -/
def statements (caller : Entry) (inBlock : Bool) : Walk (List Statement) := do
  let here ← enter caller .statements
  let kind? := (← current).kind?
  if kind? = none then
    if inBlock then fail (.expected .namespaceEnd) else return []
  else
    if isMark .rightBrace kind? && inBlock then return []
    else
      let first ← here |>.statement
      let others ← here |>.statements inBlock
      return first :: others
partial_fixpoint

def statement (caller : Entry) : Walk Statement := do
  let here ← enter caller .statement
  let decorators ← here |>.decorators
  here |>.declaration decorators
partial_fixpoint

/-- Behind the decorators of a statement, in its entry. -/
def declaration (caller : Entry) (decorators : List Decorator) : Walk Statement := do
  if ← take (isMark .semicolon) then return .empty
  else
    match (← current).kind? with
    | some (.name word) =>
      match Keyword.ofName? word with
      | some keyword =>
        advance 1
        caller |>.declared decorators keyword
      | none => caller |>.skipped
    | _ => caller |>.skipped
partial_fixpoint

/-- Behind the keyword of a statement, in its entry. -/
def declared (caller : Entry) (decorators : List Decorator) : Keyword → Walk Statement
  | .importPath => importPath
  | .usingName => caller |>.usingName
  | .scope => caller |>.scope decorators
  | .model => .model <$> (caller |>.model decorators)
  | .enumeration => .enumeration <$> (caller |>.enumeration decorators)
  | .interface => .interface <$> (caller |>.interface decorators)
  | .operation => .operation <$> (caller |>.bareOperation decorators)
  | .union => caller |>.union decorators
  | .typeAlias => caller |>.typeAlias
  | .projection => (fun _ => .projection) <$> (caller |>.projection)
partial_fixpoint

def scope (caller : Entry) (decorators : List Decorator) : Walk Statement := do
  let here ← enter caller .scope
  let scopeName ← here |>.dottedName
  if ← take (isMark .leftBrace) then
    let statements ← here |>.block
    return .scope scopeName decorators statements
  else
    expect .semicolon .semicolon
    return .scope scopeName decorators []
partial_fixpoint

def block (caller : Entry) : Walk (List Statement) := do
  let statements ← caller |>.statements true
  closeBlock
  return statements
partial_fixpoint

end

end Entry

/-- The program that a walk from the first index finds. -/
def program : Walk Program := do
  return ⟨← Entry.statements ⟨.program, 0⟩ false⟩

end SchemaContract.Walk

/-- The walk over the tokens of a text: how it ends, if it does. -/
def SchemaContract.Tokens.walk (tokens : Tokens) (text : List Char) :
    Option (Except Walk.Halt Program × Walk.State) :=
  Walk.program.outcome ⟨text, tokens.cells⟩ .start
