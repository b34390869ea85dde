import SchemaContract.Files.FileSystem
import SchemaContract.Shell.Integer

/-!
Tests: conditions on texts, numbers and files, stated by words. Whether a word is an operator hangs
on the words behind it. The last word that an operand takes up is kept in front of the rest, because
messages name it.
-/
namespace SchemaContract.Shell.Test

inductive Operator where
  | unary (letter : Char)
  | binary (name : String)
  | negation
  | both
  | either
  | opening
  | closing
deriving DecidableEq, Repr

inductive Fault where
  | bracketMissing
  | argumentExpected (operator : Chars)
  | unexpectedOperator (word : Chars)
  | closingExpected
  | illegalNumber (word : Chars)
deriving DecidableEq, Repr

def Fault.message : Fault → Chars
  | bracketMissing => "missing ]".toList
  | argumentExpected operator => operator ++ ": argument expected".toList
  | unexpectedOperator word =>
    (if word = [] then [] else word ++ ": ".toList) ++ "unexpected operator".toList
  | closingExpected => "closing paren expected".toList
  | illegalNumber word => "Illegal number: ".toList ++ word

def binaryNames : List String :=
  ["=", "!=", "<", ">", "-eq", "-ne", "-ge", "-gt", "-le", "-lt", "-nt", "-ot", "-ef"]

def operator? (word : Chars) : Option Operator :=
  match word with
  | ['!'] => some .negation
  | ['('] => some .opening
  | [')'] => some .closing
  | ['-', 'a'] => some .both
  | ['-', 'o'] => some .either
  | ['-', c] => if "rwxefdcbpugkstznhOGLS".toList.contains c then some (.unary c) else none
  | _ =>
    let name := String.ofList word
    if binaryNames.contains name then some (.binary name)
    else if name = "<" ∨ name = ">" then some (.binary name)
    else none

def isBinary : Option Operator → Bool
  | some (.binary _) => true
  | _ => false

def lead? : List Chars → Option Operator
  | [] => none
  | word :: rest =>
    match operator? word with
    | some (.unary letter) =>
      match rest with
      | [] => none
      | [_] => some (.unary letter)
      | next :: _ => if isBinary (operator? next) then none else some (.unary letter)
    | some .opening => if rest = [] then none else some .opening
    | other => other

def nodeAt (fs : FileSystem) (path : Chars) : Option Node :=
  if path = "/dev/null".toList then some (.file [])
  else
    match FileSystem.pathOfText path.text with
    | .ok p => (fs.find p).toOption.map Prod.snd
    | .error _ => none

/-- The test of a word by a letter. Files can be read and written by anyone and run by no one. -/
def holdsOf (fs : FileSystem) (letter : Char) (word : Chars) : Bool :=
  let node? := nodeAt fs word
  let isDevice := word = "/dev/null".toList
  match letter with
  | 'z' => word.isEmpty
  | 'n' => !word.isEmpty
  | 'e' | 'r' | 'w' => node?.isSome
  | 'O' | 'G' => node?.isSome && !isDevice
  | 'd' | 'x' => node? == some .directory
  | 'f' =>
    match node? with
    | some (.file _) => !isDevice
    | _ => false
  | 's' =>
    match node? with
    | some (.file content) => !content.isEmpty
    | some .directory => true
    | none => false
  | 'c' => isDevice
  | _ => false

def numberOf (word : Chars) : Except Fault Int :=
  let scan := Integer.scanDecimal word
  if scan.rest = word ∨ scan.rest.all Integer.isSpace = false ∨
      Integer.clamp scan.value ≠ scan.value then .error (.illegalNumber word)
  else .ok scan.value

def samePlace (fs : FileSystem) (left right : Chars) : Bool :=
  match FileSystem.pathOfText left.text, FileSystem.pathOfText right.text with
  | .ok p, .ok q =>
    match fs.find p, fs.find q with
    | .ok (place, _), .ok (other, _) => place == other
    | _, _ => false
  | _, _ => false

def compare (fs : FileSystem) (name : String) (left right : Chars) : Except Fault Bool := do
  match name with
  | "=" => return left == right
  | "!=" => return left != right
  | "<" => return !Chars.isAtMost right left
  | ">" => return !Chars.isAtMost left right
  | "-ef" => return samePlace fs left right
  | "-nt" | "-ot" => return false
  | name =>
    let i ← numberOf left
    let j ← numberOf right
    match name with
    | "-eq" => return i == j
    | "-ne" => return i != j
    | "-ge" => return j ≤ i
    | "-gt" => return j < i
    | "-le" => return i ≤ j
    | _ => return i < j

/-- A test's value, and the words from the last one that it took up on. -/
abbrev Outcome := Except Fault (Bool × List Chars)

mutual

def disjunction (fs : FileSystem) : Nat → List Chars → Outcome
  | 0, words => .ok (false, words)
  | fuel + 1, words => do
    let (value, words) ← conjunction fs fuel words
    if lead? words.tail = some .either then
      let (other, words) ← disjunction fs fuel (words.drop 2)
      return (value || other, words)
    else return (value, words)

def conjunction (fs : FileSystem) : Nat → List Chars → Outcome
  | 0, words => .ok (false, words)
  | fuel + 1, words => do
    let (value, words) ← negation fs fuel words
    if lead? words.tail = some .both then
      let (other, words) ← conjunction fs fuel (words.drop 2)
      return (value && other, words)
    else return (value, words)

def negation (fs : FileSystem) : Nat → List Chars → Outcome
  | 0, words => .ok (false, words)
  | fuel + 1, words => do
    if lead? words = some .negation then
      if words.tail = [] then return (true, words)
      else
        let (value, words) ← negation fs fuel words.tail
        return (!value, words)
    else primary fs fuel words

def primary (fs : FileSystem) : Nat → List Chars → Outcome
  | 0, words => .ok (false, words)
  | _ + 1, [] => .ok (false, [])
  | fuel + 1, word :: rest => do
    match lead? (word :: rest) with
    | some .opening =>
      if lead? rest = some .closing then return (false, rest)
      else
        let (value, words) ← disjunction fs fuel rest
        if lead? words.tail = some .closing then return (value, words.tail)
        else throw .closingExpected
    | some (.unary letter) =>
      match rest with
      | [] => throw (.argumentExpected word)
      | operand :: _ => return (holdsOf fs letter operand, rest)
    | _ =>
      match lead? rest, rest with
      | some (.binary name), operator :: others =>
        match others with
        | [] => throw (.argumentExpected operator)
        | right :: _ => return (← compare fs name word right, others)
      | _, _ => return (!word.isEmpty, word :: rest)

end

def whole (fs : FileSystem) (words : List Chars) : Except Fault Bool := do
  match ← disjunction fs (8 * (words.length + 1)) words with
  | (value, word :: _ :: _) =>
    let _ := value
    throw (.unexpectedOperator word)
  | (value, _) => return value

/-- The value of a test. With three or four words, negation and parentheses around all come first,
unless an operator stands between two of three. -/
def evaluate (fs : FileSystem) : Nat → List Chars → Except Fault Bool
  | 0, _ => .ok false
  | _ + 1, [] => .ok false
  | fuel + 1, words => do
    let binaryFirst := words.length == 3 && isBinary ((words.drop 1).head?.bind operator?)
    if (words.length = 3 ∨ words.length = 4) ∧ binaryFirst = false then
      if words.head? = some ['('] ∧ words.getLast? = some [')'] then
        whole fs (words.drop 1).dropLast
      else if words.head? = some ['!'] then return !(← evaluate fs fuel words.tail)
      else whole fs words
    else if binaryFirst then
      match words with
      | [left, name, right] => compare fs (String.ofList name) left right
      | _ => whole fs words
    else whole fs words

/-- The value of the words behind a test's name, of which a bracket needs its partner. -/
def run (fs : FileSystem) (bracketed : Bool) (words : List Chars) : Except Fault Bool := do
  if bracketed then
    if words.getLast? = some [']'] then evaluate fs 3 words.dropLast else throw .bracketMissing
  else evaluate fs 3 words

end SchemaContract.Shell.Test
