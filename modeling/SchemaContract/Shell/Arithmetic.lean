import SchemaContract.Shell.Integer
import SchemaContract.Shell.Script

/-!
Arithmetic expressions of scripts: their trees, how they are read, and their values in 64 bits.
Operators that begin alike are told apart by the longest one that fits.
-/
namespace SchemaContract.Shell

inductive Arithmetic where
  | number (i : Int)
  | variable (name : Chars)
  | unary (operator : Char) (body : Arithmetic)
  | binary (operator : String) (left right : Arithmetic)
  | both (left right : Arithmetic)
  | either (left right : Arithmetic)
  | choice (condition positive negative : Arithmetic)
  /-- Assigns a value, combined with the one before when there is an operator. -/
  | assigned (name : Chars) (operator : String) (value : Arithmetic)
deriving DecidableEq, Repr

namespace Arithmetic

inductive Fault where
  | expected (what : String)
  | zeroDivision
  | illegal (value : Chars)
deriving DecidableEq, Repr

inductive Token where
  | finish
  | number (i : Int)
  | name (cs : Chars)
  | sign (text : String)
deriving DecidableEq, Repr

def signs : List String :=
  ["<<=", ">>=", "<<", ">>", "<=", ">=", "==", "!=", "&&", "||", "+=", "-=", "*=", "/=", "%=",
    "&=", "|=", "^=", "+", "-", "*", "/", "%", "<", ">", "&", "|", "^", "=", "!", "~", "(", ")",
    "?", ":"]

def tokens : Nat → Chars → List Token
  | 0, _ => []
  | _ + 1, [] => []
  | fuel + 1, c :: cs =>
    if Integer.isSpace c then tokens fuel cs
    else if c.isDigit then
      let m := Integer.takeMagnitude (c :: cs)
      .number (Integer.clamp (Integer.ofDigits m.base m.digits)) :: tokens fuel m.rest
    else if isNameHead c then
      let name := c :: cs.takeWhile isNamePart
      .name name :: tokens fuel (cs.drop (name.length - 1))
    else
      match signs.find? fun s => s.toList.isPrefixOf (c :: cs) with
      | some s => .sign s :: tokens fuel ((c :: cs).drop s.length)
      | none => .sign (String.ofList [c]) :: tokens fuel cs

abbrev Reading := StateT (List Token) (Except Fault)

def peek : Reading Token := return (← get).head?.getD .finish

def skip : Reading Unit := modify List.tail

/-- How tightly an operator between two values binds: the greater, the tighter. -/
def tightness? : String → Option Nat
  | "|" => some 1
  | "^" => some 2
  | "&" => some 3
  | "==" | "!=" => some 4
  | "<" | "<=" | ">" | ">=" => some 5
  | "<<" | ">>" => some 6
  | "+" | "-" => some 7
  | "*" | "/" | "%" => some 8
  | _ => none

/-- The operator that a sign assigns with: the empty one for a plain assignment. -/
def assignment? : Token → Option String
  | .sign "=" => some ""
  | .sign "+=" => some "+"
  | .sign "-=" => some "-"
  | .sign "*=" => some "*"
  | .sign "/=" => some "/"
  | .sign "%=" => some "%"
  | .sign "&=" => some "&"
  | .sign "|=" => some "|"
  | .sign "^=" => some "^"
  | .sign "<<=" => some "<<"
  | .sign ">>=" => some ">>"
  | _ => none

mutual

def assignment : Nat → Reading Arithmetic
  | 0 => throw (.expected "expecting primary")
  | fuel + 1 => do
    match ← get with
    | .name name :: sign :: rest =>
      match assignment? sign with
      | some operator =>
        set rest
        return .assigned name operator (← assignment fuel)
      | none => conditional fuel
    | _ => conditional fuel

def conditional : Nat → Reading Arithmetic
  | 0 => throw (.expected "expecting primary")
  | fuel + 1 => do
    let condition ← disjunction fuel
    if (← peek) = .sign "?" then
      skip
      let positive ← assignment fuel
      if (← peek) ≠ .sign ":" then throw (.expected "expecting ':'")
      skip
      return .choice condition positive (← conditional fuel)
    else return condition

def disjunction : Nat → Reading Arithmetic
  | 0 => throw (.expected "expecting primary")
  | fuel + 1 => do
    let left ← conjunction fuel
    if (← peek) = .sign "||" then
      skip
      return .either left (← disjunction fuel)
    else return left

def conjunction : Nat → Reading Arithmetic
  | 0 => throw (.expected "expecting primary")
  | fuel + 1 => do
    let left ← operation fuel 1 (← primary fuel)
    if (← peek) = .sign "&&" then
      skip
      return .both left (← conjunction fuel)
    else return left

/-- What operators that bind at least so tightly make of a first value. -/
def operation : Nat → Nat → Arithmetic → Reading Arithmetic
  | 0, _, _ => throw (.expected "expecting primary")
  | fuel + 1, least, left => do
    match ← peek with
    | .sign s =>
      match tightness? s with
      | some tightness =>
        if tightness < least then return left
        else
          skip
          let right ← operation fuel (tightness + 1) (← primary fuel)
          operation fuel least (.binary s left right)
      | none => return left
    | _ => return left

def primary : Nat → Reading Arithmetic
  | 0 => throw (.expected "expecting primary")
  | fuel + 1 => do
    let t ← peek
    skip
    match t with
    | .number i => return .number i
    | .name name => return .variable name
    | .sign "(" =>
      let body ← assignment fuel
      if (← peek) ≠ .sign ")" then throw (.expected "expecting ')'")
      skip
      return body
    | .sign "+" => return .unary '+' (← primary fuel)
    | .sign "-" => return .unary '-' (← primary fuel)
    | .sign "!" => return .unary '!' (← primary fuel)
    | .sign "~" => return .unary '~' (← primary fuel)
    | _ => throw (.expected "expecting primary")

end

def read (cs : Chars) : Except Fault Arithmetic := do
  let ts := tokens (cs.length + 1) cs
  if ts = [] then return .number 0
  else
    match ← (assignment (8 * (ts.length + 1))).run ts with
    | (a, []) => return a
    | _ => throw (.expected "expecting EOF")

def ofBool (b : Bool) : Int := if b then 1 else 0

/-- Bits of two numbers combined, in 64 bits. -/
def bitwise (combine : Nat → Nat → Nat) (a b : Int) : Int :=
  Integer.wrap (combine (Integer.unsigned a) (Integer.unsigned b))

def shiftOf (b : Int) : Nat := (b % 64).toNat

def shifted (a b : Int) : Int :=
  Integer.wrap (a * Nat.pow 2 (shiftOf b))

def compute (operator : String) (a b : Int) : Except Fault Int :=
  match operator with
  | "|" => .ok (bitwise Nat.lor a b)
  | "^" => .ok (bitwise Nat.xor a b)
  | "&" => .ok (bitwise Nat.land a b)
  | "==" => .ok (ofBool (a == b))
  | "!=" => .ok (ofBool (a != b))
  | "<" => .ok (ofBool (a < b))
  | "<=" => .ok (ofBool (a ≤ b))
  | ">" => .ok (ofBool (b < a))
  | ">=" => .ok (ofBool (b ≤ a))
  | "<<" => .ok (shifted a b)
  | ">>" => .ok (Int.fdiv a (Nat.pow 2 (shiftOf b)))
  | "+" => .ok (Integer.wrap (a + b))
  | "-" => .ok (Integer.wrap (a - b))
  | "*" => .ok (Integer.wrap (a * b))
  | "/" => if b = 0 then .error .zeroDivision else .ok (Integer.wrap (Int.tdiv a b))
  | "%" => if b = 0 then .error .zeroDivision else .ok (Int.tmod a b)
  | _ => .ok b

/-- The values assigned while an expression is evaluated, the last first. -/
abbrev Evaluation := StateT (List (Chars × Int)) (Except Fault)

/-- The number that a variable holds. Nothing but blanks is zero. -/
def numberIn (value : Chars) : Except Fault Int :=
  let scan := Integer.scan value
  if scan.rest.all Integer.isSpace then .ok (Integer.clamp scan.value) else .error (.illegal value)

def valueOf (values : Chars → Chars) (name : Chars) : Evaluation Int := do
  match (← get).lookup name with
  | some i => return i
  | none =>
    match numberIn (values name) with
    | .ok i => return i
    | .error fault => throw fault

def calculate (operator : String) (a b : Int) : Evaluation Int :=
  match compute operator a b with
  | .ok i => return i
  | .error fault => throw fault

/-- The value of an expression. What need not be evaluated is not. -/
def evaluate (values : Chars → Chars) : Arithmetic → Evaluation Int
  | .number i => return i
  | .variable name => valueOf values name
  | .unary operator body => do
    let i ← evaluate values body
    match operator with
    | '-' => return Integer.wrap (-i)
    | '!' => return ofBool (i == 0)
    | '~' => return -1 - i
    | _ => return i
  | .binary operator left right => do
    let i ← evaluate values left
    calculate operator i (← evaluate values right)
  | .both left right => do
    if (← evaluate values left) = 0 then return 0
    else return ofBool ((← evaluate values right) != 0)
  | .either left right => do
    if (← evaluate values left) ≠ 0 then return 1
    else return ofBool ((← evaluate values right) != 0)
  | .choice condition positive negative => do
    if (← evaluate values condition) ≠ 0 then evaluate values positive
    else evaluate values negative
  | .assigned name operator value => do
    let i ← evaluate values value
    let result ←
      if operator = "" then pure i else calculate operator (← valueOf values name) i
    modify fun assigned => (name, result) :: assigned
    return result

def run (values : Chars → Chars) (cs : Chars) : Except Fault (Int × List (Chars × Int)) := do
  (evaluate values (← read cs)).run []

def Fault.message (cs : Chars) : Fault → Chars
  | .expected what =>
    "arithmetic expression: ".toList ++ what.toList ++ ": \"".toList ++ cs ++ ['"']
  | .zeroDivision => "arithmetic expression: division by zero: \"".toList ++ cs ++ ['"']
  | .illegal value => "Illegal number: ".toList ++ value

end Arithmetic
end SchemaContract.Shell
