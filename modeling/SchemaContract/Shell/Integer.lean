import SchemaContract.Shell.Chars

/-!
Whole numbers as scripts write them: decimal, octal behind a zero, hexadecimal behind `0x`, and kept
to 64 bits.
-/
namespace SchemaContract.Shell.Integer

/-- The least number that 64 bits with a sign do not hold. -/
def half : Int := 0x8000000000000000

def whole : Nat := 0x10000000000000000

/-- The number of 64 bits with a sign that agrees with a number in them. -/
def wrap (i : Int) : Int := Int.bmod i whole

def unsigned (i : Int) : Nat := (i % (whole : Int)).toNat

/-- The nearest number that 64 bits with a sign hold. -/
def clamp (i : Int) : Int := if i < -half then -half else if half ≤ i then half - 1 else i

def digitValue? (c : Char) : Option Nat :=
  if '0' ≤ c ∧ c ≤ '9' then some (c.toNat - '0'.toNat)
  else if 'a' ≤ c ∧ c ≤ 'z' then some (c.toNat - 'a'.toNat + 10)
  else if 'A' ≤ c ∧ c ≤ 'Z' then some (c.toNat - 'A'.toNat + 10)
  else none

def isDigitIn (base : Nat) (c : Char) : Bool :=
  match digitValue? c with
  | some d => d < base
  | none => false

def ofDigits (base : Nat) (digits : Chars) : Nat :=
  digits.foldl (fun n c => base * n + (digitValue? c).getD 0) 0

def toDigits (base n : Nat) : Chars := Nat.toDigits base n

/-- A magnitude at the front of a text: its base, its digits, and what is behind them. -/
structure Magnitude where
  base : Nat
  digits : Chars
  rest : Chars

def takeMagnitude (cs : Chars) : Magnitude :=
  let taken (base : Nat) (cs : Chars) : Magnitude :=
    let digits := cs.takeWhile (isDigitIn base)
    ⟨base, digits, cs.drop digits.length⟩
  match cs with
  | '0' :: x :: d :: rest =>
    if (x = 'x' ∨ x = 'X') ∧ isDigitIn 16 d = true then taken 16 (d :: rest)
    else taken 8 cs
  | '0' :: _ => taken 8 cs
  | _ => taken 10 cs

def isSpace (c : Char) : Bool := c == ' ' || ('\t' ≤ c && c ≤ '\r')

/-- A number at the front of a text, and what is behind it: the whole text if there is none. -/
structure Scan where
  value : Int
  rest : Chars

def scanBy (take : Chars → Magnitude) (cs : Chars) : Scan :=
  let spaced := cs.dropWhile isSpace
  let (negative, unsignedPart) := match spaced with
    | '-' :: rest => (true, rest)
    | '+' :: rest => (false, rest)
    | rest => (false, rest)
  let m := take unsignedPart
  if m.digits = [] then ⟨0, cs⟩
  else
    let n : Int := ofDigits m.base m.digits
    ⟨if negative then -n else n, m.rest⟩

def scan (cs : Chars) : Scan := scanBy takeMagnitude cs

def scanDecimal (cs : Chars) : Scan :=
  scanBy (fun cs =>
    let digits := cs.takeWhile (isDigitIn 10)
    ⟨10, digits, cs.drop digits.length⟩) cs

def ofFigures? (cs : Chars) : Option Nat :=
  if cs ≠ [] ∧ cs.all (isDigitIn 10) = true then some (ofDigits 10 cs) else none

example : (scan "0x1f".toList).value = 31 ∧ (scan " -010z".toList).value = -8 := by decide
example : wrap 0x8000000000000000 = -0x8000000000000000 := by decide

end SchemaContract.Shell.Integer
