import SchemaContract.Found
import SchemaContract.Json.Fault
import SchemaContract.Json.Value

/-!
Numbers in JSON text. Whole numbers of 64 bits, with or without a sign, are kept as they are. Any
other is a double: the digits that fit into 64 bits, rounded, and then multiplied or divided by a
rounded power of ten.
-/
namespace SchemaContract.Json.Number

def digitLimit : Nat := 0xFFFFFFFFFFFFFFFF

def exponentLimit : Nat := 0x7FFFFFFF

def digitValue (c : Char) : Nat := c.toNat - '0'.toNat

/-- Digits read onto a number as long as it stays within a limit: the number, and how many they
are. -/
def digitsWithin (limit n count : Nat) : (cs : List Char) → Found Char (cs.length + 1) (Nat × Nat)
  | [] => .before (n, count) []
  | c :: cs =>
    if c.isDigit ∧ 10 * n + digitValue c ≤ limit then
      (digitsWithin limit (10 * n + digitValue c) (count + 1) cs).lax
    else .before (n, count) (c :: cs)

def skipDigits (count : Nat) : (cs : List Char) → Found Char (cs.length + 1) Nat
  | [] => .before count []
  | c :: cs =>
    if c.isDigit then (skipDigits (count + 1) cs).lax
    else .before count (c :: cs)

def startsWithDigit : List Char → Bool
  | c :: _ => c.isDigit
  | [] => false

def greatestPower : Nat := 308

def power (n : Nat) : Binary64 := .ofNat (Nat.pow 10 n)

/-- A double times a power of ten, which takes more than one division where the power is too small.
There is none above the finite ones. -/
def scale (x : Binary64) (exponent : Int) : Option Binary64 :=
  if exponent.natAbs ≤ greatestPower then
    if 0 ≤ exponent then
      let product := x.times (power exponent.natAbs)
      if product.isFinite then some product else none
    else some (x.dividedBy (power exponent.natAbs))
  else if x.isZero then some x
  else if 0 ≤ exponent then none
  else scale (x.dividedBy (power greatestPower)) (exponent + greatestPower)
termination_by exponent.natAbs
decreasing_by simp only [greatestPower] at *; omega

def ofParts (negative : Bool) (digits : Nat) (exponent : Int) (rest : List Char) :
    Except Fault (Found Char (rest.length + 1) Json) :=
  match scale (.ofNat digits) exponent with
  | some x => .ok (.before (.float (if negative then x.neg else x)) rest)
  | none => .error (.behind .outOfRange rest)

def clampExponent (e : Int) : Int :=
  max (-(exponentLimit : Int) - 1) (min exponentLimit e)

def exponentSign : (cs : List Char) → Found Char (cs.length + 1) Bool
  | '+' :: cs => (Found.before false cs).lax
  | '-' :: cs => (Found.before true cs).lax
  | cs => .before false cs

/-- A number from behind the mark of its exponent on. An exponent too great to be written out is an
error, unless the number is zero anyway or too small for a double. -/
def exponent (negative : Bool) (digits : Nat) (start : Int) (cs : List Char) :
    Except Fault (Found Char (cs.length + 1) Json) :=
  match exponentSign cs with
  | ⟨_, [], _⟩ => .error (.behind .endInValue [])
  | ⟨down, c :: cs₁, h₁⟩ =>
    if c.isDigit then
      match (digitsWithin exponentLimit 0 0 (c :: cs₁)).widen h₁ with
      | ⟨(e, _), cs₂, h₂⟩ =>
        if startsWithDigit cs₂ then
          if digits ≠ 0 ∧ down = false then .error (.next .outOfRange cs₂)
          else
            let found := (skipDigits 0 cs₂).widen h₂
            .ok (found.map fun _ => .float (.ofUnsigned negative 0))
        else do
          let power := clampExponent (if down then start - e else start + e)
          .ok ((← ofParts negative digits power cs₂).widen h₂)
    else .error (.next .badNumber (c :: cs₁))

def scaled (negative : Bool) (digits : Nat) (start : Int) (cs : List Char) :
    Except Fault (Found Char (cs.length + 1) Json) :=
  match cs with
  | 'e' :: cs | 'E' :: cs => do
    .ok (← exponent negative digits start cs).lax
  | cs => ofParts negative digits start cs

/-- A number from behind its point on. Digits that do not fit are skipped. -/
def fraction (negative : Bool) (digits : Nat) (start : Int) (cs : List Char) :
    Except Fault (Found Char (cs.length + 1) Json) :=
  match digitsWithin digitLimit digits 0 cs with
  | ⟨(digits, count), cs₁, h₁⟩ =>
    if startsWithDigit cs₁ ∨ count ≠ 0 then do
      let ⟨_, cs₂, h₂⟩ := (skipDigits 0 cs₁).widen h₁
      .ok ((← scaled negative digits (start - count) cs₂).widen h₂)
    else
      match cs₁ with
      | [] => .error (.behind .endInValue [])
      | c :: cs₂ => .error (.next .badNumber (c :: cs₂))

def signedLimit : Nat := 0x8000000000000000

/-- The whole number of digits without a point or exponent. Zero keeps a sign only as a double. -/
def whole (negative : Bool) (digits : Nat) : Json :=
  if negative = false then .integer digits
  else if digits = 0 ∨ signedLimit < digits then .float (Binary64.ofNat digits).neg
  else .integer (-digits)

/-- A number from behind the digits of its whole part on. Digits that did not fit count into the
exponent. -/
def behindWhole (negative : Bool) (digits : Nat) (cs : List Char) :
    Except Fault (Found Char (cs.length + 1) Json) :=
  let ⟨skipped, cs₁, h₁⟩ := skipDigits 0 cs
  match cs₁ with
  | '.' :: cs₂ => do
    .ok ((← fraction negative digits skipped cs₂).lax.widen h₁)
  | 'e' :: cs₂ | 'E' :: cs₂ => do
    .ok ((← exponent negative digits skipped cs₂).lax.widen h₁)
  | cs₂ =>
    if skipped = 0 then .ok ⟨whole negative digits, cs₂, h₁⟩
    else do
      .ok ((← ofParts negative digits skipped cs₂).widen h₁)

/-- A number from its first digit on. A zero in front of other digits is refused. -/
def read (negative : Bool) (cs : List Char) : Except Fault (Found Char cs.length Json) :=
  match cs with
  | [] => .error (.behind .endInValue [])
  | '0' :: cs =>
    if startsWithDigit cs then .error (.next .badNumber cs) else behindWhole negative 0 cs
  | c :: cs =>
    if c.isDigit then
      match digitsWithin digitLimit (digitValue c) 1 cs with
      | ⟨(digits, _), cs₁, h₁⟩ => do
        .ok ((← behindWhole negative digits cs₁).widen h₁)
    else .error (.next .badNumber (c :: cs))

end SchemaContract.Json.Number
