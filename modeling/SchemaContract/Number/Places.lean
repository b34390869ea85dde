import SchemaContract.Number.Binary64

/-!
Decimal texts of finite double-precision numbers with a stated number of places, rounded from the
exact value, and the reading of decimal texts with exponents. Signs are left to whoever writes them.
-/
namespace SchemaContract.Binary64

def paddedDigits (least n : Nat) : List Char :=
  let digits := Nat.toDigits 10 n
  List.replicate (least - digits.length) '0' ++ digits

def withPoint (places : Nat) (digits : List Char) : List Char :=
  if places = 0 then digits
  else
    digits.take (digits.length - places) ++ '.' :: digits.drop (digits.length - places)

def fixedPlaces (x : Binary64) (places : Nat) : List Char :=
  let (num, den) := x.magnitude.ratio
  withPoint places (paddedDigits (places + 1) (roundQuotient (num * Nat.pow 10 places) den))

/-- How many places the first digit of `num / den` lies behind the point, none for at least one. -/
def leadingZeros : Nat → Nat → Nat → Nat
  | 0, _, _ => 0
  | fuel + 1, num, den => if den ≤ num then 0 else leadingZeros fuel (num * 10) den + 1

def decimalExponent (num den : Nat) : Int :=
  if den ≤ num then (Nat.toDigits 10 (num / den)).length - 1
  else -(leadingZeros den.log2.succ num den : Int)

/-- A first digit with so many behind the point, as one number, and its exponent. -/
def scientificDigits (x : Binary64) (places : Nat) : Nat × Int :=
  let (num, den) := x.magnitude.ratio
  if num = 0 then (0, 0)
  else
    let e := decimalExponent num den
    let shift : Int := (places : Int) - e
    let n :=
      if 0 ≤ shift then roundQuotient (num * Nat.pow 10 shift.toNat) den
      else roundQuotient num (den * Nat.pow 10 (-shift).toNat)
    if Nat.pow 10 (places + 1) ≤ n then (n / 10, e + 1) else (n, e)

/-- An exponent of at least two digits with its sign. -/
def exponentText (e : Int) : List Char :=
  (if e < 0 then '-' else '+') :: paddedDigits 2 e.natAbs

def scientific (x : Binary64) (places : Nat) : List Char :=
  let (n, e) := x.scientificDigits places
  withPoint places (paddedDigits (places + 1) n) ++ 'e' :: exponentText e

def withoutZeros (cs : List Char) : List Char :=
  if cs.contains '.' then
    match cs.reverse.dropWhile (· = '0') with
    | '.' :: rest => rest.reverse
    | rest => rest.reverse
  else cs

/-- So many digits, in whichever of the two forms is the shorter. -/
def general (x : Binary64) (digits : Nat) : List Char :=
  let digits := max digits 1
  let (n, e) := x.scientificDigits (digits - 1)
  if e < -4 ∨ (digits : Int) ≤ e then
    withoutZeros (withPoint (digits - 1) (paddedDigits digits n)) ++ 'e' :: exponentText e
  else withoutZeros (x.fixedPlaces ((digits : Int) - 1 - e).toNat)

def digitsValue (cs : List Char) : Nat :=
  cs.foldl (fun n c => 10 * n + (c.toNat - '0'.toNat)) 0

def takeExponent (cs : List Char) : Int × List Char :=
  let signed (negative : Bool) (rest : List Char) : Int × List Char :=
    let digits := rest.takeWhile Char.isDigit
    if digits = [] then (0, cs)
    else
      let e : Int := min (digitsValue digits) 400
      (if negative then -e else e, rest.drop digits.length)
  match cs with
  | e :: '-' :: rest => if e = 'e' ∨ e = 'E' then signed true rest else (0, cs)
  | e :: '+' :: rest => if e = 'e' ∨ e = 'E' then signed false rest else (0, cs)
  | e :: rest => if e = 'e' ∨ e = 'E' then signed false rest else (0, cs)
  | [] => (0, cs)

def takeDecimal? (negative : Bool) (cs : List Char) : Option (Binary64 × List Char) :=
  let whole := cs.takeWhile Char.isDigit
  let behind := cs.drop whole.length
  let fraction := if behind.head? = some '.' then (behind.drop 1).takeWhile Char.isDigit else []
  if whole = [] ∧ fraction = [] then none
  else
    let rest := if behind.head? = some '.' then behind.drop (fraction.length + 1) else behind
    let (e, rest) := takeExponent rest
    let n := digitsValue (whole ++ fraction)
    let shift := e - fraction.length
    let x :=
      if 0 ≤ shift then ofRatio negative (n * Nat.pow 10 shift.toNat) 1
      else ofRatio negative n (Nat.pow 10 (-shift).toNat)
    some (x, rest)

example : (ofRatio false 314159 100000).fixedPlaces 2 = ['3', '.', '1', '4'] := by
  decide +kernel
example : (ofRatio false 12345 10).scientific 1 = ['1', '.', '2', 'e', '+', '0', '3'] := by
  decide +kernel

end SchemaContract.Binary64
