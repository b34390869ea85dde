/-!
Double-precision numbers: sign, exponent and fraction in 64 bits, and rounding of exact quotients to
the nearest of them. All arithmetic is on natural numbers, so it can be reasoned about.
-/
namespace SchemaContract

/-- The quotient rounded to a natural number, a half to the even neighbour. -/
def roundQuotient (num den : Nat) : Nat :=
  let q := num / den
  let r := num % den
  if 2 * r < den then q
  else if den < 2 * r then q + 1
  else q + q % 2

structure Binary64 where
  bits : UInt64
deriving DecidableEq, Repr

namespace Binary64

/-- A magnitude `mantissa · 2 ^ exponent`. -/
structure Magnitude where
  mantissa : Nat
  exponent : Int
deriving DecidableEq, Repr

def signUnit : Nat := 0x8000000000000000

/-- The weight of the exponent's last bit. Fractions are below it. -/
def exponentUnit : Nat := 0x10000000000000

def isNegative (x : Binary64) : Bool :=
  signUnit ≤ x.bits.toNat

def unsigned (x : Binary64) : Nat :=
  x.bits.toNat % signUnit

/-- The unsigned bits of infinity; what lies above is not a number. -/
def infinity : Nat := 0x7FF * exponentUnit

def isFinite (x : Binary64) : Bool :=
  x.unsigned < infinity

def isZero (x : Binary64) : Bool :=
  x.unsigned == 0

def ofUnsigned (negative : Bool) (n : Nat) : Binary64 :=
  ⟨.ofNat (if negative then signUnit + n else n)⟩

/-- The magnitude of a finite number. Below the least normal number the exponent stays. -/
def magnitude (x : Binary64) : Magnitude :=
  let e : Nat := x.unsigned / exponentUnit
  let f : Nat := x.unsigned % exponentUnit
  if e = 0 then ⟨f, -1074⟩ else ⟨exponentUnit + f, (e : Int) - 1075⟩

/-- The greatest `k` with `2 ^ k ≤ num / den`. -/
def floorLog2 (num den : Nat) : Int :=
  let k : Int := (num.log2 : Int) - den.log2
  let reached :=
    if 0 ≤ k then den * Nat.pow 2 k.toNat ≤ num else den ≤ num * Nat.pow 2 (-k).toNat
  if reached then k else k - 1

def lastPlace (num den : Nat) : Int :=
  max (floorLog2 num den - 52) (-1074)

/-- The number nearest to `num / den`, of two the one with an even last bit; infinity when that lies
above all finite numbers. -/
def ofRatio (negative : Bool) (num den : Nat) : Binary64 :=
  if num = 0 then ofUnsigned negative 0
  else
    let place := lastPlace num den
    let mantissa :=
      if 0 ≤ place then roundQuotient num (den * Nat.pow 2 place.toNat)
      else roundQuotient (num * Nat.pow 2 (-place).toNat) den
    ofUnsigned negative (min infinity ((place + 1074).toNat * exponentUnit + mantissa))

def ofNat (n : Nat) : Binary64 := ofRatio false n 1

def Magnitude.ratio (m : Magnitude) : Nat × Nat :=
  if 0 ≤ m.exponent then (m.mantissa * Nat.pow 2 m.exponent.toNat, 1)
  else (m.mantissa, Nat.pow 2 (-m.exponent).toNat)

/-- The product of two positive finite numbers, rounded. -/
def times (x y : Binary64) : Binary64 :=
  let (a, b) := x.magnitude.ratio
  let (c, d) := y.magnitude.ratio
  ofRatio false (a * c) (b * d)

def dividedBy (x y : Binary64) : Binary64 :=
  let (a, b) := x.magnitude.ratio
  let (c, d) := y.magnitude.ratio
  ofRatio false (a * d) (b * c)

def neg (x : Binary64) : Binary64 :=
  ofUnsigned (!x.isNegative) x.unsigned

example : (ofRatio false 1 10).bits = 0x3FB999999999999A := by decide +kernel
example : (ofRatio true 0 1).bits = 0x8000000000000000 := by decide +kernel
example : (ofRatio false (10 ^ 309) 1).unsigned = infinity := by decide +kernel
example : (ofRatio false 5 (10 ^ 324)).bits = 1 := by decide +kernel
example : (ofRatio false (2 ^ 53 - 1) (2 ^ 1075)).magnitude = ⟨exponentUnit, -1074⟩ := by
  decide +kernel

end Binary64
end SchemaContract
