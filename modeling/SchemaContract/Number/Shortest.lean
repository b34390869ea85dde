import SchemaContract.Number.Binary64

/-!
Decimal text of double-precision numbers: the fewest digits that lie nearer to the number than to
its neighbours, and of those the digits nearest to it.
-/
namespace SchemaContract

/-- A positive decimal `digits · 10 ^ exponent`. -/
structure Decimal where
  digits : Nat
  exponent : Int
deriving DecidableEq, Repr

namespace Decimal

def width (n : Nat) : Nat :=
  if n = 0 then 0 else width (n / 10) + 1
termination_by n

/-- The greatest `k` with `10 ^ k ≤ num / den`. -/
def floorLog10 (num den : Nat) : Int :=
  if den ≤ num then width (num / den) - 1 else -width ((den - 1) / num)

def strip (digits : Nat) (exponent : Int) : Decimal :=
  if digits = 0 ∨ digits % 10 ≠ 0 then ⟨digits, exponent⟩ else strip (digits / 10) (exponent + 1)
termination_by digits

end Decimal

namespace Binary64

/-- The numbers that read back as one double: those between `low` and `high`, in quarters of its
last place; the ends too when its mantissa is even. -/
structure Basin where
  low : Nat
  value : Nat
  high : Nat
  closed : Bool

def Magnitude.basin (m : Magnitude) : Basin where
  low := 4 * m.mantissa - if m.mantissa = exponentUnit ∧ -1074 < m.exponent then 1 else 2
  value := 4 * m.mantissa
  high := 4 * m.mantissa + 2
  closed := m.mantissa % 2 = 0

/-- The point of the decimal grid `10 ^ exponent` that reads back as the number, if there is one:
of the number's two neighbours on the grid the nearer, or the even one. The unit of the basin is
`unit.1 / unit.2`. -/
def Basin.onGrid (b : Basin) (unit : Nat × Nat) (exponent : Int) : Option Nat :=
  let num := if 0 ≤ exponent then unit.1 else unit.1 * Nat.pow 10 (-exponent).toNat
  let den := if 0 ≤ exponent then unit.2 * Nat.pow 10 exponent.toNat else unit.2
  let floor := b.value * num / den
  let lowOk := if b.closed then b.low * num ≤ floor * den else b.low * num < floor * den
  let highOk :=
    if b.closed then (floor + 1) * den ≤ b.high * num else (floor + 1) * den < b.high * num
  if lowOk ∧ highOk then some (roundQuotient (b.value * num) den)
  else if lowOk then some floor
  else if highOk then some (floor + 1)
  else none

/-- The shortest decimal that reads back as a positive finite number. Seventeen digits always do. -/
def shortest (x : Binary64) : Decimal :=
  let m := x.magnitude
  let unit := (Magnitude.mk 1 (m.exponent - 2)).ratio
  let top := Decimal.floorLog10 m.ratio.1 m.ratio.2
  let hit := (List.range 17).findSome? fun (k : Nat) =>
    (m.basin.onGrid unit (top - k)).map fun digits => Decimal.strip digits (top - k)
  hit.getD ⟨0, 0⟩

end Binary64

/-- How numbers are written: positional notation when the first digit stands for a power of ten
between these two, and else one digit before the point and a signed exponent. -/
structure NumberFormat where
  least : Int
  greatest : Int

/-- Numbers are positional from `0.00001` up to `10 ^ 16`. -/
def NumberFormat.json : NumberFormat := ⟨-5, 15⟩

def NumberFormat.positional (d : Decimal) : String :=
  let ds := Nat.toDigits 10 d.digits
  if 0 ≤ d.exponent then
    String.ofList (ds ++ List.replicate d.exponent.toNat '0') ++ ".0"
  else
    let places := (-d.exponent).toNat
    let padded := List.replicate (places + 1 - ds.length) '0' ++ ds
    let (whole, fraction) := padded.splitAt (padded.length - places)
    String.ofList whole ++ "." ++ String.ofList fraction

def NumberFormat.scientific (d : Decimal) (power : Int) : String :=
  let mantissa := match Nat.toDigits 10 d.digits with
    | [] => ""
    | [c] => String.ofList [c]
    | c :: cs => String.ofList (c :: '.' :: cs)
  mantissa ++ (if power < 0 then "e-" else "e+") ++ Nat.repr power.natAbs

def NumberFormat.text (f : NumberFormat) (x : Binary64) : String :=
  let sign := if x.isNegative then "-" else ""
  if x.isZero then sign ++ "0.0"
  else
    let d := x.shortest
    let power := d.exponent + Decimal.width d.digits - 1
    if f.least ≤ power ∧ power ≤ f.greatest then sign ++ NumberFormat.positional d
    else sign ++ NumberFormat.scientific d power

example : (Binary64.ofRatio false (2 ^ 52 + 3) 4).shortest = ⟨11258999068426248, -1⟩ := by
  decide +kernel
example : NumberFormat.json.text (.ofRatio true 25 10) = "-2.5" := by decide +kernel
example : NumberFormat.json.text (.ofNat (10 ^ 15)) = "1000000000000000.0" := by decide +kernel
example : NumberFormat.json.text (.ofNat (10 ^ 23)) = "1e+23" := by decide +kernel
example : NumberFormat.json.text ⟨1⟩ = "5e-324" := by decide +kernel
example : NumberFormat.json.text (.ofRatio false 1 100000) = "0.00001" := by decide +kernel
example : NumberFormat.json.text (.ofRatio false 15 10000000) = "1.5e-6" := by decide +kernel

end SchemaContract
