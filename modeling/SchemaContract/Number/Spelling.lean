import SchemaContract.Number.Binary64

/-!
Spellings of numbers: an optional minus sign and digits, of which at least one must be there, with
at most one point before, among or behind them.
-/
namespace SchemaContract.Binary64

def ofDigits (cs : List Char) : Nat :=
  cs.foldl (fun n c => 10 * n + (c.toNat - '0'.toNat)) 0

/-- Reads digits with at most one point. -/
def ofUnsignedSpelling? (negative : Bool) (cs : List Char) : Option Binary64 :=
  let whole := cs.takeWhile Char.isDigit
  let fraction := (cs.dropWhile Char.isDigit).drop 1
  if whole = [] ∧ fraction = [] then none
  else some (ofRatio negative (ofDigits (whole ++ fraction)) (Nat.pow 10 fraction.length))

def ofSpelling? : List Char → Option Binary64
  | '-' :: cs => ofUnsignedSpelling? true cs
  | cs => ofUnsignedSpelling? false cs

example : ofSpelling? ['-', '.'] = none := by decide
example : ofSpelling? ['-', '.', '5'] = some ⟨0xBFE0000000000000⟩ := by decide +kernel
example : ofSpelling? ['1', '.'] = some ⟨0x3FF0000000000000⟩ := by decide +kernel

end SchemaContract.Binary64
