import SchemaContract.Text.Utf8

/-!
What scripts are cut up into: characters that stand for one byte each, so that bytes which are no
text pass through a script as they are.
-/
namespace SchemaContract.Shell

/-- Characters that stand for one byte each. -/
abbrev Chars := List Char

namespace Chars

def ofBytes (bytes : List UInt8) : Chars := bytes.map fun b => .ofNat b.toNat

def bytes (cs : Chars) : List UInt8 := cs.map fun c => .ofNat c.toNat

def ofText (text : String) : Chars := ofBytes (Text.bytes text)

def text (cs : Chars) : String := Text.ofBytesLossy cs.bytes

def ofNat (n : Nat) : Chars := (Nat.repr n).toList

def ofInt (i : Int) : Chars := if i < 0 then '-' :: ofNat i.natAbs else ofNat i.natAbs

def join (separator : Chars) : List Chars → Chars
  | [] => []
  | [cs] => cs
  | cs :: others => cs ++ separator ++ join separator others

def split (separator : Char) : Chars → List Chars
  | [] => [[]]
  | c :: cs =>
    if c = separator then [] :: split separator cs
    else
      match split separator cs with
      | [] => [[c]]
      | part :: parts => (c :: part) :: parts

/-- The lines of a text, each with the newline at its end if there is one. -/
def lines : Chars → List Chars
  | [] => []
  | c :: cs =>
    if c = '\n' then [c] :: lines cs
    else
      match lines cs with
      | [] => [[c]]
      | line :: others => (c :: line) :: others

def withoutNewline (line : Chars) : Chars :=
  if line.getLast? = some '\n' then line.dropLast else line

def withoutLast (p : Char → Bool) (cs : Chars) : Chars := (cs.reverse.dropWhile p).reverse

/-- The order of texts by their bytes. -/
def isAtMost : Chars → Chars → Bool
  | [], _ => true
  | _ :: _, [] => false
  | a :: as, b :: bs => if a = b then isAtMost as bs else a.toNat < b.toNat

end Chars
end SchemaContract.Shell
