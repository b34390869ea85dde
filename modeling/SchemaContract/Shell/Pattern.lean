import SchemaContract.Shell.Chars

/-!
Patterns of file names and of texts: stars, question marks and brackets. Quoted characters have no
special meaning in them.
-/
namespace SchemaContract.Shell

structure Letter where
  char : Char
  quoted : Bool
deriving DecidableEq, Repr

/-- A class of characters: those in some ranges, or those in none of them. -/
structure CharClass where
  negated : Bool
  ranges : List (Char × Char)
deriving DecidableEq, Repr

def CharClass.contains (k : CharClass) (c : Char) : Bool :=
  (k.ranges.any fun (low, high) => low ≤ c && c ≤ high) != k.negated

def namedRanges : List (String × List (Char × Char)) :=
  [("alpha", [('a', 'z'), ('A', 'Z')]), ("digit", [('0', '9')]),
    ("alnum", [('a', 'z'), ('A', 'Z'), ('0', '9')]), ("upper", [('A', 'Z')]),
    ("lower", [('a', 'z')]), ("space", [('\t', '\r'), (' ', ' ')]),
    ("blank", [('\t', '\t'), (' ', ' ')]),
    ("punct", [('!', '/'), (':', '@'), ('[', '\x60'), ('\x7b', '~')]),
    ("print", [(' ', '~')]), ("graph", [('!', '~')]),
    ("cntrl", [('\x00', '\x1f'), ('\x7f', '\x7f')]),
    ("xdigit", [('0', '9'), ('a', 'f'), ('A', 'F')])]

/-- A named class at the front of a text, from behind its first bracket on, and what follows it. -/
def takeNamed (cs : Chars) : Option (List (Char × Char) × Nat) :=
  match cs with
  | ':' :: cs =>
    let name := cs.takeWhile Char.isAlpha
    if [':', ']'].isPrefixOf (cs.drop name.length) then
      (namedRanges.lookup (String.ofList name)).map fun ranges => (ranges, name.length + 3)
    else none
  | _ => none

/-- The ranges up to the bracket that closes a class, and how many characters they take. The bracket
is a member when it comes first. -/
def takeRanges : Nat → (first : Bool) → Chars → Option (List (Char × Char) × Nat)
  | 0, _, _ => none
  | _ + 1, _, [] => none
  | fuel + 1, first, c :: cs =>
    if c = ']' ∧ first = false then some ([], 1)
    else
      match (if c = '[' then takeNamed cs else none) with
      | some (ranges, n) =>
        (takeRanges fuel false (cs.drop n)).map fun (others, m) => (ranges ++ others, m + n + 1)
      | none =>
        match cs with
        | '-' :: d :: ds =>
          if d = ']' then
            (takeRanges fuel false cs).map fun (others, m) => ((c, c) :: others, m + 1)
          else (takeRanges fuel false ds).map fun (others, m) => ((c, d) :: others, m + 3)
        | _ => (takeRanges fuel false cs).map fun (others, m) => ((c, c) :: others, m + 1)

def takeClass (cs : Chars) : Option (CharClass × Nat) :=
  match cs with
  | c :: rest =>
    if c = '!' ∨ c = '^' then
      (takeRanges (cs.length + 1) true rest).map fun (ranges, n) => (⟨true, ranges⟩, n + 1)
    else (takeRanges (cs.length + 1) true cs).map fun (ranges, n) => (⟨false, ranges⟩, n)
  | [] => none

inductive PatternItem where
  | char (c : Char)
  | any
  | run
  | oneOf (k : CharClass)
deriving DecidableEq, Repr

abbrev Pattern := List PatternItem

namespace Pattern

/-- The pattern that letters spell. A bracket that is not closed stands for itself. -/
def ofLetters : Nat → List Letter → Pattern
  | 0, _ => []
  | _ + 1, [] => []
  | fuel + 1, letter :: letters =>
    if letter.quoted then .char letter.char :: ofLetters fuel letters
    else if letter.char = '*' then .run :: ofLetters fuel letters
    else if letter.char = '?' then .any :: ofLetters fuel letters
    else if letter.char = '[' then
      match takeClass (letters.map Letter.char) with
      | some (k, n) => .oneOf k :: ofLetters fuel (letters.drop n)
      | none => .char '[' :: ofLetters fuel letters
    else .char letter.char :: ofLetters fuel letters

def ofWord (letters : List Letter) : Pattern := ofLetters letters.length letters

def suffixes {α : Type} : List α → List (List α)
  | [] => [[]]
  | x :: xs => (x :: xs) :: suffixes xs

def isMatch : Pattern → Chars → Bool
  | [], cs => cs.isEmpty
  | .char c :: items, d :: cs => c == d && isMatch items cs
  | .any :: items, _ :: cs => isMatch items cs
  | .oneOf k :: items, c :: cs => k.contains c && isMatch items cs
  | .run :: items, cs => (suffixes cs).any (isMatch items)
  | _, _ => false

/-- How many characters of a text, from its front on, are cut off: none if no first part fits. -/
def frontLength (items : Pattern) (longest : Bool) (cs : Chars) : Nat :=
  let lengths := (List.range (cs.length + 1)).filter fun n => isMatch items (cs.take n)
  ((if longest then lengths.getLast? else lengths.head?)).getD 0

/-- Where the last part of a text that is cut off begins: at the end if none fits. -/
def backStart (items : Pattern) (longest : Bool) (cs : Chars) : Nat :=
  let starts := (List.range (cs.length + 1)).filter fun n => isMatch items (cs.drop n)
  ((if longest then starts.head? else starts.getLast?)).getD cs.length

end Pattern

def hasPattern (letters : List Letter) : Bool :=
  letters.any fun l => !l.quoted && (l.char == '*' || l.char == '?' || l.char == '[')

example : Pattern.isMatch (.ofWord ("a*[!x-z]".toList.map fun c => ⟨c, false⟩)) "abcd".toList := by
  cbv

end SchemaContract.Shell
