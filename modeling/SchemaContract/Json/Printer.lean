import SchemaContract.Json.Value
import SchemaContract.Number.Shortest

/-!
JSON text: the compact form without any white space, and the indented form with one item or field a
line. Texts are escaped only where JSON requires it, and a number that is not finite is `null`.
-/
namespace SchemaContract.Json

/-- The escape of a character, or the character. -/
def escape (c : Char) : List Char :=
  if c = '"' then ['\\', '"']
  else if c = '\\' then ['\\', '\\']
  else if c = '\x08' then ['\\', 'b']
  else if c = '\x0c' then ['\\', 'f']
  else if c = '\n' then ['\\', 'n']
  else if c = '\r' then ['\\', 'r']
  else if c = '\t' then ['\\', 't']
  else if c.toNat < 0x20 then
    ['\\', 'u', '0', '0', Nat.digitChar (c.toNat / 16), Nat.digitChar (c.toNat % 16)]
  else [c]

def quote (s : String) : List Char :=
  '"' :: s.toList.flatMap escape ++ ['"']

def integerChars (i : Int) : List Char :=
  if i < 0 then '-' :: Nat.toDigits 10 i.natAbs else Nat.toDigits 10 i.natAbs

def floatChars (x : Binary64) : List Char :=
  if x.isFinite then (NumberFormat.json.text x).toList else ['n', 'u', 'l', 'l']

def booleanChars : Bool → List Char
  | true => ['t', 'r', 'u', 'e']
  | false => ['f', 'a', 'l', 's', 'e']

mutual

def compactChars : Json → List Char
  | .null => ['n', 'u', 'l', 'l']
  | .boolean b => booleanChars b
  | .integer i => integerChars i
  | .float x => floatChars x
  | .text s => quote s
  | .list [] => ['[', ']']
  | .list (item :: items) => '[' :: compactChars item ++ compactItems items
  | .record [] => ['{', '}']
  | .record (field :: fields) => '{' :: compactField field ++ compactFields fields

/-- The items behind the first, and the closing bracket. -/
def compactItems : List Json → List Char
  | [] => [']']
  | item :: items => ',' :: compactChars item ++ compactItems items

def compactField : Field → List Char
  | ⟨key, value⟩ => quote key ++ ':' :: compactChars value

def compactFields : List Field → List Char
  | [] => ['}']
  | field :: fields => ',' :: compactField field ++ compactFields fields

end

def compact (j : Json) : String :=
  String.ofList j.compactChars

/-- The start of a line at a depth: two blanks a level. -/
def newLine (depth : Nat) : List Char :=
  '\n' :: List.replicate (2 * depth) ' '

mutual

/-- The indented form of a value whose closing bracket stands at `depth`. -/
def prettyChars (depth : Nat) : Json → List Char
  | .null => ['n', 'u', 'l', 'l']
  | .boolean b => booleanChars b
  | .integer i => integerChars i
  | .float x => floatChars x
  | .text s => quote s
  | .list [] => ['[', ']']
  | .list (item :: items) =>
    '[' :: newLine (depth + 1) ++ prettyChars (depth + 1) item ++ prettyItems depth items
  | .record [] => ['{', '}']
  | .record (field :: fields) =>
    '{' :: newLine (depth + 1) ++ prettyField (depth + 1) field ++ prettyFields depth fields

def prettyItems (depth : Nat) : List Json → List Char
  | [] => newLine depth ++ [']']
  | item :: items =>
    ',' :: newLine (depth + 1) ++ prettyChars (depth + 1) item ++ prettyItems depth items

def prettyField (depth : Nat) : Field → List Char
  | ⟨key, value⟩ => quote key ++ ':' :: ' ' :: prettyChars depth value

def prettyFields (depth : Nat) : List Field → List Char
  | [] => newLine depth ++ ['}']
  | field :: fields =>
    ',' :: newLine (depth + 1) ++ prettyField (depth + 1) field ++ prettyFields depth fields

end

def pretty (j : Json) : String :=
  String.ofList (j.prettyChars 0)

end SchemaContract.Json
