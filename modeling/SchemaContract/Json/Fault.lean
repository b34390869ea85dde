import SchemaContract.Text.Utf8

/-!
What can be wrong with JSON text, and where. The place of a fault is a count of bytes from the start
of the text; it is told as a line, counted from one, and the bytes behind that line's start.
-/
namespace SchemaContract.Json

inductive Problem where
  | endInValue | endInList | endInRecord | endInText
  | noValue | noWord | noComma | noCommaInRecord | noColon | noKey
  | trailingComma | trailingText
  | tooDeep
  | badNumber | outOfRange
  | controlCharacter | badEscape | loneSurrogate | endOfEscape
deriving DecidableEq, Repr

def Problem.text : Problem → String
  | endInValue => "EOF while parsing a value"
  | endInList => "EOF while parsing a list"
  | endInRecord => "EOF while parsing an object"
  | endInText => "EOF while parsing a string"
  | noValue => "expected value"
  | noWord => "expected ident"
  | noComma => "expected `,` or `]`"
  | noCommaInRecord => "expected `,` or `\x7d`"
  | noColon => "expected `:`"
  | noKey => "key must be a string"
  | trailingComma => "trailing comma"
  | trailingText => "trailing characters"
  | tooDeep => "recursion limit exceeded"
  | badNumber => "invalid number"
  | outOfRange => "number out of range"
  | controlCharacter => "control character (\\u0000-\\u001F) found while parsing a string"
  | badEscape => "invalid escape"
  | loneSurrogate => "lone leading surrogate in hex escape"
  | endOfEscape => "unexpected end of hex escape"

/-- A problem found in front of `rest`, whose first `seen` bytes belong to it. -/
structure Fault where
  problem : Problem
  rest : List Char
  seen : Nat

/-- A problem with the character that comes next, or with the end of the text. -/
def Fault.next (problem : Problem) (rest : List Char) : Fault := ⟨problem, rest, 1⟩

def Fault.behind (problem : Problem) (rest : List Char) : Fault := ⟨problem, rest, 0⟩

/-- A line, and the bytes behind its start. -/
structure Place where
  line : Nat
  column : Nat
deriving DecidableEq, Repr

def Place.walk (p : Place) : List Char → Nat → Place
  | [], _ => p
  | c :: cs, count =>
    if count = 0 then p
    else if c = '\n' then Place.walk ⟨p.line + 1, 0⟩ cs (count - 1)
    else Place.walk ⟨p.line, p.column + min count c.utf8Size⟩ cs (count - c.utf8Size)

def Fault.place (text : List Char) (f : Fault) : Place :=
  let left := Text.byteLength f.rest
  Place.walk ⟨1, 0⟩ text (Text.byteLength text - left + min f.seen left)

def Fault.message (text : List Char) (f : Fault) : String :=
  let p := f.place text
  "json error: " ++ f.problem.text ++ " at line " ++ Nat.repr p.line ++ " column " ++
    Nat.repr p.column

end SchemaContract.Json
