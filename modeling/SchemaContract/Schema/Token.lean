import SchemaContract.Number.Binary64

/-!
Tokens: numbers, texts, truth values, names and punctuation marks, each with the byte offset at
which it begins. The end of the text is no token; a list of tokens just ends.
-/
namespace SchemaContract

inductive Mark where
  | leftBrace | rightBrace | leftParen | rightParen | leftBracket | rightBracket
  | less | greater | semicolon | colon | comma | dot | ellipsis
  | pipe | ampersand | atSign | hash | question | equals
deriving DecidableEq, Repr

namespace Mark

def spelling : Mark → List Char
  | leftBrace => ['{']
  | rightBrace => ['}']
  | leftParen => ['(']
  | rightParen => [')']
  | leftBracket => ['[']
  | rightBracket => [']']
  | less => ['<']
  | greater => ['>']
  | semicolon => [';']
  | colon => [':']
  | comma => [',']
  | dot => ['.']
  | ellipsis => ['.', '.', '.']
  | pipe => ['|']
  | ampersand => ['&']
  | atSign => ['@']
  | hash => ['#']
  | question => ['?']
  | equals => ['=']

def name : Mark → String
  | leftBrace => "LBrace"
  | rightBrace => "RBrace"
  | leftParen => "LParen"
  | rightParen => "RParen"
  | leftBracket => "LBracket"
  | rightBracket => "RBracket"
  | less => "Lt"
  | greater => "Gt"
  | semicolon => "Semicolon"
  | colon => "Colon"
  | comma => "Comma"
  | dot => "Dot"
  | ellipsis => "Ellipsis"
  | pipe => "Pipe"
  | ampersand => "Amp"
  | atSign => "At"
  | hash => "Hash"
  | question => "Question"
  | equals => "Equals"

/-- The mark that is spelled by one character. A dot may begin an ellipsis and is not among them. -/
def ofChar? : Char → Option Mark
  | '{' => some leftBrace
  | '}' => some rightBrace
  | '(' => some leftParen
  | ')' => some rightParen
  | '[' => some leftBracket
  | ']' => some rightBracket
  | '<' => some less
  | '>' => some greater
  | ';' => some semicolon
  | ':' => some colon
  | ',' => some comma
  | '|' => some pipe
  | '&' => some ampersand
  | '@' => some atSign
  | '#' => some hash
  | '?' => some question
  | '=' => some equals
  | _ => none

theorem spelling_of_ofChar? {c : Char} {m : Mark} (h : ofChar? c = some m) : m.spelling = [c] := by
  unfold ofChar? at h
  split at h <;> cases h <;> rfl

end Mark

inductive Token.Kind where
  | number (value : Binary64)
  | text (value : String)
  | truth (value : Bool)
  | name (name : String)
  | mark (mark : Mark)
deriving DecidableEq, Repr

structure Token where
  kind : Token.Kind
  offset : Nat
deriving DecidableEq, Repr

/-- The tokens of a text, and its length in bytes. -/
structure Tokens where
  list : List Token
  stop : Nat
deriving DecidableEq, Repr

/-- The offset of the first of the tokens that are left, or the end of the text. -/
def Tokens.offsetOf (stop : Nat) : List Token → Nat
  | [] => stop
  | t :: _ => t.offset

end SchemaContract
