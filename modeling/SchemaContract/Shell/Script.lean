import SchemaContract.Shell.Chars

/-!
Scripts of the command language as trees: words, which keep what is to be put in for parameters and
commands, redirections, and commands.
-/
namespace SchemaContract.Shell

inductive Parameter where
  | variable (name : Chars)
  | position (n : Nat)
  | all
  | joined
  | count
  | status
  | options
  | process
  | background
deriving DecidableEq, Repr

/-- What happens when a parameter is not set. An alternative is used when it is. -/
inductive Fallback where
  | default
  | assigned
  | required
  | alternative
deriving DecidableEq, Repr

structure Trimming where
  front : Bool
  longest : Bool
deriving DecidableEq, Repr

/-- A part of a word. Quoted characters stand for themselves, and quotes make a word of nothing. -/
inductive Part where
  | char (c : Char) (quoted : Bool)
  | quotes
  | parameter (p : Parameter) (quoted : Bool)
  | size (p : Parameter) (quoted : Bool)
  | fallback (p : Parameter) (kind : Fallback) (emptyToo : Bool) (word : List Part)
    (quoted : Bool)
  | trimmed (p : Parameter) (kind : Trimming) (pattern : List Part) (quoted : Bool)
  | output (line : Nat) (script : Chars) (quoted : Bool)
  | arithmetic (expression : List Part) (quoted : Bool)
  | faulty

abbrev Word := List Part

inductive Access where
  | reading
  | writing
  | appending
  | changing
deriving DecidableEq, Repr

inductive Target where
  | file (access : Access) (name : Word)
  | copy (descriptor : Word)
  /-- A text in the script, which is kept apart from it. -/
  | document (number : Nat)

structure Redirection where
  descriptor : Nat
  target : Target

structure Assignment where
  name : Chars
  value : Word

inductive Command where
  | nothing
  | simple (line : Nat) (assignments : List Assignment) (words : List Word)
    (redirections : List Redirection)
  | redirected (line : Nat) (body : Command) (redirections : List Redirection)
  | sequence (first second : Command)
  | both (first second : Command)
  | either (first second : Command)
  | negation (body : Command)
  | pipeline (first second : Command)
  | background (body : Command)
  | subshell (body : Command)
  | choice (condition positive negative : Command)
  /-- Repeats a body as long as a condition succeeds, or as long as it fails. -/
  | loop (succeeding : Bool) (condition body : Command)
  /-- Goes through words, or through the arguments. -/
  | each (line : Nat) (name : Chars) (words? : Option (List Word)) (body : Command)
  | select (line : Nat) (word : Word) (branches : List (List Word × Command))
  | define (name : Chars) (body : Command)

def plain? : Word → Option Chars
  | [] => some []
  | .char c false :: parts => (plain? parts).map (c :: ·)
  | _ => none

def isQuoted (word : Word) : Bool :=
  word.any fun
    | .char _ quoted => quoted
    | .quotes => true
    | _ => false

def isNameHead (c : Char) : Bool := c.isAlpha || c == '_'

def isNamePart (c : Char) : Bool := c.isAlphanum || c == '_'

def isVariableName : Chars → Bool
  | [] => false
  | c :: cs => isNameHead c && cs.all isNamePart

end SchemaContract.Shell
