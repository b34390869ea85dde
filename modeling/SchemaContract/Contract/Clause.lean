import SchemaContract.Schema.Tree

/-!
Clauses: the conditions that decorators state, and the buffer that collects those of the patterns of
one declaration.
-/
namespace SchemaContract

def patternClause (pattern name : String) : String :=
  pattern ++ ".accepts($" ++ name ++ ");"

/-- The text that a decorator with this target is given as its first argument. -/
def Decorator.textArgument? (target : String) (d : Decorator) : Option String :=
  if d.target = target then
    match d.arguments with
    | .text text :: _ => some text
    | _ => none
  else none

/-- The texts given to the decorators with this target. -/
def Decorator.textArguments (target : String) (ds : List Decorator) : List String :=
  ds.filterMap (textArgument? target)

def Decorator.clauses (target : String) (ds : List Decorator) : List String :=
  (textArguments target ds).map (· ++ ";")

/-- The clauses collected so far, in order. -/
structure ClauseBuffer where
  clauses : List String
deriving DecidableEq, Repr

namespace ClauseBuffer

def empty : ClauseBuffer := ⟨[]⟩

def push (b : ClauseBuffer) (clause : String) : ClauseBuffer := ⟨b.clauses ++ [clause]⟩

def reset (_ : ClauseBuffer) : ClauseBuffer := empty

def drain (b : ClauseBuffer) : List String × ClauseBuffer := (b.clauses, empty)

def size (b : ClauseBuffer) : Nat := b.clauses.length

def isEmpty (b : ClauseBuffer) : Bool := b.clauses.isEmpty

@[simp] theorem clauses_empty : empty.clauses = [] := rfl

@[simp] theorem clauses_push (b : ClauseBuffer) (clause : String) :
    (b.push clause).clauses = b.clauses ++ [clause] := rfl

theorem isEmpty_iff (b : ClauseBuffer) : b.isEmpty = true ↔ b.size = 0 := by
  simp [isEmpty, size]

@[simp] theorem reset_eq (b : ClauseBuffer) : b.reset = empty := rfl

@[simp] theorem drain_eq (b : ClauseBuffer) : b.drain = (b.clauses, empty) := rfl

end ClauseBuffer

/-- A place that is given a type: its name, and the decorators that may state patterns for it. -/
structure Slot where
  decorators : List Decorator
  name : String

def Slot.patternClauses (slot : Slot) : List String :=
  (Decorator.textArguments "pattern" slot.decorators).map fun pattern =>
    patternClause pattern slot.name

end SchemaContract
