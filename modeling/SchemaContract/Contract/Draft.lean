import SchemaContract.Contract.Clause

/-!
Drafts: declarations on their way to contracts. A draft may collect clauses and may refuse a
feature that contracts do not have.
-/
namespace SchemaContract

/-- A feature that is refused: the key it is found at, and the declaration that owns it. -/
inductive Refusal where
  | optionalProperty (key owner : String)
  | defaultValue (key owner : String)
  | customValue (key owner : String)
deriving DecidableEq, Repr

def Refusal.feature : Refusal → String
  | optionalProperty key owner => "optional property '" ++ key ++ "' in '" ++ owner ++ "'"
  | defaultValue key owner => "default value on property '" ++ key ++ "' in '" ++ owner ++ "'"
  | customValue key owner => "custom value on enum member '" ++ key ++ "' in '" ++ owner ++ "'"

def Refusal.message (r : Refusal) : String := "unsupported feature: " ++ r.feature

/-- Work that may refuse, over the buffer of clauses, which it leaves in either case. -/
abbrev Draft (α : Type) := ExceptT Refusal (StateM ClauseBuffer) α

def Draft.from {α : Type} (d : Draft α) (b : ClauseBuffer) : Except Refusal α × ClauseBuffer :=
  d.run.run b

def Draft.reset : Draft Unit := modify ClauseBuffer.reset

def Draft.drain : Draft (List String) := modifyGet ClauseBuffer.drain

/-- Begins with an empty buffer, and leaves one where it refuses. -/
def Draft.separately {α : Type} (d : Draft α) : Draft α := do
  Draft.reset
  tryCatch d fun refusal => do
    Draft.reset
    throw refusal

end SchemaContract
