import SchemaContract.Contract.Declaration

/-!
Contracts of programs: the texts of the statements under the head of a module. A policy says what
becomes of a declaration that is refused.
-/
namespace SchemaContract

/-- What becomes of a declaration that is refused: it ends the work, or leaves a note. -/
inductive Policy where
  | abort
  | placeholder
deriving DecidableEq, Repr

def moduleHead : String := "namespace Main;"

def Refusal.note (r : Refusal) : String := "[Unsupported: " ++ r.feature ++ "]"

def Statement.fragment (policy : Policy) (s : Statement) : Draft String :=
  match policy with
  | .abort => s.draft
  | .placeholder => tryCatch s.draft fun refusal => return refusal.note

def Statement.fragments (policy : Policy) : List Statement → Draft (List String)
  | [] => return []
  | s :: ss => do
    let first ← s.fragment policy
    let others ← Statement.fragments policy ss
    return first :: others

/-- The module of the fragments. Empty ones are left out. -/
def moduleText (fragments : List String) : String :=
  moduleHead ++ "\n\n" ++ joinBlocks (fragments.filter (· ≠ ""))

def Program.draft (policy : Policy) (p : Program) : Draft String := do
  return moduleText (← Statement.fragments policy p.statements)

def Program.contract (policy : Policy) (p : Program) : Except Refusal String :=
  ((p.draft policy).from .empty).1

end SchemaContract
