import SchemaContract.Contract.Draft
import SchemaContract.Contract.Layout
import SchemaContract.Contract.TypeText

/-!
Drafts of the declarations: models become entities or names of types, enumerations become blocks of
cases, operations become entrypoints.
-/
namespace SchemaContract

/-- The type of a property, whose patterns are collected. Only a property that is always there, and
without a default, has one. -/
def Property.draft (owner : String) (p : Property) : Draft String := do
  if p.optional then throw (.optionalProperty p.key.text owner)
  if p.default?.isSome then throw (.defaultValue p.key.text owner)
  p.type.typeText (some ⟨p.decorators, p.key.text⟩)

def spreadPlaceholder : String := placeholder "ModelSpreadPropertyNode"

/-- The members, each written by `write` from its name and type unless it is a spread. -/
def Member.draftList (owner : String) (write : String → String → String) :
    List Member → Draft (List String)
  | [] => return []
  | .property p :: members => do
    let type ← p.draft owner
    let others ← Member.draftList owner write members
    return write p.key.text type :: others
  | .spread _ :: members => do
    let others ← Member.draftList owner write members
    return spreadPlaceholder :: others

def Entity.field (name type : String) : String := "field " ++ name ++ ": " ++ type ++ ";"

def Entrypoint.parameter (name type : String) : String := name ++ ": " ++ type

/-- A model with members. Its own invariants come before the clauses of its properties. -/
def Model.entity (m : Model) : Draft Entity := do
  let entries ← Member.draftList m.name Entity.field m.members
  let patterns ← Draft.drain
  return ⟨m.name, entries, Decorator.clauses "invariant" m.decorators ++ patterns⟩

/-- The name of the target of a model. Dotted names are never primitive. -/
def Model.abbreviation (name : String) (target : Expression) : StateM ClauseBuffer Abbreviation :=
  match target.path? with
  | some path =>
    match Primitive.target? path with
    | some primitive => return .declared name primitive
    | none => return .defined name path
  | none => do return .defined name (← target.typeText none)

def Model.draft (m : Model) : Draft String :=
  match m.target? with
  | some target => do return (← Model.abbreviation m.name target).text
  | none => do return (← Draft.separately m.entity).text

def Case.draft (owner : String) : Case → Except Refusal String
  | .plain key (some _) _ => .error (.customValue key.text owner)
  | .plain key none _ => .ok key.text
  | .spread _ => .ok (placeholder "EnumSpreadMemberNode")

def Case.draftList (owner : String) : List Case → Except Refusal (List String)
  | [] => .ok []
  | c :: cs => do
    let first ← c.draft owner
    let others ← Case.draftList owner cs
    .ok (first :: others)

def Enumeration.caseBlock (e : Enumeration) : Except Refusal CaseBlock := do
  .ok ⟨e.name, ← Case.draftList e.name e.cases⟩

def Enumeration.draft (e : Enumeration) : Draft String := do
  return (← e.caseBlock).text

/-- An operation. Patterns of parameters are preconditions, patterns of its own are postconditions
on what it returns; the conditions that are stated in full come before them. -/
def Operation.entrypoint (o : Operation) : Draft Entrypoint := do
  let parameters ← Member.draftList o.name Entrypoint.parameter o.parameters
  let parameterPatterns ← Draft.drain
  Draft.reset
  let result ← o.result.typeText (some ⟨o.decorators, "return"⟩)
  let resultPatterns ← Draft.drain
  return {
    name := o.name
    parameters
    result
    preconditions := Decorator.clauses "requires" o.decorators ++ parameterPatterns
    postconditions := Decorator.clauses "ensures" o.decorators ++ resultPatterns }

def Operation.draft (o : Operation) : Draft String := do
  return (← Draft.separately o.entrypoint).text

def Operation.draftList : List Operation → Draft (List String)
  | [] => return []
  | o :: os => do
    let first ← o.draft
    let others ← Operation.draftList os
    return first :: others

def Interface.draft (i : Interface) : Draft String := do
  return joinBlocks (← Operation.draftList i.operations)

/-- A statement. Those that contracts have nothing for leave the name of their kind. -/
def Statement.draft : Statement → Draft String
  | .model m => m.draft
  | .enumeration e => e.draft
  | .interface i => i.draft
  | s => return placeholder s.kindName

end SchemaContract
