import SchemaContract.Contract.Clause
import SchemaContract.Contract.Primitive

/-!
Types as contracts write them. Writing the type of a place also collects the clauses of its
patterns, when the type itself is the primitive of texts; parts of a type belong to no place.
-/
namespace SchemaContract

/-- What stands where contracts have nothing for a kind of node. -/
def placeholder (kind : String) : String := "[" ++ kind ++ "]"

def Slot.typeOfName (slot? : Option Slot) (name : String) : StateM ClauseBuffer String := do
  if Primitive.target? name = some Primitive.text then
    if let some slot := slot? then
      slot.patternClauses.forM fun clause => modify (·.push clause)
  return Primitive.typeName name

mutual

def Expression.typeText (slot? : Option Slot) : Expression → StateM ClauseBuffer String
  | .array element => do return "List<" ++ (← element.typeText none) ++ ">"
  | .tuple elements => do return "[" ++ ", ".intercalate (← Expression.typeTexts elements) ++ "]"
  | .union options => do return " | ".intercalate (← Expression.typeTexts options)
  | .intersection options => do return " & ".intercalate (← Expression.typeTexts options)
  | .reference name => Slot.typeOfName slot? name
  | .identifier name => Slot.typeOfName slot? name
  | .unknown => return Primitive.any
  | .model members => return placeholder (Expression.model members).kindName
  | .member base name => return placeholder (Expression.member base name).kindName
  | .text value => return placeholder (Expression.text value).kindName
  | .number value => return placeholder (Expression.number value).kindName
  | .boolean value => return placeholder (Expression.boolean value).kindName
  | .void => return placeholder Expression.void.kindName
  | .never => return placeholder Expression.never.kindName

def Expression.typeTexts : List Expression → StateM ClauseBuffer (List String)
  | [] => return []
  | e :: es => do
    let first ← e.typeText none
    let others ← Expression.typeTexts es
    return first :: others

end

end SchemaContract
