import SchemaContract.Engine.Failure
import SchemaContract.Json.Printer
import SchemaContract.Json.Reader
import SchemaContract.Schema.Lexeme

/-!
Calls of operations: the qualified name of an operation, and its arguments as one line of text.
-/
namespace SchemaContract

def isName (s : String) : Bool :=
  match s.toList with
  | [] => false
  | c :: cs => isNameStart c && cs.all isNameRest

def entrypointName (name : String) : Except Failure String :=
  if isName name then .ok ("Main::" ++ name) else .error (.badOperationName name)

/-- The arguments in a JSON list as one line: each compact, with a blank behind the commas
between them. -/
def argumentList (text : String) : Except Failure String :=
  match Json.read text.toList with
  | .error fault => .error (.argumentsNotJson text fault)
  | .ok (.list items) => .ok ("[" ++ ", ".intercalate (items.map Json.compact) ++ "]")
  | .ok _ => .error .argumentsNotList

end SchemaContract
