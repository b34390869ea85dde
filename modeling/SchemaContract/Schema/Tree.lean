import SchemaContract.Number.Binary64

/-!
The syntax tree of interface schemas: type expressions with their inline models and decorators,
declarations, and programs. Each kind of expression and of statement has the name that stands for it
where contracts have nothing for it.
-/
namespace SchemaContract

inductive Key where
  | identifier (name : String)
  | quoted (text : String)
deriving DecidableEq, Repr

def Key.text : Key → String
  | .identifier name => name
  | .quoted text => text

mutual

inductive Expression where
  | array (element : Expression)
  | tuple (elements : List Expression)
  | union (options : List Expression)
  | intersection (options : List Expression)
  | reference (name : String)
  | identifier (name : String)
  | model (members : List Member)
  | member (base : Expression) (name : String)
  | text (value : String)
  | number (value : Binary64)
  | boolean (value : Bool)
  | void
  | never
  | unknown

inductive Member where
  | property (property : Property)
  | spread (target : Expression)

/-- The member `key: type`, `key?: type` or `key: type = default`. -/
structure Property where
  key : Key
  type : Expression
  optional : Bool
  default? : Option Expression
  decorators : List Decorator

/-- The application `@target(arguments)`. A qualified target is dotted. -/
structure Decorator where
  target : String
  arguments : List Expression

end

structure Model where
  name : String
  decorators : List Decorator
  target? : Option Expression
  members : List Member

inductive Case where
  | plain (key : Key) (value? : Option Expression) (decorators : List Decorator)
  | spread (target : Expression)

structure Enumeration where
  name : String
  decorators : List Decorator
  cases : List Case

structure Operation where
  name : String
  decorators : List Decorator
  parameters : List Member
  result : Expression

structure Interface where
  name : String
  decorators : List Decorator
  operations : List Operation

structure Variant where
  key : Key
  type : Expression

inductive Statement where
  | model (model : Model)
  | enumeration (enumeration : Enumeration)
  | interface (interface : Interface)
  | operation (operation : Operation)
  | importPath (path : String)
  /-- A namespace: `namespace name { statements }`, or `namespace name;` without statements. -/
  | scope (name : String) (decorators : List Decorator) (statements : List Statement)
  | union (name : String) (decorators : List Decorator) (variants : List Variant)
  | usingName (name : String)
  | typeAlias (name : String) (type : Expression)
  | projection
  | empty
  /-- What was skipped because no statement begins so. -/
  | invalid

structure Program where
  statements : List Statement

def Expression.kindName : Expression → String
  | .array _ => "ArrayExpressionNode"
  | .tuple _ => "TupleExpressionNode"
  | .union _ => "UnionExpressionNode"
  | .intersection _ => "IntersectionExpressionNode"
  | .reference _ => "TypeReferenceNode"
  | .identifier _ => "IdentifierNode"
  | .model _ => "ModelExpressionNode"
  | .member .. => "MemberExpressionNode"
  | .text _ => "StringLiteralNode"
  | .number _ => "NumericLiteralNode"
  | .boolean _ => "BooleanLiteralNode"
  | .void => "VoidKeywordNode"
  | .never => "NeverKeywordNode"
  | .unknown => "UnknownKeywordNode"

def Statement.kindName : Statement → String
  | .model _ => "ModelStatementNode"
  | .enumeration _ => "EnumStatementNode"
  | .interface _ => "InterfaceStatementNode"
  | .operation _ => "OperationStatementNode"
  | .importPath _ => "ImportStatementNode"
  | .scope .. => "NamespaceStatementNode"
  | .union .. => "UnionStatementNode"
  | .usingName _ => "UsingStatementNode"
  | .typeAlias .. => "AliasStatementNode"
  | .projection => "ProjectionStatementNode"
  | .empty => "EmptyStatementNode"
  | .invalid => "InvalidStatementNode"

/-- The dotted name of a reference or of a chain of members over one. -/
def Expression.path? : Expression → Option String
  | .reference name | .identifier name => some name
  | .member base name => base.path?.map fun path => path ++ "." ++ name
  | _ => none

end SchemaContract
