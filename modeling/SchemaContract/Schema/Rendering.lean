import SchemaContract.Json.Value
import SchemaContract.Schema.Tree

/-!
Syntax trees as JSON. A node with parts is a record whose one key names its kind; a node without
parts is that name; what is absent is null.
-/
namespace SchemaContract

/-- A record with one field. -/
def Json.tagged (kind : String) (value : Json) : Json :=
  .record [⟨kind, value⟩]

def Key.toJson : Key → Json
  | .identifier name => .tagged "Identifier" (.text name)
  | .quoted text => .tagged "StringLiteral" (.text text)

mutual

def Expression.toJson : Expression → Json
  | .array element => .tagged "Array" element.toJson
  | .tuple elements => .tagged "Tuple" (.list (Expression.listToJson elements))
  | .union options => .tagged "Union" (.list (Expression.listToJson options))
  | .intersection options => .tagged "Intersection" (.list (Expression.listToJson options))
  | .reference name => .tagged "TypeReference" (.text name)
  | .identifier name => .tagged "Identifier" (.text name)
  | .model members => .tagged "Model" (.record [⟨"members", .list (Member.listToJson members)⟩])
  | .member base name =>
    .tagged "Member" (.record [⟨"base", base.toJson⟩, ⟨"member", .text name⟩])
  | .text value => .tagged "StringLiteral" (.text value)
  | .number value => .tagged "NumericLiteral" (.float value)
  | .boolean value => .tagged "BooleanLiteral" (.boolean value)
  | .void => .text "Void"
  | .never => .text "Never"
  | .unknown => .text "Unknown"

def Expression.listToJson : List Expression → List Json
  | [] => []
  | e :: es => e.toJson :: Expression.listToJson es

def Expression.optionToJson : Option Expression → Json
  | none => .null
  | some e => e.toJson

def Member.toJson : Member → Json
  | .property ⟨key, type, optional, default?, decorators⟩ =>
    .tagged "Property" (.record [
      ⟨"name", key.toJson⟩,
      ⟨"value", type.toJson⟩,
      ⟨"optional", .boolean optional⟩,
      ⟨"default", Expression.optionToJson default?⟩,
      ⟨"decorators", .list (Decorator.listToJson decorators)⟩])
  | .spread target => .tagged "Spread" target.toJson

def Member.listToJson : List Member → List Json
  | [] => []
  | m :: ms => m.toJson :: Member.listToJson ms

def Decorator.toJson : Decorator → Json
  | ⟨target, arguments⟩ =>
    .record [⟨"target", .text target⟩, ⟨"arguments", .list (Expression.listToJson arguments)⟩]

def Decorator.listToJson : List Decorator → List Json
  | [] => []
  | d :: ds => d.toJson :: Decorator.listToJson ds

end

def Model.toJson (m : Model) : Json :=
  .record [
    ⟨"name", .text m.name⟩,
    ⟨"decorators", .list (Decorator.listToJson m.decorators)⟩,
    ⟨"is", Expression.optionToJson m.target?⟩,
    ⟨"members", .list (Member.listToJson m.members)⟩]

def Case.toJson : Case → Json
  | .plain key value? decorators =>
    .tagged "Plain" (.record [
      ⟨"name", key.toJson⟩,
      ⟨"value", Expression.optionToJson value?⟩,
      ⟨"decorators", .list (Decorator.listToJson decorators)⟩])
  | .spread target => .tagged "Spread" target.toJson

def Enumeration.toJson (e : Enumeration) : Json :=
  .record [
    ⟨"name", .text e.name⟩,
    ⟨"decorators", .list (Decorator.listToJson e.decorators)⟩,
    ⟨"members", .list (e.cases.map Case.toJson)⟩]

def Operation.toJson (o : Operation) : Json :=
  .record [
    ⟨"name", .text o.name⟩,
    ⟨"decorators", .list (Decorator.listToJson o.decorators)⟩,
    ⟨"signature", .record [
      ⟨"parameters", .record [⟨"members", .list (Member.listToJson o.parameters)⟩]⟩,
      ⟨"return_type", o.result.toJson⟩]⟩]

def Interface.toJson (i : Interface) : Json :=
  .record [
    ⟨"name", .text i.name⟩,
    ⟨"decorators", .list (Decorator.listToJson i.decorators)⟩,
    ⟨"operations", .list (i.operations.map Operation.toJson)⟩]

def Variant.toJson (v : Variant) : Json :=
  .record [⟨"name", v.key.toJson⟩, ⟨"value", v.type.toJson⟩]

mutual

def Statement.toJson : Statement → Json
  | .model m => .tagged "Model" m.toJson
  | .enumeration e => .tagged "Enum" e.toJson
  | .interface i => .tagged "Interface" i.toJson
  | .operation o => .tagged "Operation" o.toJson
  | .importPath path => .tagged "Import" (.record [⟨"path", .text path⟩])
  | .scope name decorators statements =>
    .tagged "Namespace" (.record [
      ⟨"name", .text name⟩,
      ⟨"decorators", .list (Decorator.listToJson decorators)⟩,
      ⟨"statements", .list (Statement.listToJson statements)⟩])
  | .union name decorators variants =>
    .tagged "Union" (.record [
      ⟨"name", .text name⟩,
      ⟨"decorators", .list (Decorator.listToJson decorators)⟩,
      ⟨"variants", .list (variants.map Variant.toJson)⟩])
  | .usingName name => .tagged "Using" (.record [⟨"name", .text name⟩])
  | .typeAlias name type =>
    .tagged "Alias" (.record [⟨"name", .text name⟩, ⟨"value", type.toJson⟩])
  | .projection => .text "Projection"
  | .empty => .text "Empty"
  | .invalid => .text "Invalid"

def Statement.listToJson : List Statement → List Json
  | [] => []
  | s :: ss => s.toJson :: Statement.listToJson ss

end

def Program.toJson (p : Program) : Json :=
  .record [⟨"statements", .list (Statement.listToJson p.statements)⟩]

end SchemaContract
