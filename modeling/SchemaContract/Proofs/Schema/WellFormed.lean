import SchemaContract.Schema.Lexeme
import SchemaContract.Schema.Tree

/-!
Well-formed syntax trees: those that schemas can be written for. Names are identifiers, which the
two truth values are not, and qualified names are identifiers between dots. A union or intersection
has a choice of options, and members belong to a reference.
-/
namespace SchemaContract

def isIdentifier (name : String) : Bool :=
  match name.toList with
  | [] => false
  | c :: cs => isNameStart c && cs.all isNameRest && name != "true" && name != "false"

/-- One or more identifiers between dots. -/
def IsDottedName (name : String) : Prop :=
  ∃ parts, parts ≠ [] ∧ (∀ part ∈ parts, isIdentifier part = true) ∧
    name = ".".intercalate parts

theorem IsDottedName.of_isIdentifier {name : String} (h : isIdentifier name = true) :
    IsDottedName name :=
  ⟨[name], by simp, by simpa using h, String.intercalate_singleton.symm⟩

theorem IsDottedName.snoc {name part : String} (hn : IsDottedName name)
    (hp : isIdentifier part = true) : IsDottedName (name ++ "." ++ part) := by
  obtain ⟨parts, hne, hall, rfl⟩ := hn
  refine ⟨parts ++ [part], by simp, ?_, ?_⟩
  · intro p hm
    rcases List.mem_append.1 hm with hm | hm
    · exact hall p hm
    · rwa [List.mem_singleton.1 hm]
  · rw [String.intercalate_append_of_ne_nil hne (by simp), String.intercalate_singleton]

/-- The names that are types of their own. -/
def typeKeywords : List String := ["void", "never", "unknown"]

def Key.WellFormed : Key → Prop
  | .identifier name => isIdentifier name = true
  | .quoted _ => True

/-- A reference, or a member of one. -/
def Expression.IsPath : Expression → Prop
  | .reference _ | .member .. => True
  | _ => False

mutual

def Expression.WellFormed : Expression → Prop
  | .array element => element.WellFormed
  | .tuple elements => Expression.AllWellFormed elements
  | .union options | .intersection options =>
    2 ≤ options.length ∧ Expression.AllWellFormed options
  | .reference name => isIdentifier name = true ∧ name ∉ typeKeywords
  | .identifier _ => False
  | .model members => Member.AllWellFormed members
  | .member base name => base.IsPath ∧ base.WellFormed ∧ isIdentifier name = true
  | .text _ | .number _ | .boolean _ | .void | .never | .unknown => True

def Expression.AllWellFormed : List Expression → Prop
  | [] => True
  | e :: es => e.WellFormed ∧ Expression.AllWellFormed es

def Member.WellFormed : Member → Prop
  | .property p => p.WellFormed
  | .spread target => target.WellFormed

def Member.AllWellFormed : List Member → Prop
  | [] => True
  | m :: ms => m.WellFormed ∧ Member.AllWellFormed ms

def Property.WellFormed : Property → Prop
  | ⟨key, type, _, default?, decorators⟩ =>
    key.WellFormed ∧ type.WellFormed ∧ Expression.OptionWellFormed default? ∧
      Decorator.AllWellFormed decorators

def Expression.OptionWellFormed : Option Expression → Prop
  | none => True
  | some e => e.WellFormed

def Decorator.WellFormed : Decorator → Prop
  | ⟨target, arguments⟩ => IsDottedName target ∧ Expression.AllWellFormed arguments

def Decorator.AllWellFormed : List Decorator → Prop
  | [] => True
  | d :: ds => d.WellFormed ∧ Decorator.AllWellFormed ds

end

theorem Expression.allWellFormed_iff {es : List Expression} :
    Expression.AllWellFormed es ↔ ∀ e ∈ es, e.WellFormed := by
  induction es with
  | nil => simp [Expression.AllWellFormed]
  | cons e es ih => simp [Expression.AllWellFormed, ih]

def Model.WellFormed (m : Model) : Prop :=
  isIdentifier m.name = true ∧ Decorator.AllWellFormed m.decorators ∧
    Expression.OptionWellFormed m.target? ∧ Member.AllWellFormed m.members

def Case.WellFormed : Case → Prop
  | .plain key value? decorators =>
    key.WellFormed ∧ Expression.OptionWellFormed value? ∧ Decorator.AllWellFormed decorators
  | .spread target => target.WellFormed

def Enumeration.WellFormed (e : Enumeration) : Prop :=
  isIdentifier e.name = true ∧ Decorator.AllWellFormed e.decorators ∧
    ∀ c ∈ e.cases, c.WellFormed

def Operation.WellFormed (o : Operation) : Prop :=
  isIdentifier o.name = true ∧ Decorator.AllWellFormed o.decorators ∧
    Member.AllWellFormed o.parameters ∧ o.result.WellFormed

def Interface.WellFormed (i : Interface) : Prop :=
  isIdentifier i.name = true ∧ Decorator.AllWellFormed i.decorators ∧
    ∀ o ∈ i.operations, o.WellFormed

def Variant.WellFormed (v : Variant) : Prop :=
  v.key.WellFormed ∧ v.type.WellFormed

mutual

def Statement.WellFormed : Statement → Prop
  | .model m => m.WellFormed
  | .enumeration e => e.WellFormed
  | .interface i => i.WellFormed
  | .operation o => o.WellFormed
  | .scope name decorators statements =>
    IsDottedName name ∧ Decorator.AllWellFormed decorators ∧
      Statement.AllWellFormed statements
  | .union name decorators variants =>
    isIdentifier name = true ∧ Decorator.AllWellFormed decorators ∧
      ∀ v ∈ variants, v.WellFormed
  | .usingName name => IsDottedName name
  | .typeAlias name type => isIdentifier name = true ∧ type.WellFormed
  | .importPath _ | .projection | .empty | .invalid => True

def Statement.AllWellFormed : List Statement → Prop
  | [] => True
  | s :: ss => s.WellFormed ∧ Statement.AllWellFormed ss

end

def Program.WellFormed (p : Program) : Prop := Statement.AllWellFormed p.statements

end SchemaContract
