import SchemaContract.Grammar.Expression

/-!
The grammar of declarations: models, enumerations, interfaces with their operations, unions and
aliases. Each rule begins behind the keyword.
-/
namespace SchemaContract.Grammar

/-- The target of `is`, if there is one. -/
def modelTarget (ts : List Token) :
    Except Fault (Found Token (ts.length + 1) (Option Expression)) := do
  let ⟨given, ts₁, h₁⟩ := optionalWord "is" ts
  if given then
    let found := (← expression ts₁).after h₁
    .ok (found.map some)
  else .ok ⟨none, ts₁, h₁⟩

/-- A model body, which only a model with a target may go without. -/
def modelBody (target? : Option Expression) (ts : List Token) :
    Except Fault (Found Token ts.length (List Member)) :=
  match mark? .leftBrace ts with
  | some ⟨_, ts₁, h₁⟩ => do
    .ok ((← members .body ts₁).after h₁)
  | none =>
    match target? with
    | some _ => do
      let found ← mark .semicolon .semicolon ts
      .ok (found.map fun _ => [])
    | none => .error ⟨.expected .modelBody, ts⟩

def model (decorators : List Decorator) (ts : List Token) :
    Except Fault (Found Token ts.length Model) := do
  let ⟨modelName, ts₁, h₁⟩ ← name .modelName ts
  match mark? .less ts₁ with
  | some _ => .error ⟨.templateParameters, ts₁⟩
  | none =>
    let ⟨target?, ts₂, h₂⟩ := (← modelTarget ts₁).widen h₁
    let ⟨members, ts₃, h₃⟩ := (← modelBody target? ts₂).after h₂
    .ok ⟨⟨modelName, decorators, target?, members⟩, ts₃, h₃⟩

/-- A case behind its decorators. Its value, or the target of a spread, has no operators. -/
def enumerationCase (decorators : List Decorator) (ts : List Token) :
    Except Fault (Found Token ts.length Case) :=
  match mark? .ellipsis ts with
  | some ⟨_, ts₁, h₁⟩ => do
    let found := (← primary ts₁).after h₁
    .ok (found.map .spread)
  | none => do
    let ⟨caseKey, ts₁, h₁⟩ ← key .caseName ts
    match mark? .colon ts₁ with
    | some found => do
      let ⟨_, ts₂, h₂⟩ := found.after h₁
      let ⟨value, ts₃, h₃⟩ := (← primary ts₂).after h₂
      .ok ⟨.plain caseKey (some value) decorators, ts₃, h₃⟩
    | none => .ok ⟨.plain caseKey none decorators, ts₁, h₁⟩

def enumerationCases (ts : List Token) : Except Fault (Found Token ts.length (List Case)) :=
  match mark? .rightBrace ts with
  | some found => .ok (found.map fun _ => [])
  | none => do
    let ⟨decorators, ts₁, h₁⟩ ← decorators ts
    let ⟨first, ts₂, h₂⟩ := (← enumerationCase decorators ts₁).behind h₁
    let ⟨_, ts₃, h₃⟩ := (← separator .rightBrace .caseSeparator ts₂).widen h₂
    let ⟨others, ts₄, h₄⟩ := (← enumerationCases ts₃).after h₃
    .ok ⟨first :: others, ts₄, h₄⟩
termination_by ts.length

def enumeration (decorators : List Decorator) (ts : List Token) :
    Except Fault (Found Token ts.length Enumeration) := do
  let ⟨enumerationName, ts₁, h₁⟩ ← name .enumerationName ts
  let ⟨_, ts₂, h₂⟩ := (← mark .leftBrace .enumerationBody ts₁).after h₁
  let ⟨cases, ts₃, h₃⟩ := (← enumerationCases ts₂).after h₂
  .ok ⟨⟨enumerationName, decorators, cases⟩, ts₃, h₃⟩

def operation (decorators : List Decorator) (ts : List Token) :
    Except Fault (Found Token ts.length Operation) := do
  let ⟨operationName, ts₁, h₁⟩ ← name .operationName ts
  let ⟨_, ts₂, h₂⟩ := (← mark .leftParen .parameterList ts₁).after h₁
  let ⟨parameters, ts₃, h₃⟩ := (← members .parameters ts₂).after h₂
  let ⟨_, ts₄, h₄⟩ := (← mark .colon .resultColon ts₃).after h₃
  let ⟨result, ts₅, h₅⟩ := (← expression ts₄).after h₄
  .ok ⟨⟨operationName, decorators, parameters, result⟩, ts₅, h₅⟩

/-- The operations of an interface. There the keyword may be left out. -/
def interfaceOperations (ts : List Token) :
    Except Fault (Found Token ts.length (List Operation)) :=
  match mark? .rightBrace ts with
  | some found => .ok (found.map fun _ => [])
  | none => do
    let ⟨decorators, ts₁, h₁⟩ ← decorators ts
    let ⟨_, ts₂, h₂⟩ := (optionalWord "op" ts₁).widen h₁
    let ⟨first, ts₃, h₃⟩ := (← operation decorators ts₂).behind h₂
    let ⟨_, ts₄, h₄⟩ := (← separator .rightBrace .operationSeparator ts₃).widen h₃
    let ⟨others, ts₅, h₅⟩ := (← interfaceOperations ts₄).after h₄
    .ok ⟨first :: others, ts₅, h₅⟩
termination_by ts.length

def interface (decorators : List Decorator) (ts : List Token) :
    Except Fault (Found Token ts.length Interface) := do
  let ⟨interfaceName, ts₁, h₁⟩ ← name .interfaceName ts
  let ⟨_, ts₂, h₂⟩ := (← mark .leftBrace .interfaceBody ts₁).after h₁
  let ⟨operations, ts₃, h₃⟩ := (← interfaceOperations ts₂).after h₂
  .ok ⟨⟨interfaceName, decorators, operations⟩, ts₃, h₃⟩

/-- The variants of a union. Their decorators are dropped. -/
def unionVariants (ts : List Token) : Except Fault (Found Token ts.length (List Variant)) :=
  match mark? .rightBrace ts with
  | some found => .ok (found.map fun _ => [])
  | none => do
    let ⟨_, ts₁, h₁⟩ ← decorators ts
    let ⟨variantKey, ts₂, h₂⟩ := (← key .variantName ts₁).behind h₁
    let ⟨_, ts₃, h₃⟩ := (← mark .colon .variantColon ts₂).after h₂
    let ⟨type, ts₄, h₄⟩ := (← expression ts₃).after h₃
    let ⟨_, ts₅, h₅⟩ := (← separator .rightBrace .variantSeparator ts₄).widen h₄
    let ⟨others, ts₆, h₆⟩ := (← unionVariants ts₅).after h₅
    .ok ⟨⟨variantKey, type⟩ :: others, ts₆, h₆⟩
termination_by ts.length

def union (decorators : List Decorator) (ts : List Token) :
    Except Fault (Found Token ts.length Statement) := do
  let ⟨unionName, ts₁, h₁⟩ ← name .unionName ts
  let ⟨_, ts₂, h₂⟩ := (← mark .leftBrace .unionBody ts₁).after h₁
  let ⟨variants, ts₃, h₃⟩ := (← unionVariants ts₂).after h₂
  .ok ⟨.union unionName decorators variants, ts₃, h₃⟩

def typeAlias (ts : List Token) : Except Fault (Found Token ts.length Statement) := do
  let ⟨aliasName, ts₁, h₁⟩ ← name .aliasName ts
  let ⟨_, ts₂, h₂⟩ := (← mark .equals .aliasEquals ts₁).after h₁
  let ⟨type, ts₃, h₃⟩ := (← expression ts₂).after h₂
  let ⟨_, ts₄, h₄⟩ := (← mark .semicolon .semicolon ts₃).after h₃
  .ok ⟨.typeAlias aliasName type, ts₄, h₄⟩

def importPath (ts : List Token) : Except Fault (Found Token ts.length Statement) := do
  let ⟨path, ts₁, h₁⟩ ← quoted .importPath ts
  let ⟨_, ts₂, h₂⟩ := (← mark .semicolon .semicolon ts₁).after h₁
  .ok ⟨.importPath path, ts₂, h₂⟩

def usingName (ts : List Token) : Except Fault (Found Token ts.length Statement) := do
  let ⟨used, ts₁, h₁⟩ ← dottedName ts
  let ⟨_, ts₂, h₂⟩ := (← mark .semicolon .semicolon ts₁).after h₁
  .ok ⟨.usingName used, ts₂, h₂⟩

def bareOperation (decorators : List Decorator) (ts : List Token) :
    Except Fault (Found Token ts.length Operation) := do
  let ⟨declared, ts₁, h₁⟩ ← operation decorators ts
  let ⟨_, ts₂, h₂⟩ := (← mark .semicolon .semicolon ts₁).after h₁
  .ok ⟨declared, ts₂, h₂⟩

end SchemaContract.Grammar
