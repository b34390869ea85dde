import SchemaContract.Grammar.Reading
import SchemaContract.Schema.Tree

/-!
The grammar of type expressions. A union binds weaker than an intersection, and that weaker than the
brackets of an array; an inline model has members, and these have decorators, whose arguments are
expressions again.
-/
namespace SchemaContract.Grammar

/-- One option stands for itself. -/
def unionOf (first : Expression) : List Expression → Expression
  | [] => first
  | others => .union (first :: others)

def intersectionOf (first : Expression) : List Expression → Expression
  | [] => first
  | others => .intersection (first :: others)

/-- The pairs of brackets behind an expression, each making an array of what stands before it. -/
def arrayBrackets (element : Expression) :
    (ts : List Token) → Found Token (ts.length + 1) Expression
  | t :: u :: ts =>
    if t.kind = .mark .leftBracket ∧ u.kind = .mark .rightBracket then
      (arrayBrackets (.array element) ts).lax.lax
    else .before element (t :: u :: ts)
  | ts => .before element ts

def memberChain (base : Expression) :
    (ts : List Token) → Except Fault (Found Token (ts.length + 1) Expression)
  | [] => .ok (.before base [])
  | [t] =>
    if t.kind = .mark .dot then .error ⟨.expected .identifierAfterDot, []⟩
    else .ok (.before base [t])
  | t :: u :: ts =>
    if t.kind = .mark .dot then
      match u.kind with
      | .name part => do
        let found ← memberChain (.member base part) ts
        .ok found.lax.lax
      | _ => .error ⟨.expected .identifierAfterDot, u :: ts⟩
    else .ok (.before base (t :: u :: ts))

/-- A reference with its members. Template arguments are refused behind it. -/
def reference (name : String) (ts : List Token) :
    Except Fault (Found Token (ts.length + 1) Expression) := do
  let found ← memberChain (.reference name) ts
  match mark? .less found.rest with
  | some _ => .error ⟨.templateArguments, found.rest⟩
  | none => .ok found

/-- The expression that a name begins. Three names are types of their own and take no members. -/
def named (name : String) (ts : List Token) :
    Except Fault (Found Token (ts.length + 1) Expression) :=
  match name with
  | "void" => .ok (.before .void ts)
  | "never" => .ok (.before .never ts)
  | "unknown" => .ok (.before .unknown ts)
  | name => reference name ts

def key (what : Expectation) : (ts : List Token) → Except Fault (Found Token ts.length Key)
  | [] => .error ⟨.expected what, []⟩
  | t :: ts => match t.kind with
    | .name name => .ok (.before (.identifier name) ts)
    | .text text => .ok (.before (.quoted text) ts)
    | _ => .error ⟨.expected what, t :: ts⟩

inductive MemberList where
  | body
  | parameters
deriving DecidableEq, Repr

def MemberList.close : MemberList → Mark
  | body => .rightBrace
  | parameters => .rightParen

def MemberList.separator : MemberList → Expectation
  | body => .memberSeparator
  | parameters => .parameterSeparator

mutual

def expression (ts : List Token) : Except Fault (Found Token ts.length Expression) := do
  let ⟨_, ts₁, h₁⟩ := optionalMark .pipe ts
  let ⟨first, ts₂, h₂⟩ := (← intersection ts₁).behind h₁
  let ⟨others, ts₃, h₃⟩ := (← unionOptions ts₂).widen h₂
  .ok ⟨unionOf first others, ts₃, h₃⟩
termination_by 8 * ts.length + 3

def unionOptions (ts : List Token) :
    Except Fault (Found Token (ts.length + 1) (List Expression)) :=
  match mark? .pipe ts with
  | none => .ok (.before [] ts)
  | some ⟨_, ts₁, h₁⟩ => do
    let ⟨option, ts₂, h₂⟩ := (← intersection ts₁).after h₁
    let ⟨others, ts₃, h₃⟩ := (← unionOptions ts₂).widen h₂
    .ok (.lax ⟨option :: others, ts₃, h₃⟩)
termination_by 8 * ts.length

def intersection (ts : List Token) : Except Fault (Found Token ts.length Expression) := do
  let ⟨first, ts₁, h₁⟩ ← operand ts
  let ⟨others, ts₂, h₂⟩ := (← intersectionOptions ts₁).widen h₁
  .ok ⟨intersectionOf first others, ts₂, h₂⟩
termination_by 8 * ts.length + 2

def intersectionOptions (ts : List Token) :
    Except Fault (Found Token (ts.length + 1) (List Expression)) :=
  match mark? .ampersand ts with
  | none => .ok (.before [] ts)
  | some ⟨_, ts₁, h₁⟩ => do
    let ⟨option, ts₂, h₂⟩ := (← operand ts₁).after h₁
    let ⟨others, ts₃, h₃⟩ := (← intersectionOptions ts₂).widen h₂
    .ok (.lax ⟨option :: others, ts₃, h₃⟩)
termination_by 8 * ts.length

def operand (ts : List Token) : Except Fault (Found Token ts.length Expression) := do
  let ⟨element, ts₁, h₁⟩ ← primary ts
  .ok ((arrayBrackets element ts₁).widen h₁)
termination_by 8 * ts.length + 1

def primary : (ts : List Token) → Except Fault (Found Token ts.length Expression)
  | [] => .error ⟨.unexpected none, []⟩
  | t :: ts => match t.kind with
    | .number value => .ok (.before (.number value) ts)
    | .text value => .ok (.before (.text value) ts)
    | .truth value => .ok (.before (.boolean value) ts)
    | .name name => named name ts
    | .mark .leftBracket => do
      let found ← listing .rightBracket .tupleEnd ts
      .ok (found.map .tuple).lax
    | .mark .leftBrace => do
      let found ← members .body ts
      .ok (found.map .model).lax
    | .mark .leftParen => do
      let ⟨inside, ts₁, h₁⟩ ← expression ts
      let found := (← mark .rightParen .groupEnd ts₁).after h₁
      .ok (found.map fun _ => inside).lax
    | .mark mark => .error ⟨.unexpected (some mark), t :: ts⟩
termination_by ts => 8 * ts.length

/-- Expressions between commas up to a closing mark, which may stand there at once. -/
def listing (close : Mark) (what : Expectation) (ts : List Token) :
    Except Fault (Found Token ts.length (List Expression)) :=
  match mark? close ts with
  | some found => .ok (found.map fun _ => [])
  | none => items close what ts
termination_by 8 * ts.length + 5

def items (close : Mark) (what : Expectation) (ts : List Token) :
    Except Fault (Found Token ts.length (List Expression)) := do
  let ⟨item, ts₁, h₁⟩ ← expression ts
  match mark? .comma ts₁ with
  | some found => do
    let ⟨_, ts₂, h₂⟩ := found.after h₁
    let found := (← items close what ts₂).after h₂
    .ok (found.map fun others => item :: others)
  | none => do
    let found := (← mark close what ts₁).after h₁
    .ok (found.map fun _ => [item])
termination_by 8 * ts.length + 4

def members (place : MemberList) (ts : List Token) :
    Except Fault (Found Token ts.length (List Member)) :=
  match mark? place.close ts with
  | some found => .ok (found.map fun _ => [])
  | none => do
    let ⟨decorators, ts₁, h₁⟩ ← decorators ts
    let ⟨first, ts₂, h₂⟩ := (← member decorators ts₁).behind h₁
    let ⟨_, ts₃, h₃⟩ := (← separator place.close place.separator ts₂).widen h₂
    let ⟨others, ts₄, h₄⟩ := (← members place ts₃).after h₃
    .ok ⟨first :: others, ts₄, h₄⟩
termination_by 8 * ts.length + 1

/-- A member behind its decorators. Those of a spread are dropped. -/
def member (decorators : List Decorator) (ts : List Token) :
    Except Fault (Found Token ts.length Member) :=
  match mark? .ellipsis ts with
  | some ⟨_, ts₁, h₁⟩ => do
    let ⟨target, ts₂, h₂⟩ := (← expression ts₁).after h₁
    .ok ⟨.spread target, ts₂, h₂⟩
  | none => do
    let ⟨key, ts₁, h₁⟩ ← key .propertyName ts
    let ⟨optional, ts₂, h₂⟩ := (optionalMark .question ts₁).widen h₁
    let ⟨_, ts₃, h₃⟩ := (← mark .colon .propertyColon ts₂).after h₂
    let ⟨type, ts₄, h₄⟩ := (← expression ts₃).after h₃
    let ⟨default?, ts₅, h₅⟩ := (← default ts₄).widen h₄
    .ok ⟨.property ⟨key, type, optional, default?, decorators⟩, ts₅, h₅⟩
termination_by 8 * ts.length

def default (ts : List Token) : Except Fault (Found Token (ts.length + 1) (Option Expression)) :=
  match mark? .equals ts with
  | none => .ok (.before none ts)
  | some ⟨_, ts₁, h₁⟩ => do
    let found := (← expression ts₁).after h₁
    .ok (found.map some).lax
termination_by 8 * ts.length

def decorators (ts : List Token) : Except Fault (Found Token (ts.length + 1) (List Decorator)) :=
  match mark? .atSign ts with
  | none => .ok (.before [] ts)
  | some ⟨_, ts₁, h₁⟩ => do
    let ⟨target, ts₂, h₂⟩ := (← dottedName ts₁).after h₁
    let ⟨arguments, ts₃, h₃⟩ := (← arguments ts₂).widen h₂
    let ⟨others, ts₄, h₄⟩ := (← decorators ts₃).widen h₃
    .ok (.lax ⟨⟨target, arguments⟩ :: others, ts₄, h₄⟩)
termination_by 8 * ts.length

/-- The arguments of a decorator; without parentheses there are none. -/
def arguments (ts : List Token) : Except Fault (Found Token (ts.length + 1) (List Expression)) :=
  match mark? .leftParen ts with
  | none => .ok (.before [] ts)
  | some ⟨_, ts₁, h₁⟩ => do
    let found := (← listing .rightParen .argumentsEnd ts₁).after h₁
    .ok found.lax
termination_by 8 * ts.length

end

end SchemaContract.Grammar
