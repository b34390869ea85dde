import SchemaContract.Grammar.Declaration
import SchemaContract.Grammar.Skip

/-!
The grammar of statements and programs. Reading never stops at a statement that begins with no
keyword: it is skipped and stays behind as an invalid statement.
-/
namespace SchemaContract.Grammar

inductive Keyword where
  | importPath | usingName | scope | model | enumeration | interface | operation | union
  | typeAlias | projection
deriving DecidableEq, Repr

def Keyword.ofName? : String → Option Keyword
  | "import" => some importPath
  | "using" => some usingName
  | "namespace" => some scope
  | "model" => some model
  | "enum" => some enumeration
  | "interface" => some interface
  | "op" => some operation
  | "union" => some union
  | "alias" => some typeAlias
  | "projection" => some projection
  | _ => none

def skipped (t : Token) (ts : List Token) : Found Token (t :: ts).length Statement :=
  (Found.before .invalid (skipStatement t ts)).widen (skipStatement_length_lt t ts)

/-- The statement that a declaration makes, counting the keyword before it. -/
def behindKeyword {t : Token} {ts : List Token} {α : Type} (wrap : α → Statement)
    (declared : Except Fault (Found Token ts.length α)) :
    Except Fault (Found Token (t :: ts).length Statement) :=
  declared.map fun found => (found.map wrap).lax

mutual

/-- A statement from its first token on. Decorators alone make an invalid one. -/
def statement (t : Token) (ts : List Token) :
    Except Fault (Found Token (t :: ts).length Statement) := do
  let ⟨decorators, ts₁, h₁⟩ ← decorators (t :: ts)
  match ts₁, h₁ with
  | [], _ => .ok ⟨.invalid, [], Nat.zero_lt_succ _⟩
  | u :: ts₂, h₂ => do
    have _ : ts₂.length < ts.length + 1 := Nat.lt_of_succ_lt_succ h₂
    .ok ((← declaration decorators u ts₂).behind h₂)
termination_by 4 * ts.length + 6

def declaration (decorators : List Decorator) (t : Token) (ts : List Token) :
    Except Fault (Found Token (t :: ts).length Statement) :=
  match t.kind with
  | .mark .semicolon => .ok (.before .empty ts)
  | .name word =>
    match Keyword.ofName? word with
    | some .importPath => behindKeyword id (importPath ts)
    | some .usingName => behindKeyword id (usingName ts)
    | some .scope => behindKeyword id (scope decorators ts)
    | some .model => behindKeyword .model (model decorators ts)
    | some .enumeration => behindKeyword .enumeration (enumeration decorators ts)
    | some .interface => behindKeyword .interface (interface decorators ts)
    | some .operation => behindKeyword .operation (bareOperation decorators ts)
    | some .union => behindKeyword id (union decorators ts)
    | some .typeAlias => behindKeyword id (typeAlias ts)
    | some .projection => behindKeyword (fun _ => .projection) (projection ts)
    | none => .ok (skipped t ts)
  | _ => .ok (skipped t ts)
termination_by 4 * ts.length + 5

def scope (decorators : List Decorator) (ts : List Token) :
    Except Fault (Found Token ts.length Statement) := do
  let ⟨scopeName, ts₁, h₁⟩ ← dottedName ts
  match mark? .leftBrace ts₁ with
  | some found => do
    let ⟨_, ts₂, h₂⟩ := found.after h₁
    let ⟨statements, ts₃, h₃⟩ := (← block ts₂).after h₂
    .ok ⟨.scope scopeName decorators statements, ts₃, h₃⟩
  | none => do
    let ⟨_, ts₂, h₂⟩ := (← mark .semicolon .semicolon ts₁).after h₁
    .ok ⟨.scope scopeName decorators [], ts₂, h₂⟩
termination_by 4 * ts.length + 4

/-- The statements of a block, and its closing brace. -/
def block : (ts : List Token) → Except Fault (Found Token ts.length (List Statement))
  | [] => .error ⟨.expected .namespaceEnd, []⟩
  | t :: ts =>
    if t.kind = .mark .rightBrace then .ok (.before [] ts)
    else do
      let ⟨first, ts₁, h₁⟩ ← statement t ts
      have _ : ts₁.length < ts.length + 1 := h₁
      let ⟨others, ts₂, h₂⟩ := (← block ts₁).after h₁
      .ok ⟨first :: others, ts₂, h₂⟩
termination_by ts => 4 * ts.length + 3

end

def statements : (ts : List Token) → Except Fault (List Statement)
  | [] => .ok []
  | t :: ts => do
    let ⟨first, ts₁, _h₁⟩ ← statement t ts
    let others ← statements ts₁
    .ok (first :: others)
termination_by ts => ts.length
decreasing_by exact _h₁

end SchemaContract.Grammar
