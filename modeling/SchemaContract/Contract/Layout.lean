/-!
Declarations of contracts and how they are laid out: one line for each field, case and clause.
-/
namespace SchemaContract

def joinLines (lines : List String) : String := "\n".intercalate lines

def joinBlocks (blocks : List String) : String := "\n\n".intercalate blocks

def indented (line : String) : String := "    " ++ line

/-- A name for a type. A primitive type is declared, any other defined. -/
inductive Abbreviation where
  | declared (name type : String)
  | defined (name type : String)
deriving DecidableEq, Repr

def Abbreviation.text : Abbreviation → String
  | declared name type => "typedecl " ++ name ++ " = " ++ type ++ ";"
  | defined name type => "typedef " ++ name ++ " = " ++ type ++ ";"

structure Entity where
  name : String
  entries : List String
  invariants : List String
deriving DecidableEq, Repr

/-- A blank line parts entries from invariants, when there are both. -/
def Entity.lines (e : Entity) : List String :=
  ["entity " ++ e.name ++ " \x7b"] ++ e.entries.map indented ++
    (if e.entries ≠ [] ∧ e.invariants ≠ [] then [""] else []) ++
    e.invariants.map (fun clause => indented ("invariant " ++ clause)) ++ ["\x7d"]

def Entity.text (e : Entity) : String := joinLines e.lines

structure CaseBlock where
  name : String
  cases : List String
deriving DecidableEq, Repr

/-- Lines with a comma behind each but the last. -/
def commaLines : List String → List String
  | [] => []
  | [line] => [line]
  | line :: lines => (line ++ ",") :: commaLines lines

def CaseBlock.lines (b : CaseBlock) : List String :=
  ["enum " ++ b.name ++ " \x7b"] ++ commaLines (b.cases.map indented) ++ ["\x7d"]

def CaseBlock.text (b : CaseBlock) : String := joinLines b.lines

structure Entrypoint where
  name : String
  parameters : List String
  result : String
  preconditions : List String
  postconditions : List String
deriving DecidableEq, Repr

def Entrypoint.head (e : Entrypoint) : String :=
  "entrypoint function " ++ e.name ++ "(" ++ ", ".intercalate e.parameters ++ "): " ++ e.result

def Entrypoint.clauseLines (e : Entrypoint) : List String :=
  e.preconditions.map (fun clause => indented ("requires " ++ clause)) ++
    e.postconditions.map (fun clause => indented ("ensures " ++ clause))

/-- The body returns any value of the result type. -/
def Entrypoint.body (e : Entrypoint) : String :=
  indented ("return s_reshavoc<" ++ e.result ++ ">(\"" ++ e.name ++ "\");")

/-- The body opens on the first line, or behind the clauses on a line of its own. -/
def Entrypoint.lines (e : Entrypoint) : List String :=
  (if e.clauseLines = [] then [e.head ++ " \x7b"] else [e.head] ++ e.clauseLines ++ ["\x7b"]) ++
    [e.body, "\x7d"]

def Entrypoint.text (e : Entrypoint) : String := joinLines e.lines

end SchemaContract
