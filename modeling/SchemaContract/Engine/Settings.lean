import SchemaContract.Files.Path
import SchemaContract.Text.Blank

/-!
Settings of the analysis engine: how it is launched, and where the files made for it are kept.
-/
namespace SchemaContract

abbrev Environment := List (String × String)

/-- The value of a variable without the blanks around it, unless nothing is left. -/
def Environment.value? (env : Environment) (name : String) : Option String :=
  match (env.lookup name).map Text.trim with
  | some "" => none
  | value? => value?

structure Settings where
  interpreter : String
  /-- The script of the engine, the interpreter's first argument. -/
  script : String
  scratch : String
deriving DecidableEq, Repr

namespace Settings

def rootVariable : String := "BSQ_ROOT"

def interpreterVariable : String := "BSQ_NODE"

def scratchVariable : String := "CADL_ROOT"

def defaultInterpreter : String := "node"

/-- The settings that variables state; none without a root of the engine. -/
def ofEnvironment? (env : Environment) (home : String) : Option Settings :=
  (env.value? rootVariable).map fun root => {
    interpreter := (env.value? interpreterVariable).getD defaultInterpreter
    script := ["impl", "bin", "cmd", "bosque.js"].foldl Path.join root
    scratch := Path.join ((env.value? scratchVariable).getD home) "bsqit" }

def programName : String := "spec.bsqapi"

def programFile (s : Settings) : String := Path.join s.scratch programName

def manifestFile (s : Settings) : String := Path.join s.scratch "package.json"

end Settings
end SchemaContract
