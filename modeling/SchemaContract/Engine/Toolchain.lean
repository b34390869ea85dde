import SchemaContract.Contract.Program
import SchemaContract.Engine.Call
import SchemaContract.Engine.Settings
import SchemaContract.Schema.Source

/-!
Driving the engine on a generated program: the program and a manifest are written to the scratch
directory, and then the engine is launched once. Nothing is written before everything is known to be
in order.
-/
namespace SchemaContract

structure Launch where
  interpreter : String
  script : String
  arguments : List String
deriving DecidableEq, Repr

/-- How a program ended: its exit code, if it was not ended by a signal, and what it wrote. -/
structure Exit where
  code? : Option Int
  output : List UInt8
  errors : List UInt8
deriving DecidableEq, Repr

/-- What runs programs. A program sees the files and may change them. -/
abbrev Launcher := Launch → FileSystem → Except SystemFault Exit × FileSystem

/-- Work over the files that may fail. What was changed before a failure stays changed. -/
abbrev Work (α : Type) := ExceptT Failure (StateM FileSystem) α

def Work.from {α : Type} (w : Work α) (fs : FileSystem) : Except Failure α × FileSystem :=
  w.run.run fs

def contractOfSource (policy : Policy) (source : String) : Except Failure String :=
  match Program.ofSource source with
  | .error error => .error (.syntaxError error)
  | .ok program =>
    match program.contract policy with
    | .error refusal => .error (.refused refusal)
    | .ok text => .ok text

def FileSystem.contractOf (fs : FileSystem) (policy : Policy) (file : String) :
    Except Failure String :=
  match fs.readText file with
  | .error fault => .error (.unreadable file fault)
  | .ok source => contractOfSource policy source

def Work.createDirectories (path : String) : Work Unit := do
  let (result, fs) := (← get).createDirectories path
  set fs
  match result with
  | .ok () => return ()
  | .error fault => throw (.unwritable fault)

def Work.write (path : String) (content : List UInt8) : Work Unit := do
  match (← get).write path content with
  | .ok fs => set fs
  | .error fault => throw (.unwritable fault)

def manifest : Json :=
  .record [
    ⟨"name", .text "bsqit"⟩,
    ⟨"version", .text "0.0.0.0"⟩,
    ⟨"description", .text "generated entrypoints for symbolic testing"⟩,
    ⟨"license", .text "MIT"⟩,
    ⟨"src", .record [
      ⟨"bsqsource", .list []⟩,
      ⟨"entrypoints", .list [.text ("./" ++ Settings.programName)]⟩,
      ⟨"testfiles", .list []⟩]⟩]

def Settings.generate (s : Settings) (policy : Policy) (file : String) : Work Unit := do
  let text ← (← get).contractOf policy file
  Work.createDirectories s.scratch
  Work.write s.programFile (Text.bytes text)
  Work.write s.manifestFile (Text.bytes manifest.pretty)

/-- Launches the engine. What it wrote is the result, when it ends well. -/
def Settings.launch (s : Settings) (launcher : Launcher) (arguments : List String) :
    Work String := do
  let (result, fs) := launcher ⟨s.interpreter, s.script, arguments⟩ (← get)
  set fs
  match result with
  | .error fault => throw (.notLaunched s.interpreter fault)
  | .ok exit =>
    if exit.code? = some 0 then return Text.ofBytesLossy exit.output
    else throw (.engineExit exit.code? exit.errors)

def Settings.runMock (s : Settings) (launcher : Launcher) (policy : Policy)
    (file operation arguments : String) : Work String := do
  let entrypoint ← entrypointName operation
  let list ← argumentList arguments
  s.generate policy file
  s.launch launcher ["symrun", s.manifestFile, "--entrypoint", entrypoint, "--args", list]

def Settings.runFuzz (s : Settings) (launcher : Launcher) (policy : Policy)
    (file operation : String) : Work String := do
  let entrypoint ← entrypointName operation
  s.generate policy file
  s.launch launcher ["fuzz", s.manifestFile, "--entrypoint", entrypoint]

def report : Except Failure String → String
  | .ok output => output ++ "\n"
  | .error failure => failure.message

def Settings.automock (s : Settings) (launcher : Launcher) (policy : Policy)
    (file operation arguments : String) (fs : FileSystem) : String × FileSystem :=
  let (result, fs) := (s.runMock launcher policy file operation arguments).from fs
  (report result, fs)

def Settings.fuzz (s : Settings) (launcher : Launcher) (policy : Policy)
    (file operation : String) (fs : FileSystem) : String × FileSystem :=
  let (result, fs) := (s.runFuzz launcher policy file operation).from fs
  (report result, fs)

end SchemaContract
