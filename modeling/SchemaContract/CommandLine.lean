import SchemaContract.Engine.Toolchain
import SchemaContract.Schema.Rendering

/-!
The command line: writing the contract of a file to standard output or to another file, and running
operations on the engine. What it does is told by what it writes to the two output streams, by its
exit code, and by the files behind it.
-/
namespace SchemaContract.CommandLine

inductive Fault where
  | tooFewArguments
  | unknownCommand (command : String)
  | unknownOption (option : String)
  | missingOutput
  | otherArguments (expected : String)
  | unreadable (path : String) (fault : ReadFault)
  | unwritable (path : String) (fault : SystemFault)
  | failed (failure : Failure)

def Fault.message : Fault → String
  | tooFewArguments => "not enough arguments"
  | unknownCommand command => "unknown command '" ++ command ++ "'"
  | unknownOption option => "unknown option '" ++ option ++ "'"
  | missingOutput => "missing value for --output"
  | otherArguments expected => "expected: " ++ expected
  | unreadable path fault => fault.report path
  | unwritable path fault => "failed to write '" ++ path ++ "': " ++ fault.message
  | failed failure => failure.message

def usage : List String := [
  "usage:",
  "  bsq-emit transpile <file> [--output <file.bsqapi>] [--ast] [--placeholder-unsupported]",
  "  bsq-emit automock <file> <op> <json-args>",
  "  bsq-emit fuzz <file> <op>",
  "",
  "transpile options:",
  "  --output <path>            write generated program to a file instead of stdout",
  "  --ast                      print the parsed syntax tree as JSON",
  "  --placeholder-unsupported  replace declarations using unsupported features",
  "                             with a placeholder instead of failing",
  "",
  "logging:",
  "  --verbose | --debug        raise log level (or set BSQ_EMIT_LOG)",
  "",
  "environment (automock / fuzz):",
  "  BSQ_ROOT    analysis engine checkout (required)",
  "  BSQ_NODE    interpreter used to launch the engine (default: node)",
  "  CADL_ROOT   root of the scratch directory <CADL_ROOT>/bsqit (default: cwd)"]

structure Options where
  output? : Option String
  tree : Bool
  policy : Policy
deriving DecidableEq, Repr

def Options.initial : Options := ⟨none, false, .abort⟩

/-- The options that words state, on top of others. Of several outputs the last counts. -/
def Options.read (options : Options) : List String → Except Fault Options
  | [] => .ok options
  | ["--output"] => .error .missingOutput
  | "--output" :: path :: words => Options.read { options with output? := some path } words
  | "--ast" :: words => Options.read { options with tree := true } words
  | "--placeholder-unsupported" :: words =>
    Options.read { options with policy := .placeholder } words
  | word :: _ => .error (.unknownOption word)

inductive Command where
  | emit (file : String) (options : Options)
  | automock (file operation arguments : String)
  | fuzz (file operation : String)
deriving DecidableEq, Repr

/-- Words that only raise how much is logged. -/
def isVerbosity (word : String) : Bool := word == "--verbose" || word == "-v" || word == "--debug"

/-- The command that words state, wherever verbosity is put among them. -/
def Command.read (words : List String) : Except Fault Command :=
  match words.filter (!isVerbosity ·) with
  | "transpile" :: file :: words => do .ok (.emit file (← Options.initial.read words))
  | "automock" :: file :: words =>
    match words with
    | [operation, arguments] => .ok (.automock file operation arguments)
    | _ => .error (.otherArguments "automock <file> <op> <json-args>")
  | "fuzz" :: file :: words =>
    match words with
    | [operation] => .ok (.fuzz file operation)
    | _ => .error (.otherArguments "fuzz <file> <op>")
  | command :: _ :: _ => .error (.unknownCommand command)
  | _ => .error .tooFewArguments

structure Written where
  output : String
  errors : String
deriving DecidableEq, Repr

def Options.product (options : Options) (file : String) (fs : FileSystem) :
    Except Fault String :=
  if options.tree then
    match fs.readText file with
    | .error fault => .error (.unreadable file fault)
    | .ok source =>
      match Program.ofSource source with
      | .ok program => .ok program.toJson.pretty
      | .error error => .error (.failed (.syntaxError error))
  else
    match fs.contractOf options.policy file with
    | .ok text => .ok text
    | .error failure => .error (.failed failure)

/-- Puts out a text and a newline: on standard output, or into a file. -/
def Options.deliver (options : Options) (text : String) (fs : FileSystem) :
    Except Fault Written × FileSystem :=
  match options.output? with
  | none => (.ok ⟨text ++ "\n", ""⟩, fs)
  | some path =>
    match fs.write path (Text.bytes (text ++ "\n")) with
    | .ok fs => (.ok ⟨"", "wrote: " ++ path ++ "\n"⟩, fs)
    | .error fault => (.error (.unwritable path fault), fs)

def emit (file : String) (options : Options) (fs : FileSystem) :
    Except Fault Written × FileSystem :=
  match options.product file fs with
  | .ok text => options.deliver text fs
  | .error fault => (.error fault, fs)

/-- Runs the engine with the settings of the environment, and writes what is told of it. -/
def runEngine (env : Environment) (run : Settings → FileSystem → String × FileSystem)
    (fs : FileSystem) : Written × FileSystem :=
  match Settings.ofEnvironment? env (FileSystem.pathOf fs.home) with
  | none => (⟨Failure.rootMissing.message, ""⟩, fs)
  | some settings =>
    let (told, fs) := run settings fs
    (⟨told, ""⟩, fs)

def Command.run (env : Environment) (launcher : Launcher) (fs : FileSystem) :
    Command → Except Fault Written × FileSystem
  | .emit file options => CommandLine.emit file options fs
  | .automock file operation arguments =>
    let (written, fs) :=
      runEngine env (·.automock launcher .abort file operation arguments) fs
    (.ok written, fs)
  | .fuzz file operation =>
    let (written, fs) := runEngine env (·.fuzz launcher .abort file operation) fs
    (.ok written, fs)

def Command.paths (env : Environment) (home : String) : Command → List String
  | .emit file options => file :: options.output?.toList
  | .automock file _ _ | .fuzz file _ =>
    match Settings.ofEnvironment? env home with
    | none => []
    | some settings => [file, settings.script, settings.programFile, settings.manifestFile]

structure Outcome where
  code : Nat
  output : String
  errors : String
deriving DecidableEq, Repr

/-- A fault is told with the usage, and makes the exit code one. -/
def Outcome.of : Except Fault Written → Outcome
  | .ok written => ⟨0, written.output, written.errors⟩
  | .error fault =>
    ⟨1, "", String.join ((fault.message :: usage).map (· ++ "\n"))⟩

def run (words : List String) (env : Environment) (launcher : Launcher) (fs : FileSystem) :
    Outcome × FileSystem :=
  match Command.read words with
  | .error fault => (.of (.error fault), fs)
  | .ok command =>
    let (result, fs) := command.run env launcher fs
    (.of result, fs)

end SchemaContract.CommandLine
