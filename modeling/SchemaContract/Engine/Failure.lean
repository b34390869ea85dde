import SchemaContract.Contract.Draft
import SchemaContract.Files.FileSystem
import SchemaContract.Json.Fault
import SchemaContract.Schema.SyntaxError
import SchemaContract.Text.Blank

/-!
Failures of making contracts of files and of driving the engine, and what is reported of them.
-/
namespace SchemaContract

inductive ReadFault where
  | system (fault : SystemFault)
  | notText
deriving DecidableEq, Repr

def ReadFault.message : ReadFault → String
  | system fault => fault.message
  | notText => "stream did not contain valid UTF-8"

/-- That a file cannot be read, without the word for the kind of failure. -/
def ReadFault.report (path : String) (fault : ReadFault) : String :=
  "failed to read '" ++ path ++ "': " ++ fault.message

def FileSystem.readText (fs : FileSystem) (path : String) : Except ReadFault String :=
  match fs.read path with
  | .error fault => .error (.system fault)
  | .ok content =>
    match Text.ofBytes? content with
    | some text => .ok text
    | none => .error .notText

inductive Failure where
  | syntaxError (error : SyntaxError)
  | refused (refusal : Refusal)
  | unreadable (path : String) (fault : ReadFault)
  | unwritable (fault : SystemFault)
  | badOperationName (name : String)
  | argumentsNotList
  | argumentsNotJson (text : String) (fault : Json.Fault)
  | rootMissing
  | notLaunched (interpreter : String) (fault : SystemFault)
  | engineExit (code? : Option Int) (errors : List UInt8)

/-- An exit code as it is told of; a program that a signal ends has none. -/
def codeText : Option Int → String
  | some code => "Some(" ++ Int.repr code ++ ")"
  | none => "None"

def Failure.message : Failure → String
  | syntaxError error => error.message
  | refused refusal => refusal.message
  | unreadable path fault => "io error: " ++ fault.report path
  | unwritable fault => "io error: " ++ fault.message
  | badOperationName name => "argument error: '" ++ name ++ "' is not a valid operation name"
  | argumentsNotList => "argument error: arguments must be a JSON array"
  | argumentsNotJson text fault => fault.message text.toList
  | rootMissing => "config error: missing required environment variable 'BSQ_ROOT'"
  | notLaunched interpreter fault =>
    "toolchain error: failed to run '" ++ interpreter ++ "': " ++ fault.message
  | engineExit code? errors =>
    "toolchain error: engine exited with code " ++ codeText code? ++ ": " ++
      Text.trimEnd (Text.ofBytesLossy errors)

end SchemaContract
