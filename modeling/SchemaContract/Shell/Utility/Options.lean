import SchemaContract.Shell.Builtin

/-!
What the utilities share: options among words, the files that are read, and complaints about both.
-/
namespace SchemaContract.Shell.Utility

/-- The options that a utility takes: letters alone, letters with a value, and long names. -/
structure OptionTable where
  utility : String
  plain : String
  valued : String
  long : List (String × Char)

structure Parsed where
  options : List (Char × Chars)
  operands : List Chars

namespace Parsed

def has (p : Parsed) (c : Char) : Bool := p.options.any (·.1 == c)

/-- The value of an option: the last counts. -/
def value? (p : Parsed) (c : Char) : Option Chars := p.options.reverse.lookup c

def add (c : Char) (value : Chars) (p : Parsed) : Parsed :=
  { p with options := (c, value) :: p.options }

end Parsed

def complaint (utility : String) (message : Chars) : Chars :=
  utility.toList ++ ": ".toList ++ message ++ ['\n']

def named (cs : Chars) : Chars := '\'' :: cs ++ ['\'']

def tryHelp (utility : String) : Chars :=
  "Try ".toList ++ named (utility.toList ++ " --help".toList) ++ " for more information.\n".toList

namespace OptionTable

def refusal (t : OptionTable) (message : Chars) : Chars :=
  complaint t.utility message ++ tryHelp t.utility

def letters (t : OptionTable) : Chars → Except Chars (List (Char × Chars) × Option Char)
  | [] => .ok ([], none)
  | c :: cs =>
    if t.valued.toList.contains c then
      .ok (if cs = [] then ([], some c) else ([(c, cs)], none))
    else if t.plain.toList.contains c then
      (letters t cs).map fun (options, open?) => ((c, []) :: options, open?)
    else .error (t.refusal ("invalid option -- ".toList ++ named [c]))

/-- Reads options wherever they stand among words, up to two dashes. -/
def parse (t : OptionTable) : List Chars → Except Chars Parsed
  | [] => .ok ⟨[], []⟩
  | word :: words =>
    match word with
    | ['-', '-'] => .ok ⟨[], words⟩
    | '-' :: '-' :: long =>
      let (name, value?) := Builtin.nameAndValue long
      match t.long.lookup (String.ofList name) with
      | some c => (parse t words).map (Parsed.add c (value?.getD []))
      | none => .error (t.refusal ("unrecognized option ".toList ++ named ("--".toList ++ name)))
    | '-' :: c :: cs => do
      let (options, open?) ← t.letters (c :: cs)
      match open?, words with
      | none, words => (parse t words).map fun p => { p with options := options ++ p.options }
      | some c, value :: words =>
        (parse t words).map fun p => { p with options := options ++ (c, value) :: p.options }
      | some c, [] =>
        .error (t.refusal ("option requires an argument -- ".toList ++ named [c]))
    | _ => (parse t words).map fun p => { p with operands := word :: p.operands }

end OptionTable

/-- Runs a utility on its options and operands. What is no option gives a status. -/
def withOptions (t : OptionTable) (status : Nat) (run : Parsed → Run Nat) : Action :=
  fun words => do
    match t.parse words with
    | .ok p => run p
    | .error message =>
      Run.warn message
      return status

def fetch (path : Chars) : Run (Except SystemFault Chars) := do
  if path = ['-'] ∨ path = "/dev/stdin".toList then Run.readAll 0
  else if path = "/dev/null".toList then return .ok []
  else return ((← get).world.files.read path.text).map Chars.ofBytes

def inputs (p : Parsed) : List Chars := if p.operands = [] then [['-']] else p.operands

/-- Goes through files with what they hold. A file that cannot be read makes a status. -/
def eachFile (paths : List Chars) (status : Nat) (refuse : Chars → SystemFault → Chars)
    (use : Chars → Chars → Run Unit) : Run Nat := do
  let mut result := 0
  for path in paths do
    match ← fetch path with
    | .ok content => use path content
    | .error fault =>
      Run.warn (refuse path fault)
      result := status
  return result

/-- A name in a complaint, in quotes when a script would need them. -/
def shown (path : Chars) : Chars :=
  if path = [] ∨ path.any " \t\n!\"$&'()*;<=>?[\\]^\x60\x7b|\x7d".toList.contains = true then
    (if path.contains '\'' then '"' :: path ++ ['"'] else named path)
  else path

def plainRefusal (utility : String) (path : Chars) (fault : SystemFault) : Chars :=
  complaint utility (shown path ++ ": ".toList ++ fault.reason.toList)

end SchemaContract.Shell.Utility
