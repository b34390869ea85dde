import SchemaContract.Shell.Expansion
import SchemaContract.Shell.Printf
import SchemaContract.Shell.Reading
import SchemaContract.Shell.Test

/-!
The commands that a session carries out by itself: those that change it, and those that write, read
or test. Each takes the words behind its name and gives a status.
-/
namespace SchemaContract.Shell

abbrev Action := List Chars → Run Nat

namespace Builtin

/-- Complains of a fault that leaves the script running. -/
def refuse (message : Chars) : Run Nat := do
  Run.complain message
  return 2

/-- Complains of a fault that ends the script. -/
def giveUp (message : Chars) : Run Nat := do
  Run.abort message
  return 2

def illegalNumber (word : Chars) : Chars := "Illegal number: ".toList ++ word

/-- The greatest number of loops, of arguments or of a status. -/
def greatest : Int := 0x7fffffff

def number? (word : Chars) : Option Nat :=
  let scan := Integer.scanDecimal word
  if scan.rest ≠ word ∧ scan.rest.all Integer.isSpace = true ∧ 0 ≤ scan.value ∧
      scan.value ≤ greatest then some scan.value.toNat
  else none

def illegalOption (word : Chars) : Chars := "Illegal option ".toList ++ word

def badName (name : Chars) : Chars := name ++ ": bad variable name".toList

def quoted (cs : Chars) : Chars :=
  '\'' :: cs.flatMap (fun c => if c = '\'' then "'\"'\"'".toList else [c]) ++ ['\'']

/-- The letters of options in front of words, and the words behind them. -/
def takeOptions (allowed : List Char) : List Chars → Except Chars (List Char × List Chars)
  | [] => .ok ([], [])
  | word :: words =>
    match word with
    | ['-', '-'] => .ok ([], words)
    | '-' :: c :: cs =>
      match (c :: cs).find? (!allowed.contains ·) with
      | some other => .error (illegalOption ['-', other])
      | none => (takeOptions allowed words).map fun (letters, rest) => (c :: cs ++ letters, rest)
    | _ => .ok ([], word :: words)

def print (cs : Chars) : Run Nat := do
  if cs = [] then return 0
  else if ← Run.emit 1 cs then return 0
  else
    Run.complain ((← get).title ++ ": I/O error".toList)
    return 1

def echo : Action := fun words => do
  let (newline, words) := match words with
    | ['-', 'n'] :: words => (false, words)
    | words => (true, words)
  let (text, ends) := echoed words
  print (text ++ (if newline && !ends then ['\n'] else []))

def printFormatted : Action := fun words => do
  match takeOptions [] words with
  | .error message => refuse message
  | .ok (_, []) => refuse "usage: printf format [arg ...]".toList
  | .ok (_, format :: arguments) =>
    let p := printf format arguments
    for complaint in p.complaints do
      Run.complain complaint
    let status ← print p.output
    match p.fault? with
    | some fault => refuse fault.message
    | none => return if p.complaints = [] then status else 1

def currentDirectory : Run Chars :=
  return .ofText (FileSystem.pathOf (← get).world.files.home)

def pwd : Action := fun words => do
  match takeOptions ['L', 'P'] words with
  | .error message => refuse message
  | .ok _ => print ((← currentDirectory) ++ ['\n'])

/-- The place that steps lead to by their names alone. -/
def placeBy (place : List String) (steps : List String) : List String :=
  steps.foldl (fun place step =>
    if step = "." then place else if step = ".." then place.dropLast else place ++ [step]) place

def changeDirectory (path : Chars) : Run Nat := do
  let files := (← get).world.files
  let p := Path.ofText path.text.toList
  let place := placeBy (if p.absolute then [] else files.home) p.steps
  if files.node? place = some .directory then
    let before ← currentDirectory
    Run.onWorld fun w => { w with files := { w.files with home := place } }
    let _ ← Run.assign "OLDPWD".toList before
    let _ ← Run.assign "PWD".toList (← currentDirectory)
    return 0
  else refuse ("can't cd to ".toList ++ path)

def cd : Action := fun words => do
  match takeOptions ['L', 'P'] words with
  | .error message => refuse message
  | .ok (_, []) =>
    match (← get).value? "HOME".toList with
    | some home => changeDirectory home
    | none => return 0
  | .ok (_, ['-'] :: _) =>
    let status ← changeDirectory (((← get).value? "OLDPWD".toList).getD [])
    let _ ← print ((← currentDirectory) ++ ['\n'])
    return status
  | .ok (_, path :: _) => changeDirectory path

def leave (flow : Flow) : Action := fun words => do
  match words.head? with
  | none =>
    modify fun s => { s with flow := flow }
    return (← get).status
  | some word =>
    match number? word with
    | none => giveUp (illegalNumber word)
    | some n =>
      modify fun s => { s with flow := flow }
      return n

/-- Leaves loops, or goes on with one; no more than there are. -/
def leaveLoops (flow : Nat → Flow) : Action := fun words => do
  let n? := match words.head? with
    | none => some 1
    | some word => (number? word).filter (0 < ·)
  match n? with
  | none => giveUp (illegalNumber (words.head?.getD []))
  | some n =>
    let loops := (← get).loops
    if loops ≠ 0 then modify fun s => { s with flow := flow (min n loops) }
    return 0

def shift : Action := fun words => do
  let n? := match words.head? with
    | none => some 1
    | some word => number? word
  match n? with
  | none => giveUp (illegalNumber (words.head?.getD []))
  | some n =>
    if (← get).arguments.length < n then giveUp "can't shift that many".toList
    else
      modify fun s => { s with arguments := s.arguments.drop n }
      return 0

/-- The options that have names, with their letters, in the order in which they are told. -/
def optionNames : List (String × Char) :=
  [("errexit", 'e'), ("noglob", 'f'), ("ignoreeof", 'I'), ("interactive", 'i'), ("monitor", 'm'),
    ("noexec", 'n'), ("stdin", 's'), ("xtrace", 'x'), ("verbose", 'v'), ("vi", 'V'),
    ("emacs", 'E'), ("noclobber", 'C'), ("allexport", 'a'), ("notify", 'b'), ("nounset", 'u')]

def setOption (on : Bool) (c : Char) : Run Unit :=
  modify fun s =>
    let others := s.options.filter (· ≠ c)
    { s with options := if on then others ++ [c] else others }

def listed (p : Variable → Bool) : Run (List (Chars × Variable)) :=
  return ((← get).bindings.filter fun entry => p entry.2).mergeSort fun a b =>
    Chars.isAtMost a.1 b.1

/-- Sets options up to the first word that is none. What is behind them becomes the arguments, if
anything is or if two dashes say so. -/
def setOptions : Nat → Action
  | 0, _ => return 0
  | _ + 1, [] => return 0
  | fuel + 1, word :: words => do
    match word with
    | ['-', '-'] =>
      modify fun s => { s with arguments := words }
      return 0
    | [sign, 'o'] =>
      if sign = '-' ∨ sign = '+' then
        match words with
        | name :: words =>
          match optionNames.lookup (String.ofList name) with
          | some letter =>
            setOption (sign == '-') letter
            setOptions fuel words
          | none => giveUp (illegalOption (word ++ ' ' :: name))
        | [] => return 0
      else
        modify fun s => { s with arguments := word :: words }
        return 0
    | ['-'] =>
      setOption false 'x'
      setOption false 'v'
      if words ≠ [] then modify fun s => { s with arguments := words }
      return 0
    | sign :: letters =>
      if (sign = '-' ∨ sign = '+') ∧ letters ≠ [] then
        match letters.find? fun c => !(optionNames.map Prod.snd).contains c with
        | some c => giveUp (illegalOption [sign, c])
        | none =>
          for c in letters do
            setOption (sign == '-') c
          setOptions fuel words
      else
        modify fun s => { s with arguments := word :: words }
        return 0
    | [] =>
      modify fun s => { s with arguments := word :: words }
      return 0

def set : Action := fun words => do
  if words = [] then
    let lines := (← listed fun v => v.value?.isSome).flatMap fun (name, v) =>
      name ++ '=' :: quoted (v.value?.getD []) ++ ['\n']
    print lines
  else setOptions (words.length + 1) words

def nameAndValue (word : Chars) : Chars × Option Chars :=
  let name := word.takeWhile (· ≠ '=')
  (name, if name.length < word.length then some (word.drop (name.length + 1)) else none)

def markAll (change : Variable → Variable) : Action
  | [] => return 0
  | word :: words => do
    let (name, value?) := nameAndValue word
    if !isVariableName name then giveUp (badName name)
    else
      let assigned ← match value? with
        | some value => Run.assign name value
        | none => pure true
      if assigned then
        Run.mark name change
        markAll change words
      else return 2

def markOrList (title : String) (has : Variable → Bool) (change : Variable → Variable) :
    Action := fun words => do
  match takeOptions ['p'] words with
  | .error message => giveUp message
  | .ok (_, []) =>
    let lines := (← listed has).flatMap fun (name, v) =>
      title.toList ++ ' ' :: name ++
        (match v.value? with
        | some value => '=' :: quoted value
        | none => []) ++ ['\n']
    print lines
  | .ok (_, words) => markAll change words

def unsetAll (functions : Bool) : Action
  | [] => return 0
  | name :: names => do
    if functions then
      modify fun s => { s with functions := removeKey name s.functions }
      unsetAll functions names
    else if !isVariableName name then giveUp (badName name)
    else if (((← get).slot? name).map Variable.fixed).getD false then
      giveUp (name ++ ": is read only".toList)
    else
      modify fun s => { s with bindings := removeKey name s.bindings }
      unsetAll functions names

def unset : Action := fun words => do
  match takeOptions ['f', 'v'] words with
  | .error message => giveUp message
  | .ok (letters, names) => unsetAll (letters.contains 'f') names

def localAll : Action
  | [] => return 0
  | word :: words => do
    let (name, value?) := nameAndValue word
    if !isVariableName name then giveUp (badName name)
    else
      modify fun s => { s with saved := s.saved ++ [(name, s.slot? name)] }
      match value? with
      | some value =>
        let _ ← Run.assign name value
        localAll words
      | none => localAll words

def makeLocal : Action := fun words => do
  if (← get).calls = 0 then giveUp "not in a function".toList else localAll words

/-- The letters of a line that is read. A backslash quotes the character behind it, unless lines are
taken as they are; at the end of a line it asks for one line more. -/
def lineLetters (raw : Bool) : Nat → Run (List Letter × Bool)
  | 0 => return ([], false)
  | fuel + 1 => do
    let line ← Run.readLine 0
    let letters := lettersIn raw line
    if !raw && endsOpen line then
      let (others, ended) ← lineLetters raw fuel
      return (letters ++ others, ended)
    else return (letters, line.getLast? == some '\n')
where
  lettersIn (raw : Bool) : Chars → List Letter
    | [] => []
    | '\\' :: c :: cs =>
      if raw then ⟨'\\', false⟩ :: (if c = '\n' then [] else [⟨c, false⟩]) ++ lettersIn raw cs
      else if c = '\n' then lettersIn raw cs
      else ⟨c, true⟩ :: lettersIn raw cs
    | c :: cs => if c = '\n' then [] else ⟨c, false⟩ :: lettersIn raw cs
  endsOpen : Chars → Bool
    | '\\' :: c :: cs => (c == '\n' && cs.isEmpty) || endsOpen cs
    | _ :: cs => endsOpen cs
    | [] => false

def isSeparator (separators : Chars) (l : Letter) : Bool :=
  !l.quoted && separators.contains l.char

def isBlankLetter (separators : Chars) (l : Letter) : Bool :=
  isSeparator separators l && isBlankSeparator l.char

/-- The text of the last variable that a line is read into: all that is left, without the blanks
around it and without one other separator that ends it. -/
def lastValue (separators : Chars) (letters : List Letter) : Chars :=
  let trimmed := (letters.reverse.dropWhile (isBlankLetter separators)).reverse
  let single :=
    (trimmed.filter fun l => isSeparator separators l).length == 1 &&
      (trimmed.getLast?.map (isSeparator separators)).getD false
  (if single then trimmed.dropLast else trimmed).map Letter.char

/-- Gives variables the fields of a line, and the last of them what is left. -/
def assignFields (separators : Chars) : List Chars → List Letter → Run Unit
  | [], _ => return ()
  | [name], letters => do
    let _ ← Run.assign name
      (lastValue separators (letters.dropWhile (isBlankLetter separators)))
  | name :: names, letters => do
    let letters := letters.dropWhile (isBlankLetter separators)
    let field := letters.takeWhile fun l => !isSeparator separators l
    let behind := (letters.drop field.length).dropWhile (isBlankLetter separators)
    let rest := match behind with
      | l :: ls => if isSeparator separators l then ls else behind
      | [] => []
    let _ ← Run.assign name (field.map Letter.char)
    assignFields separators names rest

def read : Action := fun words => do
  match takeOptions ['r'] words with
  | .error message => refuse message
  | .ok (_, []) => refuse "arg count".toList
  | .ok (letters, names) =>
    match names.find? fun name => !isVariableName name with
    | some name => refuse (badName name)
    | none =>
      let s ← get
      let most := match s.stream? 0 with
        | some stream => ((s.world.ahead stream).toOption.getD []).length
        | none => 0
      let (line, ended) ← lineLetters (letters.contains 'r') (most + 1)
      assignFields s.separators names line
      return if ended then 0 else 1

def test (bracketed : Bool) : Action := fun words => do
  match Test.run (← get).world.files bracketed words with
  | .ok value => return if value then 0 else 1
  | .error fault => refuse fault.message

def signalNames : List String :=
  ["HUP", "INT", "QUIT", "ABRT", "KILL", "USR1", "USR2", "PIPE", "ALRM", "TERM", "CHLD"]

def isEndName (name : Chars) : Bool := name == "EXIT".toList || name == ['0']

def trapAll (action : Chars) : Action
  | [] => return 0
  | name :: names => do
    if isEndName name then
      modify fun s => { s with farewell := action }
      trapAll action names
    else if signalNames.contains (String.ofList name) ∨ (Integer.ofFigures? name).isSome then
      trapAll action names
    else
      Run.warn ("trap: ".toList ++ name ++ ": bad trap\n".toList)
      return 1

/-- Says what is run at the end of the script. Signals never come. -/
def trap : Action := fun words => do
  match words with
  | [] =>
    let farewell := (← get).farewell
    if farewell = [] then return 0
    else print ("trap -- ".toList ++ quoted farewell ++ " EXIT\n".toList)
  | ['-', '-'] :: action :: names => trapAll action names
  | ['-'] :: names => trapAll [] names
  | [name] => trapAll [] [name]
  | action :: names => trapAll action names

def action? : String → Option Action
  | ":" | "true" | "wait" | "hash" | "jobs" | "times" => some fun _ => return 0
  | "false" => some fun _ => return 1
  | "echo" => some echo
  | "printf" => some printFormatted
  | "pwd" => some pwd
  | "cd" => some cd
  | "exit" => some fun words => return (← leave .ended words) % 256
  | "return" => some (leave .returning)
  | "break" => some (leaveLoops .breaking)
  | "continue" => some (leaveLoops .continuing)
  | "shift" => some shift
  | "set" => some set
  | "export" => some (markOrList "export" Variable.exported fun v => { v with exported := true })
  | "readonly" => some (markOrList "readonly" Variable.fixed fun v => { v with fixed := true })
  | "unset" => some unset
  | "local" => some makeLocal
  | "read" => some read
  | "test" => some (test false)
  | "[" => some (test true)
  | "umask" => some fun words => if words = [] then print "0022\n".toList else return 0
  | "trap" => some trap
  | _ => none

end Builtin
end SchemaContract.Shell
