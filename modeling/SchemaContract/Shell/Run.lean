import SchemaContract.Engine.Toolchain
import SchemaContract.Shell.Utility.Table

/-!
Running scripts. Commands are carried out one after another in a session; what they are made of is
put in first, from left to right. How often commands can be nested or repeated is bounded, so that a
script that would never end is cut off.
-/
namespace SchemaContract.Shell

def shellNames : List String := ["sh", "dash"]

namespace Run

def openingComplaint (access : Access) (path : Chars) (fault : SystemFault) : Chars :=
  let absent := fault = .notFound ∨ fault = .notDirectory
  match access with
  | .reading =>
    "cannot open ".toList ++ path ++ ": ".toList ++
      (if absent then "No such file" else fault.reason).toList
  | _ =>
    "cannot create ".toList ++ path ++ ": ".toList ++
      (if absent then "Directory nonexistent" else fault.reason).toList

def device? (path : Chars) : Option Nat :=
  match String.ofList path with
  | "/dev/stdin" | "/dev/fd/0" => some 0
  | "/dev/stdout" | "/dev/fd/1" => some 1
  | "/dev/stderr" | "/dev/fd/2" => some 2
  | _ => none

/-- The stream of a path. A device stands for what its descriptor does, and a file that one stands
for is opened anew. -/
def open? (access : Access) (path : Chars) : Run (Except SystemFault Stream) := do
  let s ← get
  if path = "/dev/null".toList then return .ok .nothing
  else
    let held? := (device? path).bind s.stream?
    let place? := match held? with
      | some (.opened number) =>
        (s.world.opened[number]?).bind fun f =>
          match f.holder with
          | .place place => some place
          | .buffer _ => none
      | _ => none
    match held?, place? with
    | some stream, none => return .ok stream
    | _, place? =>
      let name := match place? with
        | some place => FileSystem.pathOf place
        | none => path.text
      match s.world.openFile access name with
      | .ok (stream, world) =>
        set { s with world := world }
        return .ok stream
      | .error fault => return .error fault

def setStream (descriptor : Nat) (stream : Stream) : Run Unit :=
  modify fun s => { s with descriptors := replaceKey descriptor stream s.descriptors }

def copyDescriptor (descriptor : Nat) (source : Chars) : Run Bool := do
  match source with
  | ['-'] =>
    modify fun s => { s with descriptors := removeKey descriptor s.descriptors }
    return true
  | [c] =>
    if c.isDigit then
      match (← get).stream? (c.toNat - '0'.toNat) with
      | some stream =>
        setStream descriptor stream
        return true
      | none =>
        complain (c :: ": Bad file descriptor".toList)
        return false
    else
      abort "Syntax error: Bad fd number".toList
      return false
  | _ =>
    abort "Syntax error: Bad fd number".toList
    return false

def redirect (substitute : Substitution) : List Redirection → Run Bool
  | [] => return true
  | r :: rs => do
    let done ← match r.target with
      | .copy word => copyDescriptor r.descriptor (← wordText substitute word)
      | .document number =>
        let word := ((← get).world.documents[number]?).getD []
        let text ← wordText substitute word
        let (stream, world) := (← get).world.addBuffer text.bytes
        modify fun s => { s with world := world }
        setStream r.descriptor stream
        pure true
      | .file access word =>
        let path ← wordText substitute word
        if !(← isRunning) then pure false
        else
          match ← open? access path with
          | .ok stream =>
            setStream r.descriptor stream
            pure true
          | .error fault =>
            complain (openingComplaint access path fault)
            pure false
    if done ∧ (← isRunning) then redirect substitute rs else return false

/-- Does work with descriptors redirected, and then gives them back. When they cannot be redirected,
the status tells so. -/
def redirected (substitute : Substitution) (rs : List Redirection) (work : Run Unit) :
    Run Unit := do
  let before := (← get).descriptors
  if ← redirect substitute rs then work
  else if ← isRunning then setStatus 2
  modify fun s => { s with descriptors := before }

/-- Ends the script after a failure, if an option says so. -/
def endOnFailure (tested : Bool) : Run Unit := do
  let s ← get
  if !tested ∧ s.status ≠ 0 ∧ s.hasOption 'e' ∧ s.flow = .running then
    set { s with flow := .ended }

/-- How a loop goes on behind its body: whether at all. A flow that is meant for it is used up. -/
def goesOn : Run Bool := do
  let s ← get
  match s.flow with
  | .running => return true
  | .continuing 1 =>
    set { s with flow := .running }
    return true
  | .breaking 1 =>
    set { s with flow := .running }
    return false
  | .breaking n =>
    set { s with flow := .breaking (n - 1) }
    return false
  | .continuing n =>
    set { s with flow := .continuing (n - 1) }
    return false
  | _ => return false

def inLoop (work : Run Unit) : Run Unit := do
  modify fun s => { s with loops := s.loops + 1 }
  work
  modify fun s => { s with loops := s.loops - 1 }

def eachWord (name : Chars) (body : Run Unit) : List Chars → Run Unit
  | [] => return ()
  | word :: words => do
    if ← assign name word then
      body
      if ← goesOn then eachWord name body words

def assignAll (substitute : Substitution) (exporting : Bool) : List Assignment → Run Unit
  | [] => return ()
  | a :: others => do
    let value ← wordText substitute a.value
    if ← isRunning then
      if ← assign a.name value then
        if exporting then mark a.name fun v => { v with exported := true }
        assignAll substitute exporting others

/-- Does work with variables that are given back afterwards. -/
def withAssignments (substitute : Substitution) (assignments : List Assignment) (work : Run Unit) :
    Run Unit := do
  let before ← get
  let saved := assignments.map fun a => (a.name, before.slot? a.name)
  assignAll substitute true assignments
  if ← isRunning then work
  restore saved
where
  restore (saved : List (Chars × Option Variable)) : Run Unit :=
    modify fun s => { s with
      bindings := saved.foldr (fun (name, slot?) bindings =>
        match slot? with
        | some v => replaceKey name v bindings
        | none => removeKey name bindings) s.bindings }

/-- Runs a text as a script: one line of commands after another, up to a fault. -/
def follow (execute : Command → Run Unit) : Nat → Reader → Run Unit
  | 0, _ => return ()
  | fuel + 1, r => do
    if ← isRunning then
      match { r with documents := (← get).world.documents }.next? with
      | .error fault =>
        modify fun s => { s with line := fault.line }
        abort fault.message.toList
      | .ok none => return ()
      | .ok (some (command, r)) =>
        onWorld fun w => { w with documents := r.documents }
        execute command
        follow execute fuel r

def followText (execute : Command → Run Unit) (line : Nat) (text : Chars) : Run Unit := do
  let documents := (← get).world.documents
  follow execute (text.length + 2) (Reader.ofScript text line documents)

/-- Ends a session: what was to be run at its end is run. It may end with a status of its own. -/
def sayFarewell (execute : Command → Run Unit) : Run Unit := do
  let s ← get
  if s.farewell ≠ [] then
    set { s with farewell := [], flow := .running, title := [] }
    followText execute 1 s.farewell
    let t ← get
    if t.flow ≠ .ended then setStatus s.status

def subshell (execute : Command → Run Unit) (work : Run Unit) : Run Unit :=
  apart do
    modify fun s => { s with farewell := [] }
    work
    sayFarewell execute

/-- The output of a script that is put in: without newlines at its end, and without zero bytes. -/
def output (execute : Command → Run Unit) (line : Nat) (text : Chars) : Run Chars := do
  let status := (← get).status
  let (stream, world) := (← get).world.addBuffer []
  modify fun s => { s with world := world }
  subshell execute do
    setStream 1 stream
    followText execute line text
  let bytes := (← get).world.bufferContent stream
  modify fun s => { s with outputStatus := s.status, status := status }
  return (Chars.withoutLast (· = '\n') (.ofBytes bytes)).filter (· ≠ '\x00')

/-- Runs two commands side by side, the second on the output of the first. -/
def piped (execute : Command → Run Unit) (first second : Run Unit) : Run Unit := do
  let (stream, world) := (← get).world.addBuffer []
  modify fun s => { s with world := world }
  subshell execute do
    setStream 1 stream
    first
  subshell execute do
    setStream 0 stream
    second

def call (body : Run Unit) (words : List Chars) : Run Unit := do
  let before ← get
  set { before with arguments := words, loops := 0, calls := before.calls + 1, saved := [] }
  body
  let after ← get
  let bindings := after.saved.foldr (fun (name, slot?) bindings =>
    match slot? with
    | some v => replaceKey name v bindings
    | none => removeKey name bindings) after.bindings
  set { after with
    arguments := before.arguments
    loops := before.loops
    calls := before.calls
    saved := before.saved
    bindings := bindings
    flow := if after.flow = Flow.returning then .running else after.flow }

def exportedVariables : Run (List (Chars × Variable)) :=
  return (← get).bindings.filter fun entry => entry.2.exported && entry.2.value?.isSome

def isPlace (name : Chars) : Run Bool := do
  let files := (← get).world.files
  if name.contains '/' then
    return ((FileSystem.pathOfText name.text).bind files.find).toOption.isSome
  else return false

def notRun (name : Chars) : Run Nat := do
  if ← isPlace name then
    complain (name ++ ": Permission denied".toList)
    return 126
  else
    complain (name ++ (if name = [] then ": Permission denied" else ": not found").toList)
    return 127

def notLaunched (utility : String) (name shown : Chars) : Run Nat := do
  let found ← isPlace name
  let fault : SystemFault := if found then .notPermitted else .notFound
  warn (Utility.complaint utility (shown ++ ": ".toList ++ fault.reason.toList))
  return if found then 126 else 127

end Run

inductive Meaning where
  | function (body : Command)
  | special (action : Action)
  | builtin (action : Action)
  | utility (action : Action)
  | shell
  | unknown

def composingNames : List String := ["eval", ".", "exec", "command", "type"]

def launchingNames : List String := ["env", "xargs"]

/-- What is launched by a name: no function, and nothing that a session carries out by itself. -/
def programMeaning (name : Chars) : Meaning :=
  let called := String.ofList ((Utility.nameIn? name).getD name)
  if name.contains '/' ∧ (Utility.nameIn? name).isNone then .unknown
  else if shellNames.contains called then .shell
  else
    match Utility.action? called with
    | some action => .utility action
    | none => .unknown

def Session.meaning (s : Session) (name : Chars) : Meaning :=
  let text := String.ofList name
  match s.functions.lookup name, Builtin.action? text with
  | some body, none => .function body
  | function?, some action =>
    if Reading.specialNames.contains text then .special action
    else
      match function? with
      | some body => .function body
      | none => .builtin action
  | none, none => programMeaning name

def commandName (name : Chars) : String :=
  let called := String.ofList ((Utility.nameIn? name).getD name)
  if launchingNames.contains called then called else String.ofList name

namespace Run

def explain (name : Chars) : Run Nat := do
  let path := if name.contains '/' then name else "/usr/bin/".toList ++ name
  let text ← match (← get).meaning name with
    | .function _ => pure " is a shell function"
    | .special _ => pure " is a special shell builtin"
    | .builtin _ => pure " is a shell builtin"
    | .utility _ | .shell => pure (" is " ++ String.ofList path)
    | .unknown =>
      if composingNames.contains (String.ofList name) then
        pure (if Reading.specialNames.contains (String.ofList name) then
          " is a special shell builtin" else " is a shell builtin")
      else if keywords.contains (String.ofList name) then pure " is a shell keyword"
      else pure ""
  if text = "" then
    say (name ++ ": not found\n".toList)
    return 127
  else
    say (name ++ text.toList ++ ['\n'])
    return 0

def lookUp (name : Chars) : Run Nat := do
  let answer? := match (← get).meaning name with
    | .utility _ | .shell => some (if name.contains '/' then name else "/usr/bin/".toList ++ name)
    | .unknown =>
      if composingNames.contains (String.ofList name) ∨ keywords.contains (String.ofList name) then
        some name
      else none
    | _ => some name
  match answer? with
  | some answer =>
    say (answer ++ ['\n'])
    return 0
  | none => return 127

structure Launching where
  letters : List Char
  command? : Option Chars
  operands : List Chars

def launching : List Chars → Except Chars Launching
  | [] => .ok ⟨[], none, []⟩
  | word :: words =>
    match word with
    | ['-', '-'] | ['-'] => .ok ⟨[], none, words⟩
    | '-' :: letters =>
      match letters.find? fun c => c ≠ 'c' && !(Builtin.optionNames.map Prod.snd).contains c with
      | some c => .error ("Illegal option -".toList ++ [c])
      | none => (launching words).map fun l => { l with letters := letters ++ l.letters }
    | _ => .ok ⟨[], none, word :: words⟩

def asChild (title : Chars) (work : Run Unit) : Run Unit := do
  let bindings ← exportedVariables
  apart do
    modify fun s =>
      { Session.start title [] bindings s.world with descriptors := s.descriptors }
    work

/-- Runs the shell on the words behind its name: on a text, on a file or on standard input. -/
def launch (execute : Command → Run Unit) (title : Chars) (words : List Chars) : Run Unit := do
  match launching words with
  | .error message =>
    modify fun s => { s with name := title, line := 0 }
    abort message
  | .ok l =>
    modify fun s => { s with name := title, options := l.letters.filter (· ≠ 'c') }
    if l.letters.contains 'c' then
      match l.operands with
      | [] =>
        modify fun s => { s with line := 0 }
        abort "-c requires an argument".toList
      | text :: operands =>
        modify fun s =>
          { s with name := operands.head?.getD title, arguments := operands.tail }
        followText execute 1 text
    else
      match l.operands with
      | [] =>
        let text := (← readAll 0).toOption.getD []
        followText execute 1 text
      | path :: operands =>
        match ← Utility.fetch path with
        | .ok text =>
          modify fun s => { s with name := path, arguments := operands }
          followText execute 1 text
        | .error .isDirectory =>
          modify fun s => { s with name := path, arguments := operands }
        | .error fault =>
          modify fun s => { s with line := 0 }
          abort (openingComplaint .reading path fault)
    sayFarewell execute

def carryOut (execute : Command → Run Unit) (name : Chars) (words : List Chars) :
    Meaning → Run Unit
  | .function body => call (execute body) words
  | .special action | .builtin action => do setStatus (← titled name (action words))
  | .utility action => do setStatus (← action words)
  | .shell => asChild name (launch execute name words)
  | .unknown => do setStatus (← notRun name)

def source (execute : Command → Run Unit) (path : Chars) : Run Unit := do
  if !path.contains '/' then abort (path ++ ": not found".toList)
  else
    match ← Utility.fetch path with
    | .error .isDirectory => setStatus 0
    | .error fault => abort (openingComplaint .reading path fault)
    | .ok text =>
      let before ← get
      setStatus 0
      titled path (followText execute 1 text)
      modify fun s =>
        { s with
          loops := before.loops
          flow := if s.flow = Flow.returning then .running else s.flow }

def launchFor (execute : Command → Run Unit) (perform : List Chars → Run Unit) (utility : String)
    (shown : Chars → Chars) : List Chars → Run Unit
  | [] => return ()
  | name :: words => do
    if launchingNames.contains (commandName name) then perform (name :: words)
    else
      match programMeaning name with
      | .unknown => setStatus (← notLaunched utility name (shown name))
      | meaning => carryOut execute name words meaning

def perform (execute : Command → Run Unit) : Nat → List Chars → Run Unit
  | 0, _ => return ()
  | _ + 1, [] => return ()
  | fuel + 1, name :: words => do
    match commandName name with
    | "eval" =>
      setStatus 0
      titled name (followText execute 1 (Chars.join [' '] words))
    | "." =>
      match words with
      | [] => return ()
      | path :: _ => titled name (source execute path)
    | "exec" =>
      match words with
      | [] => setStatus 0
      | words =>
        titled name (perform execute fuel words)
        modify fun s => { s with flow := .ended }
    | "command" =>
      match words with
      | [] => setStatus 0
      | ['-', 'v'] :: names => setStatus (← lookUp (names.head?.getD []))
      | ['-', 'V'] :: names => setStatus (← explain (names.head?.getD []))
      | ['-', 'p'] :: words => perform execute fuel words
      | words =>
        let functions := (← get).functions
        modify fun s => { s with functions := [] }
        perform execute fuel words
        modify fun s => { s with functions := functions }
    | "type" =>
      let mut status := 0
      for word in words do
        let found ← explain word
        if found ≠ 0 then status := found
      setStatus status
    | "env" =>
      let (assignments, rest) := words.span (·.contains '=')
      apart do
        for word in assignments do
          let (name, value?) := Builtin.nameAndValue word
          let _ ← assign name (value?.getD [])
          mark name fun v => { v with exported := true }
        match rest with
        | [] =>
          for (name, v) in ← exportedVariables do
            say (name ++ '=' :: v.value?.getD [] ++ ['\n'])
          setStatus 0
        | rest => launchFor execute (perform execute fuel) "env" Utility.named rest
    | "xargs" =>
      let text := (← readAll 0).toOption.getD []
      let fields := splitFields [' ', '\t', '\n'] ⟨none, false⟩ (glyphsOf false text)
      let program := if words = [] then ["echo".toList] else words
      let words := program ++ fields.map Field.chars
      apart (launchFor execute (perform execute fuel) "xargs" id words)
    | _ => carryOut execute name words ((← get).meaning name)

def declares (name : Chars) : Bool :=
  ["export", "readonly", "local"].contains (String.ofList name)

/-- The fields of a command's words. Assignments to variables that it declares are not split. -/
def commandFields (substitute : Substitution) (words : List Word) : Run (List Chars) := do
  match words with
  | [] => return []
  | first :: others =>
    let fields ← wordFields substitute [first]
    match fields with
    | [name] =>
      if declares name then
        let texts ← others.mapM fun word =>
          if (Reading.assignment? word).isSome then return [← wordText substitute word]
          else wordFields substitute [word]
        return name :: texts.flatten
      else return name :: (← wordFields substitute others)
    | fields => return fields ++ (← wordFields substitute others)

def trace (assignments : List Assignment) (fields : List Chars) : Run Unit := do
  let s ← get
  if s.hasOption 'x' then
    let assigned := assignments.map fun a => a.name ++ '=' :: (s.value? a.name).getD []
    warn ("+ ".toList ++ Chars.join [' '] (assigned ++ fields) ++ ['\n'])

/-- Whether what is assigned before a command stays, and whether its failure ends the script. -/
def isSpecial (name : Chars) : Bool := Reading.specialNames.contains (String.ofList name)

def simple (execute : Command → Run Unit) (substitute : Substitution)
    (assignments : List Assignment) (words : List Word) (rs : List Redirection) : Run Unit := do
  modify fun s => { s with outputStatus := 0 }
  let fields ← commandFields substitute words
  if ← isRunning then
    let before := (← get).descriptors
    let opened ← redirect substitute rs
    match fields with
    | [] =>
      if opened then
        assignAll substitute false assignments
        if ← isRunning then
          trace assignments []
          modify fun s => { s with status := s.outputStatus }
      else if ← isRunning then setStatus 2
    | name :: _ =>
      if !opened then
        if ← isRunning then
          setStatus 2
          if isSpecial name then modify fun s => { s with flow := .ended }
      else
        let work := do
          trace assignments fields
          perform execute (fields.length + 1) fields
        if isSpecial name then
          assignAll substitute false assignments
          if ← isRunning then work
        else withAssignments substitute assignments work
    if fields ≠ ["exec".toList] ∨ opened = false then
      modify fun s => { s with descriptors := before }

mutual

/-- Runs a command. When its status is tested, its failure does not end the script. -/
def command : Nat → Bool → Command → Run Unit
  | 0, _, _ => modify fun s => { s with status := 2, flow := .ended }
  | fuel + 1, tested, c => do
    let execute := command fuel tested
    let substitute := output (command fuel false)
    if ← isRunning then
      match c with
      | .nothing => setStatus 0
      | .simple line assignments words rs =>
        modify fun s => { s with line := line }
        simple execute substitute assignments words rs
        endOnFailure tested
      | .redirected line body rs =>
        modify fun s => { s with line := line }
        redirected substitute rs (execute body)
        endOnFailure tested
      | .sequence first second =>
        execute first
        execute second
      | .both first second =>
        command fuel true first
        if (← get).status = 0 then execute second
      | .either first second =>
        command fuel true first
        if (← get).status ≠ 0 then execute second
      | .negation body =>
        command fuel true body
        if ← isRunning then modify fun s => { s with status := if s.status = 0 then 1 else 0 }
      | .pipeline first second =>
        piped execute (execute first) (execute second)
        endOnFailure tested
      | .background body =>
        subshell execute do
          setStream 0 .nothing
          command fuel false body
        setStatus 0
      | .subshell body =>
        subshell execute (execute body)
        endOnFailure tested
      | .choice condition positive negative =>
        command fuel true condition
        if ← isRunning then
          if (← get).status = 0 then execute positive else execute negative
      | .loop succeeding condition body =>
        loop fuel tested succeeding condition body 0
      | .each line name words? body =>
        modify fun s => { s with line := line }
        let words ← match words? with
          | some words => wordFields substitute words
          | none => pure (← get).arguments
        if ← isRunning then
          setStatus 0
          inLoop (eachWord name (execute body) words)
      | .select line word branches =>
        modify fun s => { s with line := line }
        let text ← wordText substitute word
        if ← isRunning then
          match ← branches.findM? fun branch => branch.1.anyM fun word => do
              return (← wordPattern substitute word).isMatch text with
          | some (_, body) => execute body
          | none => setStatus 0
      | .define name body =>
        modify fun s => { s with functions := replaceKey name body s.functions, status := 0 }

/-- Repeats a body, with the status that the last time has left. -/
def loop : Nat → Bool → Bool → Command → Command → Nat → Run Unit
  | 0, _, _, _, _, _ => modify fun s => { s with status := 2, flow := .ended }
  | fuel + 1, tested, succeeding, condition, body, status => do
    inLoop (command fuel true condition)
    if ← goesOn then
      if ((← get).status == 0) == succeeding then
        inLoop (command fuel tested body)
        if ← goesOn then
          loop fuel tested succeeding condition body (← get).status
      else setStatus status

end

end Run

/-- How deep commands may be nested, and how often they may be repeated. -/
def patience : Nat := 1000000

def initialVariables (env : Environment) (files : FileSystem) : List (Chars × Variable) :=
  (env.map fun (name, value) => (Chars.ofText name, ⟨some (.ofText value), true, false⟩)) ++
    [("IFS".toList, ⟨some [' ', '\t', '\n'], false, false⟩),
      ("PWD".toList, ⟨some (.ofText (FileSystem.pathOf files.home)), true, false⟩)]

def isProgram (name : Chars) : Bool :=
  let called := String.ofList name
  shellNames.contains called || launchingNames.contains called ||
    (Utility.action? called).isSome

/-- The program that is launched by a name or a path, as it is called in itself. A program is no
directory, so nothing lies in it. -/
def programAt (files : FileSystem) (interpreter : String) : Except SystemFault Chars :=
  let name := Chars.ofText interpreter
  if name.contains '/' then
    let called := (Utility.nameIn? name).getD []
    if isProgram called then .ok name
    else if isProgram (called.takeWhile (· ≠ '/')) then .error .notDirectory
    else do
      let _ ← files.find (← FileSystem.pathOfText interpreter)
      .error .notPermitted
  else if interpreter = "." ∨ interpreter = ".." then .error .notPermitted
  else if FileSystem.isTooLong interpreter then .error .nameTooLong
  else if isProgram name then .ok name
  else .error .notFound

def longestArgument : Nat := 131071

def wordFault? (words : List String) : Option SystemFault :=
  if words.any (·.toList.contains '\x00') then some .zeroInArgument
  else if words.any fun word => Text.byteLength word.toList > longestArgument then
    some .argumentsTooLong
  else none

def runProgram (env : Environment) (program : Chars) (words : List Chars) (files : FileSystem) :
    Exit × FileSystem :=
  let world : World := ⟨files, [], [], [], []⟩
  let start := Session.start program [] (initialVariables env files) world
  let execute := Run.command patience false
  let work :=
    match programMeaning program with
    | .utility action => do Run.setStatus (← action words)
    | .unknown => Run.perform execute (words.length + 1) (program :: words)
    | _ => Run.launch execute program words
  let s := (work.run start).2
  (⟨some (s.status % 256), s.world.output, s.world.errors⟩,
    { s.world.files with home := files.home })

/-- Launches the shell, or a utility that it knows; no other program is there. -/
def launcher (env : Environment) : Launcher := fun launch files =>
  let words := launch.script :: launch.arguments
  match wordFault? (launch.interpreter :: words) with
  | some fault => (.error fault, files)
  | none =>
    match programAt files launch.interpreter with
    | .error fault => (.error fault, files)
    | .ok program =>
      let (exit, files) := runProgram env program (words.map Chars.ofText) files
      (.ok exit, files)

end SchemaContract.Shell
