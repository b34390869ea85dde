import SchemaContract.Shell.Utility.Options

/-!
Utilities on files and their names: `ls`, `cp`, `mv`, `rm`, `mkdir`, `rmdir`, `touch`, `basename`
and `dirname`.
-/
namespace SchemaContract.Shell.Utility

def nodeAt (path : Chars) : Run (Except SystemFault (List String × Node)) := do
  let files := (← get).world.files
  return (FileSystem.pathOfText path.text).bind files.find

def setFiles (files : FileSystem) : Run Unit :=
  Run.onWorld fun w => { w with files := files }

def because (fault : SystemFault) : Chars := ": ".toList ++ fault.reason.toList

def missing (utility : String) (message : Chars) (status : Nat) : Run Nat := do
  Run.warn (complaint utility message ++ tryHelp utility)
  return status

def withoutSlashes (path : Chars) : Chars := Chars.withoutLast (· = '/') path

def lastName (path : Chars) : Chars :=
  if path ≠ [] ∧ withoutSlashes path = [] then ['/']
  else ((Chars.split '/' (withoutSlashes path)).getLast?).getD []

def parentName (path : Chars) : Chars :=
  if path ≠ [] ∧ withoutSlashes path = [] then ['/']
  else
    let parts := Chars.split '/' (withoutSlashes path)
    match Chars.join ['/'] parts.dropLast with
    | [] => if parts.length > 1 then ['/'] else ['.']
    | parent => if withoutSlashes parent = [] then ['/'] else withoutSlashes parent

def withoutSuffix (suffix name : Chars) : Chars :=
  if suffix ≠ name ∧ suffix.isSuffixOf name = true then name.take (name.length - suffix.length)
  else name

def basename : Action :=
  withOptions ⟨"basename", "a", "s", [("multiple", 'a'), ("suffix", 's')]⟩ 1 fun p => do
    match p.operands with
    | [] => missing "basename" "missing operand".toList 1
    | operands =>
      if p.has 'a' ∨ p.has 's' then
        for path in operands do
          Run.say (withoutSuffix ((p.value? 's').getD []) (lastName path) ++ ['\n'])
        return 0
      else
        match operands with
        | _ :: _ :: extra :: _ =>
          missing "basename" ("extra operand ".toList ++ named extra) 1
        | path :: others =>
          Run.say (withoutSuffix (others.head?.getD []) (lastName path) ++ ['\n'])
          return 0
        | [] => return 0

def dirname : Action := withOptions ⟨"dirname", "", "", []⟩ 1 fun p => do
  if p.operands = [] then missing "dirname" "missing operand".toList 1
  else
    for path in p.operands do
      Run.say (parentName path ++ ['\n'])
    return 0

/-- The names in a directory in order, as options ask for them. -/
def listing (p : Parsed) (files : FileSystem) (place : List String) : List Chars :=
  let names := (files.namesIn place).map Chars.ofText
  let all := if p.has 'a' then [['.'], ['.', '.']] ++ names else names
  let shown := if p.has 'a' ∨ p.has 'A' then all else all.filter fun name => name.head? != some '.'
  let sorted := shown.mergeSort Chars.isAtMost
  let ordered := if p.has 'r' then sorted.reverse else sorted
  ordered.map fun name =>
    if (p.has 'F' ∨ p.has 'p') ∧
        files.node? (place ++ [name.text]) = some .directory then name ++ ['/']
    else name

def listLines (names : List Chars) : Chars := names.flatMap fun name => name ++ ['\n']

def ls : Action := withOptions ⟨"ls", "1aAdrFp", "", [("all", 'a')]⟩ 2 fun p => do
  let files := (← get).world.files
  let operands := if p.operands = [] then [['.']] else p.operands
  let mut status := 0
  let mut plain : List Chars := []
  let mut directories : List (Chars × List String) := []
  for path in operands.mergeSort Chars.isAtMost do
    match ← nodeAt path with
    | .error fault =>
      Run.warn (complaint "ls" ("cannot access ".toList ++ named path ++ because fault))
      status := 2
    | .ok (place, .directory) =>
      if p.has 'd' then plain := plain ++ [path]
      else directories := directories ++ [(path, place)]
    | .ok (_, .file _) => plain := plain ++ [path]
  Run.say (listLines plain)
  let mut first := plain.isEmpty
  for (path, place) in directories do
    if operands.length > 1 then
      Run.say ((if first then [] else ['\n']) ++ path ++ ":\n".toList)
    Run.say (listLines (listing p files place))
    first := false
  return status

def copyTree (files : FileSystem) (source target : List String) : FileSystem :=
  files.entries.foldl (fun files entry =>
    if source.isPrefixOf entry.1 then
      files.put (target ++ entry.1.drop source.length) entry.2
    else files) files

/-- The place that something is copied or moved to: below a directory, under its own name. -/
def targetPlace (files : FileSystem) (source target : Chars) :
    Except SystemFault (List String) := do
  let p ← FileSystem.pathOfText target.text
  match files.find p with
  | .ok (place, .directory) => .ok (place ++ [(lastName source).text])
  | .ok (place, .file _) => .ok place
  | .error .notFound =>
    match ← files.destination p with
    | .entry place _ => .ok place
    | .directory _ => .error .notFound
  | .error fault => .error fault

/-- The sources and the target of a copy or a move, unless they are refused. -/
def transferred (utility : String) (operands : List Chars) : Run (Option (List Chars × Chars)) := do
  match operands with
  | [] =>
    let _ ← missing utility "missing file operand".toList 1
    return none
  | [path] =>
    let _ ← missing utility ("missing destination file operand after ".toList ++ named path) 1
    return none
  | operands =>
    let target := operands.getLast?.getD []
    match operands.dropLast, ← nodeAt target with
    | [source], _ => return some ([source], target)
    | sources, .ok (_, .directory) => return some (sources, target)
    | _, .ok _ =>
      Run.warn (complaint utility
        ("target ".toList ++ named target ++ because .notDirectory))
      return none
    | _, .error fault =>
      Run.warn (complaint utility ("target ".toList ++ named target ++ because fault))
      return none

def cp : Action := withOptions ⟨"cp", "rRafp", "", [("recursive", 'r')]⟩ 1 fun p => do
  match ← transferred "cp" p.operands with
  | none => return 1
  | some (sources, target) =>
    let mut status := 0
    for source in sources do
      let files := (← get).world.files
      match ← nodeAt source, targetPlace files source target with
      | .error fault, _ =>
        Run.warn (complaint "cp" ("cannot stat ".toList ++ named source ++ because fault))
        status := 1
      | .ok (_, .file _), .error fault =>
        Run.warn (complaint "cp"
          ("cannot create regular file ".toList ++ named target ++ because fault))
        status := 1
      | .ok (place, .file content), .ok goal =>
        if place = goal then
          Run.warn (complaint "cp"
            (named source ++ " and ".toList ++ named target ++ " are the same file".toList))
          status := 1
        else setFiles (files.put goal (.file content))
      | .ok (place, .directory), goal? =>
        if !p.has 'r' ∧ !p.has 'R' ∧ !p.has 'a' then
          Run.warn (complaint "cp" ("-r not specified; omitting directory ".toList ++ named source))
          status := 1
        else
          match goal? with
          | .ok goal => setFiles (copyTree files place goal)
          | .error fault =>
            Run.warn (complaint "cp"
              ("cannot create directory ".toList ++ named target ++ because fault))
            status := 1
    return status

def mv : Action := withOptions ⟨"mv", "fn", "", [("force", 'f')]⟩ 1 fun p => do
  match ← transferred "mv" p.operands with
  | none => return 1
  | some (sources, target) =>
    let mut status := 0
    for source in sources do
      let files := (← get).world.files
      match ← nodeAt source, targetPlace files source target with
      | .error fault, _ =>
        Run.warn (complaint "mv" ("cannot stat ".toList ++ named source ++ because fault))
        status := 1
      | .ok _, .error fault =>
        Run.warn (complaint "mv" ("cannot move ".toList ++ named source ++ " to ".toList ++
          named target ++ because fault))
        status := 1
      | .ok (place, _), .ok goal =>
        if place = goal then
          Run.warn (complaint "mv"
            (named source ++ " and ".toList ++ named target ++ " are the same file".toList))
          status := 1
        else
          let moved := files.entries.filterMap fun entry =>
            if place.isPrefixOf entry.1 then some (goal ++ entry.1.drop place.length, entry.2)
            else none
          setFiles (moved.foldl (fun files (place, node) => files.put place node)
            (files.erase place))
    return status

def rm : Action :=
  withOptions ⟨"rm", "rRfdv", "", [("recursive", 'r'), ("force", 'f')]⟩ 1 fun p => do
    if p.operands = [] ∧ !p.has 'f' then missing "rm" "missing operand".toList 1
    else
      let mut status := 0
      for path in p.operands do
        let files := (← get).world.files
        match ← nodeAt path with
        | .error fault =>
          if !p.has 'f' then
            Run.warn (complaint "rm" ("cannot remove ".toList ++ named path ++ because fault))
            status := 1
        | .ok (place, .file _) => setFiles (files.erase place)
        | .ok (place, .directory) =>
          if p.has 'r' ∨ p.has 'R' then setFiles (files.erase place)
          else
            Run.warn (complaint "rm"
              ("cannot remove ".toList ++ named path ++ because .isDirectory))
            status := 1
      return status

/-- Makes a directory and tells of the first one that cannot be made. -/
def makeAll (files : FileSystem) (path : Chars) : Except (Chars × SystemFault) FileSystem :=
  let p := Path.ofText path.text.toList
  let below := p.ancestors.reverse ++ [p]
  below.foldlM (fun files p =>
    match files.settleDirectory p with
    | .ok files => .ok files
    | .error fault =>
      let text := (if p.absolute then "/" else "") ++ "/".intercalate p.steps
      let reason := if fault = .exists ∧ p.steps.length < below.length then .notDirectory else fault
      .error (.ofText text, reason)) files

def mkdir : Action := withOptions ⟨"mkdir", "pv", "m", [("parents", 'p')]⟩ 1 fun p => do
  if p.operands = [] then missing "mkdir" "missing operand".toList 1
  else
    let mut status := 0
    for path in p.operands do
      let files := (← get).world.files
      let made :=
        if p.has 'p' then makeAll files path
        else
          match (FileSystem.pathOfText path.text).bind files.makeDirectory with
          | .ok files => .ok files
          | .error fault => .error (path, fault)
      match made with
      | .ok files => setFiles files
      | .error (path, fault) =>
        Run.warn (complaint "mkdir"
          ("cannot create directory ".toList ++ named path ++ because fault))
        status := 1
    return status

def rmdir : Action := withOptions ⟨"rmdir", "", "", []⟩ 1 fun p => do
  if p.operands = [] then missing "rmdir" "missing operand".toList 1
  else
    let mut status := 0
    for path in p.operands do
      let files := (← get).world.files
      let fault? ← match ← nodeAt path with
        | .error fault => pure (some fault)
        | .ok (_, .file _) => pure (some .notDirectory)
        | .ok (place, .directory) =>
          if files.namesIn place = [] then do
            setFiles (files.erase place)
            pure none
          else pure (some .notEmpty)
      if let some fault := fault? then
        Run.warn (complaint "rmdir" ("failed to remove ".toList ++ named path ++ because fault))
        status := 1
    return status

def touch : Action := withOptions ⟨"touch", "acm", "dt", [("no-create", 'c')]⟩ 1 fun p => do
  if p.operands = [] then missing "touch" "missing file operand".toList 1
  else
    let mut status := 0
    for path in p.operands do
      match ← nodeAt path with
      | .ok _ => pure ()
      | .error fault =>
        if !p.has 'c' then
          match (← get).world.files.write path.text [] with
          | .ok files => setFiles files
          | .error other =>
            let fault := if fault = .notFound then other else fault
            Run.warn (complaint "touch" ("cannot touch ".toList ++ named path ++ because fault))
            status := 1
    return status

end SchemaContract.Shell.Utility
