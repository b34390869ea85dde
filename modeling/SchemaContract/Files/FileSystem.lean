import SchemaContract.Files.Path
import SchemaContract.Text.Utf8

/-!
File systems as values: directories, files and what they hold, and the faults of reading and
writing. A place is the list of names that leads to it from the root. Paths are walked step by step,
and every step but the last must come to a directory, also when a later one leads back out of it.
-/
namespace SchemaContract

def EndsWithin (s : String) : Prop :=
  ∃ c ∈ s.toList.getLast?, c ≠ '\n'

structure Phrase where
  text : String
  endsWithin : EndsWithin text
deriving DecidableEq, Repr

inductive SystemFault where
  | notFound
  | argumentsTooLong
  | notPermitted
  | exists
  | notDirectory
  | isDirectory
  | nameTooLong
  | notEmpty
  | zeroInPath
  | zeroInArgument
  /-- Any other fault that the operating system has a number for. -/
  | numbered (reason : String) (number : Nat)
  /-- Any other fault without a number. -/
  | unnumbered (phrase : Phrase)
deriving DecidableEq, Repr

namespace SystemFault

def reason : SystemFault → String
  | notFound => "No such file or directory"
  | argumentsTooLong => "Argument list too long"
  | notPermitted => "Permission denied"
  | «exists» => "File exists"
  | notDirectory => "Not a directory"
  | isDirectory => "Is a directory"
  | nameTooLong => "File name too long"
  | notEmpty => "Directory not empty"
  | zeroInPath => "file name contained an unexpected NUL byte"
  | zeroInArgument => "nul byte found in provided data"
  | numbered reason _ => reason
  | unnumbered phrase => phrase.text

def number? : SystemFault → Option Nat
  | notFound => some 2
  | argumentsTooLong => some 7
  | notPermitted => some 13
  | «exists» => some 17
  | notDirectory => some 20
  | isDirectory => some 21
  | nameTooLong => some 36
  | notEmpty => some 39
  | numbered _ number => some number
  | zeroInPath | zeroInArgument | unnumbered _ => none

def message (fault : SystemFault) : String :=
  match fault.number? with
  | some n => fault.reason ++ " (os error " ++ Nat.repr n ++ ")"
  | none => fault.reason

end SystemFault

inductive Node where
  | directory
  | file (content : List UInt8)
deriving DecidableEq, Repr

structure FileSystem where
  /-- The place of the current directory. -/
  home : List String
  entries : List (List String × Node)

/-- Where a walk ends: in a directory that it has come to, or at a name in one, perhaps free. -/
inductive Destination where
  | directory (place : List String)
  | entry (place : List String) (closed : Bool)
deriving DecidableEq, Repr

namespace FileSystem

def empty (home : List String) : FileSystem :=
  ⟨home, (Path.firstParts home).map fun place => (place, .directory)⟩

def pathOf (place : List String) : String := "/" ++ "/".intercalate place

/-- What stands at a place. The root is always there. -/
def node? (fs : FileSystem) (place : List String) : Option Node :=
  if place = [] then some .directory else fs.entries.lookup place

def putEntry (place : List String) (node : Node) :
    List (List String × Node) → List (List String × Node)
  | [] => [(place, node)]
  | entry :: entries =>
    if entry.1 = place then (place, node) :: entries else entry :: putEntry place node entries

def put (fs : FileSystem) (place : List String) (node : Node) : FileSystem :=
  { fs with entries := putEntry place node fs.entries }

def erase (fs : FileSystem) (place : List String) : FileSystem :=
  { fs with entries := fs.entries.filter fun entry => !place.isPrefixOf entry.1 }

/-- The names in a directory, in no particular order. -/
def namesIn (fs : FileSystem) (place : List String) : List String :=
  fs.entries.filterMap fun entry =>
    if entry.1.dropLast = place then entry.1.getLast? else none

def longestName : Nat := 255

def isTooLong (name : String) : Bool := Text.byteLength name.toList > longestName

def longestPath : Nat := 4095

def enter (fs : FileSystem) (place : List String) (step : String) :
    Except SystemFault (List String) :=
  if step = "." then .ok place
  else if step = ".." then .ok place.dropLast
  else if isTooLong step then .error .nameTooLong
  else
    match fs.node? (place ++ [step]) with
    | some .directory => .ok (place ++ [step])
    | some (.file _) => .error .notDirectory
    | none => .error .notFound

def walk (fs : FileSystem) (place : List String) : List String → Except SystemFault (List String)
  | [] => .ok place
  | step :: steps => do walk fs (← fs.enter place step) steps

def destination (fs : FileSystem) (p : Path) : Except SystemFault Destination := do
  let start := if p.absolute then [] else fs.home
  match p.steps.getLast? with
  | none => if p.absolute then .ok (.directory start) else .error .notFound
  | some last =>
    let place ← fs.walk start p.steps.dropLast
    if last = "." then .ok (.directory place)
    else if last = ".." then .ok (.directory place.dropLast)
    else .ok (.entry (place ++ [last]) p.closed)

def pathOfText (text : String) : Except SystemFault Path :=
  if text.toList.contains '\x00' then .error .zeroInPath
  else if Text.byteLength text.toList > longestPath then .error .nameTooLong
  else .ok (Path.ofText text.toList)

/-- Whether a place has a name that is too long to stand anywhere. -/
def isUnnameable (place : List String) : Bool := (place.getLast?.map isTooLong).getD false

def find (fs : FileSystem) (p : Path) : Except SystemFault (List String × Node) := do
  match ← fs.destination p with
  | .directory place => .ok (place, .directory)
  | .entry place closed =>
    if isUnnameable place then .error .nameTooLong
    else
      match fs.node? place with
      | none => .error .notFound
      | some .directory => .ok (place, .directory)
      | some (.file content) =>
        if closed then .error .notDirectory else .ok (place, .file content)

def read (fs : FileSystem) (path : String) : Except SystemFault (List UInt8) := do
  match ← fs.find (← pathOfText path) with
  | (_, .directory) => .error .isDirectory
  | (_, .file content) => .ok content

/-- The place of the file that a path leads to, for writing. There may be none yet. -/
def placeToWrite (fs : FileSystem) (path : String) : Except SystemFault (List String) := do
  match ← fs.destination (← pathOfText path) with
  | .directory _ => .error .isDirectory
  | .entry place closed =>
    if closed then .error .isDirectory
    else if isUnnameable place then .error .nameTooLong
    else
      match fs.node? place with
      | some .directory => .error .isDirectory
      | _ => .ok place

def write (fs : FileSystem) (path : String) (content : List UInt8) :
    Except SystemFault FileSystem := do
  .ok (fs.put (← fs.placeToWrite path) (.file content))

def makeDirectory (fs : FileSystem) (p : Path) : Except SystemFault FileSystem := do
  match ← fs.destination p with
  | .directory _ => .error .exists
  | .entry place _ =>
    if isUnnameable place then .error .nameTooLong
    else
      match fs.node? place with
      | some _ => .error .exists
      | none => .ok (fs.put place .directory)

def isDirectory (fs : FileSystem) (p : Path) : Bool :=
  match fs.find p with
  | .ok (_, .directory) => true
  | _ => false

def settleDirectory (fs : FileSystem) (p : Path) : Except SystemFault FileSystem :=
  match fs.makeDirectory p with
  | .ok fs => .ok fs
  | .error fault => if fs.isDirectory p then .ok fs else .error fault

/-- Makes the first of the paths a directory. Each path is followed by the one above it, which is
made a directory first where that is needed. Directories that were made before a fault stay. -/
def settleDirectories (fs : FileSystem) : List Path → Except SystemFault Unit × FileSystem
  | [] => (.ok (), fs)
  | p :: above =>
    match fs.settleDirectory p with
    | .ok fs => (.ok (), fs)
    | .error .notFound =>
      match settleDirectories fs above with
      | (.error fault, fs) => (.error fault, fs)
      | (.ok (), fs) =>
        match fs.settleDirectory p with
        | .ok fs => (.ok (), fs)
        | .error fault => (.error fault, fs)
    | .error fault => (.error fault, fs)

/-- Makes a directory and those above it. The empty path is the current directory. -/
def createDirectories (fs : FileSystem) (path : String) : Except SystemFault Unit × FileSystem :=
  match pathOfText path with
  | .error fault => (.error fault, fs)
  | .ok p => if p.steps = [] then (.ok (), fs) else fs.settleDirectories (p :: p.ancestors)

theorem lookup_putEntry_self (place : List String) (node : Node)
    (entries : List (List String × Node)) :
    (putEntry place node entries).lookup place = some node := by
  induction entries with
  | nil => simp [putEntry]
  | cons entry entries ih =>
    obtain ⟨other, stored⟩ := entry
    by_cases h : other = place
    · simp [putEntry, h]
    · have hp : (place == other) = false := beq_false_of_ne (Ne.symm h)
      simp [putEntry, h, List.lookup_cons, hp, ih]

theorem lookup_putEntry_of_ne {place other : List String} (h : other ≠ place) (node : Node)
    (entries : List (List String × Node)) :
    (putEntry place node entries).lookup other = entries.lookup other := by
  have hp : (other == place) = false := beq_false_of_ne h
  induction entries with
  | nil => simp [putEntry, List.lookup_cons, hp]
  | cons entry entries ih =>
    obtain ⟨stored, _⟩ := entry
    by_cases he : stored = place
    · simp [putEntry, List.lookup_cons, he, hp]
    · simp [putEntry, List.lookup_cons, he, ih]

theorem node?_put_self {place : List String} (h : place ≠ []) (fs : FileSystem) (node : Node) :
    (fs.put place node).node? place = some node := by
  simp [node?, put, h, lookup_putEntry_self]

theorem node?_put_of_ne {place other : List String} (h : other ≠ place) (fs : FileSystem)
    (node : Node) : (fs.put place node).node? other = fs.node? other := by
  simp [node?, put, lookup_putEntry_of_ne h]

end FileSystem
end SchemaContract
