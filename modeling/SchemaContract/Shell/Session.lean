import SchemaContract.Engine.Settings
import SchemaContract.Shell.Integer
import SchemaContract.Shell.Stream

/-!
Sessions: scripts while they run, with their parameters, functions, descriptors and the world that
they share with other sessions.
-/
namespace SchemaContract.Shell

structure Variable where
  /-- The value; a variable may be marked without having one. -/
  value? : Option Chars
  exported : Bool
  fixed : Bool
deriving DecidableEq, Repr

/-- Where a script goes on. Loops are left or gone on with by their number from within. -/
inductive Flow where
  | running
  | breaking (loops : Nat)
  | continuing (loops : Nat)
  | returning
  | ended
deriving DecidableEq, Repr

structure Session where
  name : Chars
  arguments : List Chars
  bindings : List (Chars × Variable)
  functions : List (Chars × Command)
  options : List Char
  status : Nat
  /-- The status of the last script whose output was put in. -/
  outputStatus : Nat
  line : Nat
  title : Chars
  loops : Nat
  calls : Nat
  /-- The variables to be restored behind the function that runs. -/
  saved : List (Chars × Option Variable)
  flow : Flow
  /-- What is run when the session ends. -/
  farewell : Chars
  descriptors : List (Nat × Stream)
  world : World

abbrev Run := StateM Session

/-- A list with the value of a key replaced, or the key put behind the others. -/
def replaceKey {α β : Type} [BEq α] (key : α) (value : β) : List (α × β) → List (α × β)
  | [] => [(key, value)]
  | (k, v) :: others =>
    if k == key then (key, value) :: others else (k, v) :: replaceKey key value others

def removeKey {α β : Type} [BEq α] (key : α) (entries : List (α × β)) : List (α × β) :=
  entries.filter fun entry => entry.1 != key

namespace Session

def slot? (s : Session) (name : Chars) : Option Variable := s.bindings.lookup name

def value? (s : Session) (name : Chars) : Option Chars := (s.slot? name).bind Variable.value?

def stream? (s : Session) (descriptor : Nat) : Option Stream := s.descriptors.lookup descriptor

def hasOption (s : Session) (c : Char) : Bool := s.options.contains c

def separators (s : Session) : Chars := (s.value? "IFS".toList).getD [' ', '\t', '\n']

def joint (s : Session) : Chars := s.separators.take 1

def start (name : Chars) (arguments : List Chars) (bindings : List (Chars × Variable))
    (world : World) : Session where
  name := name
  arguments := arguments
  bindings := bindings
  functions := []
  options := []
  status := 0
  outputStatus := 0
  line := 0
  title := []
  loops := 0
  calls := 0
  saved := []
  flow := .running
  farewell := []
  descriptors := [(0, .nothing), (1, .output), (2, .errors)]
  world := world

end Session

namespace Run

def isRunning : Run Bool := return (← get).flow == .running

def setStatus (status : Nat) : Run Unit := modify fun s => { s with status := status }

def onWorld (f : World → World) : Run Unit := modify fun s => { s with world := f s.world }

def emit (descriptor : Nat) (cs : Chars) : Run Bool := do
  match (← get).stream? descriptor with
  | some stream =>
    onWorld (·.write stream cs.bytes)
    return true
  | none => return false

def say (cs : Chars) : Run Unit := do
  let _ ← emit 1 cs

def warn (cs : Chars) : Run Unit := do
  let _ ← emit 2 cs

def readAll (descriptor : Nat) : Run (Except SystemFault Chars) := do
  match (← get).stream? descriptor with
  | none => return .ok []
  | some stream =>
    match (← get).world.ahead stream with
    | .error fault => return .error fault
    | .ok bytes =>
      onWorld (·.advance stream bytes.length)
      return .ok (.ofBytes bytes)

def readLine (descriptor : Nat) : Run Chars := do
  match (← get).stream? descriptor with
  | none => return []
  | some stream =>
    let bytes := ((← get).world.ahead stream).toOption.getD []
    let line := ((Chars.lines (.ofBytes bytes)).head?).getD []
    onWorld (·.advance stream line.length)
    return line

def complain (message : Chars) : Run Unit := do
  let s ← get
  let title := if s.title = [] then [] else s.title ++ ": ".toList
  warn (s.name ++ ": ".toList ++ .ofNat s.line ++ ": ".toList ++ title ++ message ++ ['\n'])

def abort (message : Chars) : Run Unit := do
  complain message
  modify fun s => { s with status := 2, flow := .ended }

def mark (name : Chars) (change : Variable → Variable) : Run Unit :=
  modify fun s =>
    let v := (s.slot? name).getD ⟨none, false, false⟩
    { s with bindings := replaceKey name (change v) s.bindings }

/-- Gives a variable a value. A fixed variable ends the script instead. -/
def assign (name value : Chars) : Run Bool := do
  let s ← get
  if ((s.slot? name).map Variable.fixed).getD false then
    abort (name ++ ": is read only".toList)
    return false
  else
    let exporting := s.hasOption 'a'
    mark name fun v => { v with value? := some value, exported := v.exported || exporting }
    return true

def titled {α : Type} (title : Chars) (work : Run α) : Run α := do
  let before := (← get).title
  modify fun s => { s with title := title }
  let result ← work
  modify fun s => { s with title := before }
  return result

/-- Runs what has an environment of its own: of what it does, only the world and the status
stay, and the current directory is the one before. -/
def apart {α : Type} (work : Run α) : Run α := do
  let before ← get
  let result ← work
  let after ← get
  let files := { after.world.files with home := before.world.files.home }
  set { before with status := after.status, world := { after.world with files := files } }
  return result

end Run
end SchemaContract.Shell
