import SchemaContract.CommandLine
import SchemaContract.Files.Snapshot
import SchemaContract.Shell.Run

/-!
The program: it takes a snapshot of the files that its command is about, runs the command line on
it, and writes back what has changed.
-/
open SchemaContract

/-- What stands at a path, if anything does. -/
def nodeAt (path : String) : IO (Option Node) := do
  let file := (← IO.currentDir) / path
  if ← file.isDir then return some .directory
  else if ← file.pathExists then return some (.file (← IO.FS.readBinFile file).toList)
  else return none

def loadPlaces (fs : FileSystem) : List (List String) → IO FileSystem
  | [] => return fs
  | place :: places => do
    match ← nodeAt (FileSystem.pathOf place) with
    | some node => loadPlaces (fs.put place node) places
    | none => loadPlaces fs places

def saveChanges : List (List String × Node) → IO Unit
  | [] => return ()
  | (place, node) :: changes => do
    match node with
    | .directory => IO.FS.createDirAll (FileSystem.pathOf place)
    | .file content => IO.FS.writeBinFile (FileSystem.pathOf place) ⟨content.toArray⟩
    saveChanges changes

def carryOutRemovals : List (List String) → IO Unit
  | [] => return ()
  | place :: places => do
    match ← nodeAt (FileSystem.pathOf place) with
    | some .directory => IO.FS.removeDirAll (FileSystem.pathOf place)
    | some (.file _) => IO.FS.removeFile (FileSystem.pathOf place)
    | none => pure ()
    carryOutRemovals places

def environment (names : List String) : IO Environment := do
  let values ← names.mapM fun name => do
    return (← IO.getEnv name).map fun value => (name, value)
  return values.filterMap id

def main (words : List String) : IO UInt32 := do
  let env ← environment
    [Settings.rootVariable, Settings.interpreterVariable, Settings.scratchVariable]
  let home := toString (← IO.currentDir)
  let paths := match CommandLine.Command.read words with
    | .ok command => command.paths env home
    | .error _ => []
  let start := FileSystem.empty (Path.ofText home.toList).steps
  let before ← loadPlaces start (paths.flatMap start.placesOf)
  let (outcome, fs) := CommandLine.run words env (Shell.launcher env) before
  carryOutRemovals (fs.removalsSince before)
  saveChanges (fs.changesSince before)
  IO.print outcome.output
  IO.eprint outcome.errors
  return .ofNat outcome.code
