import SchemaContract.Files.FileSystem

/-!
Snapshots: file systems that hold what lies along some paths, and what differs between two of them.
-/
namespace SchemaContract.FileSystem

def placesAlong (place : List String) : List String → List (List String)
  | [] => []
  | step :: steps =>
    let next :=
      if step = "." then place
      else if step = ".." then place.dropLast
      else place ++ [step]
    next :: placesAlong next steps

def placesOf (fs : FileSystem) (path : String) : List (List String) :=
  let p := Path.ofText path.toList
  placesAlong (if p.absolute then [] else fs.home) p.steps

def changesSince (fs before : FileSystem) : List (List String × Node) :=
  fs.entries.filter fun entry => before.node? entry.1 ≠ some entry.2

/-- The places where something stood before and nothing does now. -/
def removalsSince (fs before : FileSystem) : List (List String) :=
  (before.entries.filter fun entry => fs.node? entry.1 = none).map Prod.fst

end SchemaContract.FileSystem
