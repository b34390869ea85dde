/-!
Paths: as text, and as what a walk along them needs, namely where it begins, its steps, and whether
it must end at a directory.
-/
namespace SchemaContract

structure Path where
  absolute : Bool
  steps : List String
  /-- Whether a slash follows the last step, so that only a directory will do. -/
  closed : Bool
deriving DecidableEq, Repr

namespace Path

/-- A path below another. No slash is put behind an empty path, nor a second one. -/
def join (left right : String) : String :=
  if left = "" ∨ left.toList.getLast? = some '/' then left ++ right else left ++ "/" ++ right

def splitSlashes : List Char → List (List Char)
  | [] => [[]]
  | c :: cs =>
    if c = '/' then [] :: splitSlashes cs
    else
      match splitSlashes cs with
      | [] => [[c]]
      | part :: parts => (c :: part) :: parts

/-- The path that a text spells. Slashes that follow each other count as one. -/
def ofText (text : List Char) : Path where
  absolute := text.head? == some '/'
  steps := ((splitSlashes text).filter (· ≠ [])).map String.ofList
  closed := text.getLast? == some '/'

def firstParts {α : Type} : List α → List (List α)
  | [] => []
  | x :: xs => (firstParts xs).map (x :: ·) ++ [[x]]

/-- The steps of a path without single dots, which stay where they are. A dot that a relative path
begins with is kept. -/
def movingSteps (p : Path) : List String :=
  match p.absolute, p.steps with
  | false, "." :: steps => "." :: steps.filter (· ≠ ".")
  | _, steps => steps.filter (· ≠ ".")

def ancestors (p : Path) : List Path :=
  (firstParts p.movingSteps).tail.map fun steps => ⟨p.absolute, steps, false⟩

example : join "a" "b" = "a/b" ∧ join "a/" "b" = "a/b" ∧ join "" "b" = "b" := by cbv
example : ofText "./a//b/".toList = ⟨false, [".", "a", "b"], true⟩ := by cbv
example : (ofText "a/./b/../c/.".toList).ancestors.map steps =
    [["a", "b", ".."], ["a", "b"], ["a"]] := by cbv

end Path
end SchemaContract
