import SchemaContract.Files.FileSystem
import SchemaContract.Shell.Pattern

/-!
Fields: what a word becomes when it is split at separators, and the names of the files that a field
is a pattern of.
-/
namespace SchemaContract.Shell

inductive Glyph where
  | letter (l : Letter) (puttedIn : Bool)
  | quotes
  | border
deriving DecidableEq, Repr

abbrev Field := List Letter

structure FieldState where
  field? : Option Field
  /-- Whether the last field ended with a blank, so that one other separator may follow. -/
  blankBefore : Bool

def isBlankSeparator (c : Char) : Bool := c == ' ' || c == '\t' || c == '\n'

/-- The fields of a word. Separators that are blanks count as one where they follow each other; each
other separator ends a field, also an empty one. -/
def splitFields (separators : Chars) (state : FieldState) : List Glyph → List Field
  | [] => state.field?.toList
  | .quotes :: glyphs =>
    splitFields separators ⟨some (state.field?.getD []), false⟩ glyphs
  | .border :: glyphs => state.field?.toList ++ splitFields separators ⟨none, false⟩ glyphs
  | .letter l puttedIn :: glyphs =>
    if puttedIn && !l.quoted && separators.contains l.char then
      if isBlankSeparator l.char then
        match state.field? with
        | some field => field :: splitFields separators ⟨none, true⟩ glyphs
        | none => splitFields separators state glyphs
      else
        match state.field?, state.blankBefore with
        | some field, _ => field :: splitFields separators ⟨none, false⟩ glyphs
        | none, true => splitFields separators ⟨none, false⟩ glyphs
        | none, false => [] :: splitFields separators ⟨none, false⟩ glyphs
    else splitFields separators ⟨some (state.field?.getD [] ++ [l]), false⟩ glyphs

def fieldsOf (separators : Chars) (glyphs : List Glyph) : List Field :=
  splitFields separators ⟨none, false⟩ glyphs

def lettersOf (glyphs : List Glyph) : List Letter :=
  glyphs.filterMap fun
    | .letter l _ => some l
    | .quotes => none
    | .border => some ⟨' ', true⟩

def Field.steps : Field → List Field
  | [] => [[]]
  | l :: ls =>
    if l.char = '/' then [] :: Field.steps ls
    else
      match Field.steps ls with
      | [] => [[l]]
      | step :: steps => (l :: step) :: steps

def Field.chars (field : Field) : Chars := field.map Letter.char

/-- The names in the directory that a text leads to: itself and the one above come first. -/
def namesAt (fs : FileSystem) (base : Chars) : List Chars :=
  let path := if base = [] then "." else base.text
  match fs.find (Path.ofText path.toList) with
  | .ok (place, .directory) => (["." , ".."] ++ fs.namesIn place).map Chars.ofText
  | _ => []

/-- Whether a name fits a pattern. A dot at its front must be met by a dot. -/
def fitsName (step : Field) (name : Chars) : Bool :=
  (name.head? != some '.' || (step.head?.map Letter.char) == some '.') &&
    (Pattern.ofWord step).isMatch name

def pathsBelow (fs : FileSystem) (base : Chars) : List Field → List Chars
  | [] => [base]
  | step :: steps =>
    let names := if hasPattern step then (namesAt fs base).filter (fitsName step) else [step.chars]
    names.flatMap fun name =>
      pathsBelow fs (base ++ name ++ (if steps = [] then [] else ['/'])) steps

def existsAt (fs : FileSystem) (path : Chars) : Bool :=
  match fs.find (Path.ofText path.text.toList) with
  | .ok _ => true
  | .error _ => false

/-- The paths of files that a field is a pattern of, in order, or else the field as it is. -/
def filesOf (fs : FileSystem) (field : Field) : List Chars :=
  if hasPattern field then
    match (pathsBelow fs [] field.steps).filter (existsAt fs) with
    | [] => [field.chars]
    | paths => paths.mergeSort Chars.isAtMost
  else [field.chars]

end SchemaContract.Shell
