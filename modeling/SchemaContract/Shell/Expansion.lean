import SchemaContract.Shell.Arithmetic
import SchemaContract.Shell.Field
import SchemaContract.Shell.Session

/-!
What words become in a session: the values of parameters, the outputs of scripts and the results of
arithmetic are put in; then words are split into fields and taken for patterns of file names, except
where just one text is wanted.
-/
namespace SchemaContract.Shell

/-- What puts in the output of a script that begins on a line. -/
abbrev Substitution := Nat → Chars → Run Chars

namespace Session

def parameter? (s : Session) : Parameter → Option Chars
  | .variable name => s.value? name
  | .position 0 => some s.name
  | .position (n + 1) => s.arguments[n]?
  | .all | .joined =>
    if s.arguments = [] then none else some (Chars.join s.joint s.arguments)
  | .count => some (.ofNat s.arguments.length)
  | .status => some (.ofNat s.status)
  | .options => some s.options
  | .process => some (.ofNat 2)
  | .background => none

end Session

def Parameter.title : Parameter → Chars
  | .variable name => name
  | .position n => .ofNat n
  | .all => ['@']
  | .joined => ['*']
  | .count => ['#']
  | .status => ['?']
  | .options => ['-']
  | .process => ['$']
  | .background => ['!']

def glyphsOf (quoted : Bool) (cs : Chars) : List Glyph :=
  cs.map fun c => .letter ⟨c, quoted⟩ true

/-- Arguments as fields of their own. Quoted ones are fields also when they are empty. -/
def argumentGlyphs (quoted : Bool) : List Chars → List Glyph
  | [] => []
  | [cs] => (if quoted then [.quotes] else []) ++ glyphsOf quoted cs
  | cs :: others =>
    (if quoted then [.quotes] else []) ++ glyphsOf quoted cs ++ .border ::
      argumentGlyphs quoted others

/-- The value of a parameter; one that is not set is empty, unless that is not allowed. -/
def parameterGlyphs (p : Parameter) (quoted : Bool) : Run (List Glyph) := do
  let s ← get
  match p, quoted with
  | .all, quoted => return argumentGlyphs quoted s.arguments
  | .joined, false => return argumentGlyphs false s.arguments
  | _, _ =>
    match s.parameter? p with
    | some value => return glyphsOf quoted value
    | none =>
      if s.hasOption 'u' ∧ p ≠ .joined then
        Run.abort (p.title ++ ": parameter not set".toList)
      return []

/-- What an arithmetic expression comes to. What it assigns is assigned. -/
def arithmeticValue (cs : Chars) : Run Chars := do
  let s ← get
  match Arithmetic.run (fun name => (s.value? name).getD []) cs with
  | .ok (i, assigned) =>
    for (name, value) in assigned.reverse do
      let _ ← Run.assign name (.ofInt value)
    return .ofInt i
  | .error fault =>
    Run.abort (fault.message cs)
    return []

def textOf (glyphs : List Glyph) : Chars := (lettersOf glyphs).map Letter.char

/-- Letters of a word that are split as if they had been put in. -/
def puttingIn : Glyph → Glyph
  | .letter l _ => .letter l true
  | glyph => glyph

def trim (kind : Trimming) (pattern : List Glyph) (value : Chars) : Chars :=
  let items := Pattern.ofWord (lettersOf pattern)
  if kind.front then value.drop (items.frontLength kind.longest value)
  else value.take (items.backStart kind.longest value)

def size (p : Parameter) : Run Nat := do
  let s ← get
  match p with
  | .all | .joined => return s.arguments.length
  | p =>
    if (s.parameter? p).isNone ∧ s.hasOption 'u' then
      Run.abort (p.title ++ ": parameter not set".toList)
    return ((s.parameter? p).getD []).length

def assignParameter (p : Parameter) (value : Chars) : Run Unit := do
  match p with
  | .variable name =>
    let _ ← Run.assign name value
  | p => Run.abort (p.title ++ ": bad variable name".toList)

def unsetMessage (p : Parameter) (emptyToo : Bool) (message : Chars) : Chars :=
  p.title ++ ": ".toList ++
    (if message ≠ [] then message
    else "parameter not set".toList ++ (if emptyToo then " or null".toList else []))

mutual

def partGlyphs (substitute : Substitution) : Part → Run (List Glyph)
  | .char c quoted => return [.letter ⟨c, quoted⟩ false]
  | .quotes => return [.quotes]
  | .parameter p quoted => parameterGlyphs p quoted
  | .size p quoted => return glyphsOf quoted (.ofNat (← size p))
  | .fallback p kind emptyToo word quoted => do
    let value? := (← get).parameter? p
    let isSet := value?.isSome && !(emptyToo && value? == some [])
    match kind with
    | .alternative =>
      if isSet then return (← wordGlyphs substitute word).map puttingIn else return []
    | kind =>
      if isSet then parameterGlyphs p quoted
      else
        let glyphs ← wordGlyphs substitute word
        match kind with
        | .assigned =>
          assignParameter p (textOf glyphs)
          parameterGlyphs p quoted
        | .required =>
          Run.abort (unsetMessage p emptyToo (textOf glyphs))
          return []
        | _ => return glyphs.map puttingIn
  | .trimmed p kind pattern quoted => do
    let value ← parameterGlyphs p true
    let glyphs ← wordGlyphs substitute pattern
    return glyphsOf quoted (trim kind glyphs (textOf value))
  | .output line script quoted => return glyphsOf quoted (← substitute line script)
  | .arithmetic expression quoted => do
    let glyphs ← wordGlyphs substitute expression
    if ← Run.isRunning then return glyphsOf quoted (← arithmeticValue (textOf glyphs))
    else return []
  | .faulty => do
    Run.abort "Bad substitution".toList
    return []

def wordGlyphs (substitute : Substitution) : List Part → Run (List Glyph)
  | [] => return []
  | part :: parts => do
    if ← Run.isRunning then
      let glyphs ← partGlyphs substitute part
      return glyphs ++ (← wordGlyphs substitute parts)
    else return []

end

def wordText (substitute : Substitution) (word : Word) : Run Chars :=
  return textOf (← wordGlyphs substitute word)

def wordPattern (substitute : Substitution) (word : Word) : Run Pattern :=
  return .ofWord (lettersOf (← wordGlyphs substitute word))

/-- The fields of words, with the files that they are patterns of. -/
def wordFields (substitute : Substitution) : List Word → Run (List Chars)
  | [] => return []
  | word :: words => do
    let glyphs ← wordGlyphs substitute word
    let s ← get
    let fields := fieldsOf s.separators glyphs
    let texts :=
      if s.hasOption 'f' then fields.map Field.chars else fields.flatMap (filesOf s.world.files)
    return texts ++ (← wordFields substitute words)

end SchemaContract.Shell
