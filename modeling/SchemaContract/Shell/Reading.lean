import SchemaContract.Shell.Script

/-!
Reading scripts. A script is read one line of commands at a time, so that what stands before a fault
is carried out. The reader looks one token ahead; a newline at which here-documents are awaited is
followed by their texts.
-/
namespace SchemaContract.Shell

/-- A fault of a script, and the line that the reader had come to. -/
structure ScriptFault where
  line : Nat
  message : String
deriving DecidableEq, Repr

inductive Token where
  | finish
  | newLine
  | redirection (descriptor : Nat) (sign : String)
  | word (word : Word)
  | sign (text : String)

structure Awaited where
  mark : Chars
  quoted : Bool
  untabbed : Bool
deriving DecidableEq, Repr

structure Reader where
  rest : Chars
  line : Nat
  token : Token
  awaited : List Awaited
  documents : List Word

abbrev Reading := StateT Reader (Except ScriptFault)

inductive Context where
  | plain
  | double
  | braces (quoted : Bool)
  | document
  | arithmetic (depth : Nat)
deriving DecidableEq, Repr

/-- How far a list of commands goes: to the end of a line, through a block with a command at least,
or through a body that may be empty. -/
inductive Extent where
  | line
  | block
  | body
deriving DecidableEq, Repr

def Context.isQuoting : Context → Bool
  | .plain | .braces false => false
  | _ => true

def Context.isClosedBy : Context → Char → Bool
  | .double, c => c == '"'
  | .braces _, c => c == '\x7d'
  | _, _ => false

/-- Whether a backslash takes the meaning of a character in a context. -/
def Context.canEscape (context : Context) (c : Char) : Bool :=
  !context.isQuoting || c == '$' || c == '\x60' || c == '\\' ||
    (c == '"' && context != .document) || (c == '\x7d' && context == .braces true)

/-- The context behind a character that opens or closes a parenthesis in it. -/
def Context.behind : Context → Char → Context
  | .arithmetic depth, '(' => .arithmetic (depth + 1)
  | .arithmetic (depth + 1), ')' => .arithmetic depth
  | context, _ => context

def Context.isFinishedBy : Context → Chars → Bool
  | .arithmetic 0, ')' :: ')' :: _ => true
  | _, _ => false

def Context.unclosed? : Context → Option String
  | .plain | .document => none
  | .double => some "Unterminated quoted string"
  | .braces _ => some "Missing '\x7d'"
  | .arithmetic _ => some "Missing '))'"

/-- The characters that end a word without being part of it. -/
def isMark (c : Char) : Bool := " \t\n;&|<>()".toList.contains c

def keywords : List String :=
  ["!", "case", "do", "done", "elif", "else", "esac", "fi", "for", "if", "in", "then", "until",
    "while", "\x7b", "\x7d"]

def Token.keyword? : Token → Option String
  | .word w => ((plain? w).map String.ofList).filter keywords.contains
  | _ => none

def closingKeywords : List String :=
  ["do", "done", "elif", "else", "esac", "fi", "then", "\x7d"]

def Token.closesList : Token → Bool
  | .sign text => text == ")" || text == ";;"
  | t => (t.keyword?.map closingKeywords.contains).getD false

def inQuotes (text : String) : String := "\"" ++ text ++ "\""

def Token.title : Token → String
  | .finish => "end of file"
  | .newLine => "newline"
  | .redirection .. => "redirection"
  | .sign text => inQuotes text
  | .word _ => "word"

/-- How a token is called where keywords can stand. -/
def Token.commandTitle (t : Token) : String := (t.keyword?.map inQuotes).getD t.title

namespace Reading

def fail {α : Type} (message : String) : Reading α := do
  throw ⟨(← get).line, "Syntax error: " ++ message⟩

def refuse {α : Type} : Reading α := do fail ((← get).token.commandTitle ++ " unexpected")

def missing (title expected : String) : String :=
  title ++ " unexpected (expecting " ++ inQuotes expected ++ ")"

def tooDeep {α : Type} : Reading α := fail "nested too deeply"

def drop (n : Nat) : Reading Unit :=
  modify fun r => { r with rest := r.rest.drop n, line := r.line + (r.rest.take n).count '\n' }

def goTo (rest : Chars) : Reading Unit := do
  drop ((← get).rest.length - rest.length)

def give (token : Token) (n : Nat) : Reading Unit := do
  drop n
  modify fun r => { r with token := token }

/-- The text behind blanks, comments and lines that are continued. -/
def behindBlanks : Chars → Chars
  | '\\' :: '\n' :: cs => behindBlanks cs
  | '#' :: cs => cs.dropWhile (· ≠ '\n')
  | c :: cs => if c = ' ' ∨ c = '\t' then behindBlanks cs else c :: cs
  | [] => []

def behindJoins : Chars → Chars
  | '\\' :: '\n' :: cs => behindJoins cs
  | cs => cs

def takeBackquoted (quoted : Bool) : Chars → Option (Chars × Chars)
  | [] => none
  | '\\' :: c :: cs =>
    (takeBackquoted quoted cs).map fun (text, rest) =>
      if c = '\\' ∨ c = '\x60' ∨ c = '$' ∨ (c = '"' ∧ quoted = true) then (c :: text, rest)
      else if c = '\n' then (text, rest)
      else ('\\' :: c :: text, rest)
  | c :: cs =>
    if c = '\x60' then some ([], cs)
    else (takeBackquoted quoted cs).map fun (text, rest) => (c :: text, rest)

/-- What stands behind the parenthesis that closes a script. Parentheses in quotes do not count. -/
def behindScript : (depth : Nat) → (quote? : Option Char) → Chars → Option Chars
  | _, _, [] => none
  | depth, quote?, '\\' :: c :: cs =>
    if quote? = some '\'' then
      behindScript depth (if c = '\'' then none else quote?) cs
    else behindScript depth quote? cs
  | depth, some quote, c :: cs => behindScript depth (if c = quote then none else some quote) cs
  | depth, none, c :: cs =>
    if c = '\'' ∨ c = '"' then behindScript depth (some c) cs
    else if c = '(' then behindScript (depth + 1) none cs
    else if c = ')' then
      match depth with
      | 0 => some cs
      | depth + 1 => behindScript depth none cs
    else behindScript depth none cs

def special? : Char → Option Parameter
  | '@' => some .all
  | '*' => some .joined
  | '#' => some .count
  | '?' => some .status
  | '-' => some .options
  | '$' => some .process
  | '!' => some .background
  | _ => none

def numberOf (digits : Chars) : Nat :=
  digits.foldl (fun n c => 10 * n + (c.toNat - '0'.toNat)) 0

/-- The parameter at the front of a text, and how many characters it takes. Numbers have one digit,
unless they stand in braces. -/
def takeParameter (inBraces : Bool) : Chars → Option (Parameter × Nat)
  | [] => none
  | c :: cs =>
    if isNameHead c then
      let name := c :: cs.takeWhile isNamePart
      some (.variable name, name.length)
    else if c.isDigit then
      let digits := if inBraces then c :: cs.takeWhile Char.isDigit else [c]
      some (.position (numberOf digits), digits.length)
    else (special? c).map fun p => (p, 1)

def fallback? : Char → Option Fallback
  | '-' => some .default
  | '=' => some .assigned
  | '?' => some .required
  | '+' => some .alternative
  | _ => none

inductive Treatment where
  | none
  | fallback (kind : Fallback) (emptyToo : Bool)
  | trimmed (kind : Trimming)
  | faulty
deriving DecidableEq, Repr

/-- What is done with a parameter, from behind it on, and how many characters say so. -/
def takeTreatment : Chars → Treatment × Nat
  | '\x7d' :: _ => (.none, 1)
  | ':' :: c :: _ =>
    match fallback? c with
    | some kind => (.fallback kind true, 2)
    | none => (.faulty, 0)
  | '#' :: '#' :: _ => (.trimmed ⟨true, true⟩, 2)
  | '#' :: _ => (.trimmed ⟨true, false⟩, 1)
  | '%' :: '%' :: _ => (.trimmed ⟨false, true⟩, 2)
  | '%' :: _ => (.trimmed ⟨false, false⟩, 1)
  | c :: _ =>
    match fallback? c with
    | some kind => (.fallback kind false, 1)
    | none => (.faulty, 0)
  | [] => (.faulty, 0)

def takeSize (cs : Chars) : Option (Parameter × Nat) :=
  (takeParameter true cs).filter fun (_, n) => (cs.drop n).head? == some '\x7d'

def redirectionSign? (cs : Chars) : Option String :=
  ["<<-", "<<", "<&", "<>", "<", ">>", ">&", ">|", ">"].find? fun sign =>
    sign.toList.isPrefixOf cs

def operator? (cs : Chars) : Option String :=
  ["&&", "&", "||", "|", ";;", ";", "(", ")"].find? fun sign => sign.toList.isPrefixOf cs

def documentLines (awaited : Awaited) : List Chars → List Chars × List Chars
  | [] => ([], [])
  | line :: lines =>
    let line := if awaited.untabbed then line.dropWhile (· = '\t') else line
    if Chars.withoutNewline line = awaited.mark then ([], lines)
    else
      let (body, others) := documentLines awaited lines
      (line :: body, others)

def charsOf (word : Word) : Chars :=
  word.filterMap fun
    | .char c _ => some c
    | _ => none

/-- The assignment that a word spells, if its name and its equals sign are not quoted. -/
def assignment? (word : Word) : Option Assignment :=
  let name := word.takeWhile fun
    | .char c quoted => !quoted && c != '='
    | _ => false
  match word.drop name.length with
  | .char '=' false :: value =>
    if isVariableName (charsOf name) then some ⟨charsOf name, value⟩ else none
  | _ => none

def inSequence : Command → Command → Command
  | .nothing, second => second
  | first, second => .sequence first second

/-- Awaits a here-document, and gives it a number. -/
def await (mark : Word) (untabbed : Bool) : Reading Nat := do
  let r ← get
  let awaited : Awaited := ⟨charsOf mark, isQuoted mark, untabbed⟩
  set { r with awaited := r.awaited ++ [awaited] }
  return r.documents.length + r.awaited.length

def access? : String → Option Access
  | "<" => some .reading
  | ">" | ">|" => some .writing
  | ">>" => some .appending
  | "<>" => some .changing
  | _ => none

/-- The names of commands whose failure ends a script, and which no function can have. -/
def specialNames : List String :=
  [".", ":", "break", "continue", "eval", "exec", "exit", "export", "readonly", "return", "set",
    "shift", "times", "trap", "unset"]

def isAll : Part → Bool
  | .parameter .all _ => true
  | _ => false

def escaped (context : Context) (cs : Chars) : Reading Word := do
  match cs with
  | [] =>
    drop 1
    return [.char '\\' true]
  | c :: _ =>
    drop 2
    if c = '\n' then return []
    else if context.canEscape c then return [.char c true]
    else return [.char '\\' context.isQuoting, .char c context.isQuoting]

def inSingleQuotes (cs : Chars) : Reading Word := do
  let inside := cs.takeWhile (· ≠ '\'')
  drop (inside.length + 2)
  if inside.length = cs.length then fail "Unterminated quoted string"
  else return .quotes :: inside.map fun c => .char c true

def inBackquotes (quoted : Bool) (cs : Chars) : Reading Word := do
  match takeBackquoted quoted cs with
  | none =>
    goTo []
    fail "EOF in backquote substitution"
  | some (script, rest) =>
    goTo rest
    return [.output 1 script quoted]

def inParentheses (quoted : Bool) : Reading Word := do
  let r ← get
  match behindScript 0 none r.rest with
  | none =>
    goTo []
    fail "end of file unexpected (expecting \")\")"
  | some rest =>
    goTo rest
    return [.output r.line (r.rest.take (r.rest.length - rest.length - 1)) quoted]

mutual

/-- The parts of a word up to where their context ends. -/
def parts : Nat → Context → Reading Word
  | 0, _ => tooDeep
  | fuel + 1, context => do
    match (← get).rest with
    | [] =>
      match context.unclosed? with
      | some message => fail message
      | none => return []
    | c :: cs =>
      if context = .plain ∧ isMark c = true then return []
      else if context.isClosedBy c then
        drop 1
        return []
      else if context = .braces false ∧ c = '\n' then fail "Missing '\x7d'"
      else if context.isFinishedBy (c :: cs) then
        drop 2
        return []
      else
        let first ← part fuel context c cs
        return first ++ (← parts fuel (context.behind c))

def part : Nat → Context → Char → Chars → Reading Word
  | 0, _, _, _ => tooDeep
  | fuel + 1, context, c, cs => do
    let quoted := context.isQuoting
    if c = '\\' then escaped context cs
    else if c = '$' then
      drop 1
      dollar fuel quoted
    else if c = '\x60' then inBackquotes quoted cs
    else if c = '\'' ∧ quoted = false then inSingleQuotes cs
    else if c = '"' ∧ context ≠ .document then
      drop 1
      match context with
      | .arithmetic _ => return []
      | _ =>
        let inside ← parts fuel .double
        return if inside.any isAll then inside else .quotes :: inside
    else
      drop 1
      return [.char c quoted]

def dollar : Nat → Bool → Reading Word
  | 0, _ => tooDeep
  | fuel + 1, quoted => do
    goTo (behindJoins (← get).rest)
    match (← get).rest with
    | '(' :: '(' :: _ =>
      drop 2
      return [.arithmetic (← parts fuel (.arithmetic 0)) quoted]
    | '(' :: _ =>
      drop 1
      inParentheses quoted
    | '\x7b' :: _ =>
      drop 1
      braced fuel quoted
    | cs =>
      match takeParameter false cs with
      | some (p, n) =>
        drop n
        return [.parameter p quoted]
      | none => return [.char '$' quoted]

def braced : Nat → Bool → Reading Word
  | 0, _ => tooDeep
  | fuel + 1, quoted => do
    match (← get).rest with
    | '#' :: cs =>
      match takeSize cs with
      | some (p, n) =>
        drop (n + 2)
        return [.size p quoted]
      | none => treated fuel quoted
    | _ => treated fuel quoted

def treated : Nat → Bool → Reading Word
  | 0, _ => tooDeep
  | fuel + 1, quoted => do
    match takeParameter true (← get).rest with
    | none =>
      let _ ← parts fuel (.braces quoted)
      return [.faulty]
    | some (p, n) =>
      drop n
      let (treatment, m) := takeTreatment (← get).rest
      drop m
      match treatment with
      | .none => return [.parameter p quoted]
      | .fallback kind emptyToo =>
        return [.fallback p kind emptyToo (← parts fuel (.braces quoted)) quoted]
      | .trimmed kind => return [.trimmed p kind (← parts fuel (.braces false)) quoted]
      | .faulty =>
        let _ ← parts fuel (.braces quoted)
        return [.faulty]

end

/-- The word that a text is, all of it in one context. -/
def wholeText (context : Context) (text : Chars) : Reading Word := do
  let r ← get
  set { r with rest := text }
  let word ← parts (4 * (text.length + 1)) context
  set { r with rest := r.rest }
  return word

def documents : List Awaited → Reading Unit
  | [] => return ()
  | awaited :: others => do
    let (body, rest) := documentLines awaited (Chars.lines (← get).rest)
    let text := body.flatten
    let word ←
      if awaited.quoted then pure (text.map fun c => .char c true)
      else wholeText .document text
    goTo rest.flatten
    modify fun r => { r with documents := r.documents ++ [word] }
    documents others

def advance : Reading Unit := do
  goTo (behindBlanks (← get).rest)
  let r ← get
  match r.rest with
  | [] => give .finish 0
  | '\n' :: _ =>
    give .newLine 1
    documents r.awaited
    modify fun r => { r with awaited := [] }
  | c :: cs =>
    match redirectionSign? r.rest, redirectionSign? cs, operator? r.rest with
    | some sign, _, _ => give (.redirection (if c = '<' then 0 else 1) sign) sign.length
    | none, some sign, none =>
      if c.isDigit then give (.redirection (numberOf [c]) sign) (sign.length + 1)
      else readWord
    | none, _, some sign => give (.sign sign) sign.length
    | none, none, none => readWord
where
  readWord : Reading Unit := do
    let word ← parts (4 * ((← get).rest.length + 1)) .plain
    give (.word word) 0

def skipNewLines : Nat → Reading Unit
  | 0 => tooDeep
  | fuel + 1 => do
    match (← get).token with
    | .newLine =>
      advance
      skipNewLines fuel
    | _ => return ()

def expect (keyword : String) : Reading Unit := do
  let t := (← get).token
  if t.keyword? = some keyword then advance else fail (missing t.commandTitle keyword)

def expectSign (sign : String) : Reading Unit := do
  match (← get).token with
  | .sign text => if text = sign then advance else fail (missing (inQuotes text) sign)
  | t => fail (missing t.title sign)

def expectEnd (sign : String) : Reading Unit := do
  match (← get).token with
  | .sign text => if text = sign then advance else fail (missing (inQuotes text) sign)
  | t => fail (missing t.commandTitle sign)

def redirection (descriptor : Nat) (sign : String) : Reading Redirection := do
  advance
  match (← get).token with
  | .word word =>
    let target ← match access? sign with
      | some access => pure (.file access word)
      | none =>
        if sign = "<<" then pure (.document (← await word false))
        else if sign = "<<-" then pure (.document (← await word true))
        else pure (.copy word)
    advance
    return ⟨descriptor, target⟩
  | _ => refuse

def redirections : Nat → Reading (List Redirection)
  | 0 => tooDeep
  | fuel + 1 => do
    match (← get).token with
    | .redirection descriptor sign =>
      let first ← redirection descriptor sign
      return first :: (← redirections fuel)
    | _ => return []

def words : Nat → Reading (List Word)
  | 0 => tooDeep
  | fuel + 1 => do
    match (← get).token with
    | .word word =>
      advance
      return word :: (← words fuel)
    | _ => return []

def loopWords (fuel : Nat) : Reading (Option (List Word)) := do
  skipNewLines fuel
  if (← get).token.keyword? = some "in" then
    advance
    let ws ← words fuel
    match (← get).token with
    | .newLine | .sign ";" =>
      advance
      return some ws
    | _ => refuse
  else
    match (← get).token with
    | .sign ";" => advance
    | _ => pure ()
    return none

def patterns : Nat → Reading (List Word)
  | 0 => tooDeep
  | fuel + 1 => do
    match (← get).token with
    | .word word =>
      advance
      match (← get).token with
      | .sign "|" =>
        advance
        return word :: (← patterns fuel)
      | _ =>
        expectSign ")"
        return [word]
    | t => fail (missing t.title ")")

mutual

/-- Commands one after another, on top of those read already. -/
def list : Nat → Extent → Bool → Command → Reading Command
  | 0, _, _, _ => tooDeep
  | fuel + 1, extent, mayClose, before => do
    if extent ≠ .line then skipNewLines fuel
    match (← get).token with
    | .newLine | .finish => return before
    | t =>
      if mayClose = true ∧ extent ≠ .line ∧ t.closesList = true then return before
      else
        let command ← andOr fuel
        match (← get).token with
        | .sign "&" =>
          advance
          list fuel extent true (inSequence before (.background command))
        | .sign ";" =>
          advance
          list fuel extent true (inSequence before command)
        | .newLine => list fuel extent true (inSequence before command)
        | .finish => return inSequence before command
        | _ => if extent = .line then refuse else return inSequence before command

/-- Commands of which each may hang on how the one before it ends. -/
def andOr : Nat → Reading Command
  | 0 => tooDeep
  | fuel + 1 => do alternatives fuel (← pipeline fuel)

def alternatives : Nat → Command → Reading Command
  | 0, _ => tooDeep
  | fuel + 1, first => do
    match (← get).token with
    | .sign "&&" =>
      advance
      skipNewLines fuel
      alternatives fuel (.both first (← pipeline fuel))
    | .sign "||" =>
      advance
      skipNewLines fuel
      alternatives fuel (.either first (← pipeline fuel))
    | _ => return first

def pipeline : Nat → Reading Command
  | 0 => tooDeep
  | fuel + 1 => do
    if (← get).token.keyword? = some "!" then
      advance
      return .negation (← pipes fuel)
    else pipes fuel

def pipes : Nat → Reading Command
  | 0 => tooDeep
  | fuel + 1 => do
    let first ← command fuel
    match (← get).token with
    | .sign "|" =>
      advance
      skipNewLines fuel
      return .pipeline first (← pipes fuel)
    | _ => return first

def command : Nat → Reading Command
  | 0 => tooDeep
  | fuel + 1 => do
    let r ← get
    match r.token with
    | .redirection .. => simple fuel r.line [] [] []
    | .sign "(" =>
      advance
      let body ← list fuel .block false .nothing
      expectEnd ")"
      redirected fuel r.line (.subshell body)
    | .word _ =>
      match r.token.keyword? with
      | none => simple fuel r.line [] [] []
      | some keyword => redirected fuel r.line (← compound fuel r.line keyword)
    | _ => refuse

def redirected : Nat → Nat → Command → Reading Command
  | 0, _, _ => tooDeep
  | fuel + 1, line, body => do
    match ← redirections fuel with
    | [] => return body
    | rs => return .redirected line body rs

def compound : Nat → Nat → String → Reading Command
  | 0, _, _ => tooDeep
  | fuel + 1, line, keyword => do
    match keyword with
    | "\x7b" =>
      advance
      let body ← list fuel .block false .nothing
      expect "\x7d"
      return body
    | "if" =>
      advance
      let c ← choice fuel
      expect "fi"
      return c
    | "while" | "until" =>
      advance
      let condition ← list fuel .block false .nothing
      expect "do"
      let body ← list fuel .block false .nothing
      expect "done"
      return .loop (keyword == "while") condition body
    | "for" =>
      advance
      match (← get).token with
      | .word word =>
        match (plain? word).filter isVariableName with
        | none => fail "Bad for loop variable"
        | some name =>
          advance
          let words? ← loopWords fuel
          skipNewLines fuel
          expect "do"
          let body ← list fuel .block false .nothing
          expect "done"
          return .each line name words? body
      | _ => fail "Bad for loop variable"
    | "case" =>
      advance
      match (← get).token with
      | .word word =>
        advance
        skipNewLines fuel
        expect "in"
        let bs ← branches fuel
        expect "esac"
        return .select line word bs
      | _ => fail (missing (← get).token.commandTitle "word")
    | _ => refuse

def choice : Nat → Reading Command
  | 0 => tooDeep
  | fuel + 1 => do
    let condition ← list fuel .block false .nothing
    expect "then"
    let positive ← list fuel .block false .nothing
    match (← get).token.keyword? with
    | some "elif" =>
      advance
      return .choice condition positive (← choice fuel)
    | some "else" =>
      advance
      return .choice condition positive (← list fuel .block false .nothing)
    | _ => return .choice condition positive .nothing

def branches : Nat → Reading (List (List Word × Command))
  | 0 => tooDeep
  | fuel + 1 => do
    skipNewLines fuel
    if (← get).token.keyword? = some "esac" then return []
    else
      match (← get).token with
      | .sign "(" => advance
      | _ => pure ()
      let ps ← patterns fuel
      let body ← list fuel .body true .nothing
      skipNewLines fuel
      if (← get).token.keyword? = some "esac" then return [(ps, body)]
      else
        expectEnd ";;"
        return (ps, body) :: (← branches fuel)

/-- A command made of assignments, words and redirections, or the definition of a function. -/
def simple : Nat → Nat → List Assignment → List Word → List Redirection → Reading Command
  | 0, _, _, _, _ => tooDeep
  | fuel + 1, line, assignments, ws, rs => do
    match (← get).token with
    | .word word =>
      advance
      match ws, assignment? word with
      | [], some a => simple fuel line (assignments ++ [a]) ws rs
      | _, _ => simple fuel line assignments (ws ++ [word]) rs
    | .redirection descriptor sign =>
      let r ← redirection descriptor sign
      simple fuel line assignments ws (rs ++ [r])
    | .sign "(" =>
      match assignments, ws, rs with
      | [], [name], [] =>
        advance
        expectSign ")"
        match (plain? name).filter isVariableName with
        | none => fail "Bad function name"
        | some name =>
          if specialNames.contains (String.ofList name) then fail "Bad function name"
          else
            skipNewLines fuel
            return .define name (← command fuel)
      | _, _, _ => return .simple line assignments ws rs
    | _ => return .simple line assignments ws rs

end

end Reading

def Reader.ofScript (script : Chars) (line : Nat) (documents : List Word) : Reader :=
  ⟨script, line, .newLine, [], documents⟩

/-- The commands up to the end of the next line that ends none of them, if any follow. -/
def Reader.next? (r : Reader) : Except ScriptFault (Option (Command × Reader)) := do
  let r ← (Prod.snd <$> Reading.advance.run r)
  match r.token with
  | .finish => return none
  | _ =>
    let result ← (Reading.list (16 * (r.rest.length + 4)) .line true .nothing).run r
    return some result

end SchemaContract.Shell
