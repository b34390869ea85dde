import SchemaContract.Shell.Regex
import SchemaContract.Shell.Utility.Options

/-!
Utilities that search lines: `grep`, and the commands of `sed` that print, delete, count and
substitute.
-/
namespace SchemaContract.Shell.Utility

def hasMatch (p : Parsed) (r : Regex) (line : Chars) : Bool :=
  let r := if p.has 'x' then .sequence .lineStart (.sequence r .lineEnd) else r
  let r :=
    if p.has 'w' then
      .sequence (.wordBorder true false) (.sequence r (.wordBorder false true))
    else r
  r.isIn (p.has 'i') line

def matchedTexts (r : Regex) (folded : Bool) : Nat → Option Char → Chars → List Chars
  | 0, _, _ => []
  | fuel + 1, previous?, line =>
    match r.find? folded [] previous? line with
    | none => []
    | some (before, start, finish) =>
      let text := start.rest.take (start.rest.length - finish.rest.length)
      if text = [] then
        match line.drop (before.length + 1) with
        | [] => []
        | rest => matchedTexts r folded fuel (line.drop before.length).head? rest
      else text :: matchedTexts r folded fuel finish.previous? finish.rest

/-- The expressions that are searched for: each line of the text is one. -/
def searched? (p : Parsed) (text : Chars) : Option (List Regex) :=
  (Chars.split '\n' text).mapM fun line =>
    if p.has 'F' then some (.ofText line) else Regex.read? (p.has 'E') line

def searchFile (p : Parsed) (rs : List Regex) (label content : Chars) : Run Nat := do
  let mut count := 0
  let mut number := 0
  let most := ((p.value? 'm').map (Integer.ofDigits 10)).getD content.length
  let silent := p.has 'q' || p.has 'c' || p.has 'l' || p.has 'L'
  for line in content.lines.map Chars.withoutNewline do
    number := number + 1
    if (rs.any fun r => hasMatch p r line) != p.has 'v' ∧ count < most then
      count := count + 1
      let lead := label ++ (if p.has 'n' then Chars.ofNat number ++ [':'] else [])
      if !silent then
        if p.has 'o' then
          for r in rs.take 1 do
            for text in matchedTexts r (p.has 'i') (line.length + 1) none line do
              Run.say (lead ++ text ++ ['\n'])
        else Run.say (lead ++ line ++ ['\n'])
  if p.has 'c' ∧ !p.has 'q' then Run.say (label ++ Chars.ofNat count ++ ['\n'])
  return count

def grep (base : String) : Action :=
  withOptions ⟨"grep", "EFGcvinqoslLwxhH", "em",
      [("count", 'c'), ("quiet", 'q'), ("ignore-case", 'i'), ("invert-match", 'v'),
        ("line-number", 'n'), ("extended-regexp", 'E'), ("fixed-strings", 'F')]⟩ 2 fun p => do
    let p := base.toList.foldr (fun c p => p.add c []) p
    let stated := (p.options.filter (·.1 == 'e')).map Prod.snd
    match if stated = [] then p.operands.head? else some (Chars.join ['\n'] stated) with
    | none =>
      Run.warn ("Usage: grep [OPTION]... PATTERNS [FILE]...\n".toList ++
        "Try 'grep --help' for more information.\n".toList)
      return 2
    | some text =>
      match searched? p text with
      | none =>
        Run.warn (complaint "grep" "Invalid regular expression".toList)
        return 2
      | some rs =>
        let paths := if (p.value? 'e').isSome then p.operands else p.operands.tail
        let paths := if paths = [] then [['-']] else paths
        let mut found := false
        let mut faulty := false
        for path in paths do
          match ← fetch path with
          | .error fault =>
            if !p.has 's' then Run.warn (plainRefusal "grep" path fault)
            faulty := true
          | .ok content =>
            let name := if path = ['-'] then "(standard input)".toList else path
            let label := if (paths.length > 1 ∨ p.has 'H') ∧ !p.has 'h' then name ++ [':'] else []
            let count ← searchFile p rs label content
            if (p.has 'l' ∧ count ≠ 0) ∨ (p.has 'L' ∧ count = 0) then Run.say (name ++ ['\n'])
            found := found || count != 0
        return if faulty ∧ !(found ∧ p.has 'q') then 2 else if found then 0 else 1

inductive Address where
  | line (n : Nat)
  | last
  | fitting (r : Regex)

inductive EditKind where
  | print
  | delete
  | quit
  | number
  | substitute (r : Regex) (text : Chars) (all : Bool) (nth : Nat) (printing folded : Bool)

/-- A command on lines: from a first address to a second, or at a first, or at all lines. -/
structure Edit where
  first? : Option Address
  second? : Option Address
  negated : Bool
  kind : EditKind

def takeAddress (extended : Bool) (cs : Chars) : Option (Option Address × Chars) :=
  match cs with
  | '$' :: rest => some (some .last, rest)
  | '/' :: rest =>
    let text := rest.takeWhile (· ≠ '/')
    (Regex.read? extended text).map fun r => (some (.fitting r), rest.drop (text.length + 1))
  | _ =>
    match cs.takeWhile Char.isDigit with
    | [] => some (none, cs)
    | digits => some (some (.line (Integer.ofDigits 10 digits)), cs.drop digits.length)

/-- A text up to a delimiter that is not escaped, and what is behind that. An escaped delimiter
stands for itself. -/
def takeUpTo (delimiter : Char) : Chars → Option (Chars × Chars)
  | [] => none
  | '\\' :: c :: cs =>
    (takeUpTo delimiter cs).map fun (text, rest) =>
      (if c = delimiter then c :: text else '\\' :: c :: text, rest)
  | c :: cs =>
    if c = delimiter then some ([], cs)
    else (takeUpTo delimiter cs).map fun (text, rest) => (c :: text, rest)

def isEditEnd (c : Char) : Bool := c == ';' || c == '\n' || c == '\x7d'

def takeEdit (extended : Bool) (cs : Chars) : Option (EditKind × Chars) := do
  match cs with
  | 'p' :: rest => some (.print, rest)
  | 'd' :: rest => some (.delete, rest)
  | 'q' :: rest => some (.quit, rest)
  | '=' :: rest => some (.number, rest)
  | 's' :: delimiter :: rest =>
    let (source, rest) ← takeUpTo delimiter rest
    let (text, rest) ← takeUpTo delimiter rest
    let flags := rest.takeWhile fun c => c.isAlphanum
    let r ← Regex.read? extended source
    let nth := Integer.ofDigits 10 (flags.filter Char.isDigit)
    some (.substitute r text (flags.contains 'g') (max nth 1) (flags.contains 'p')
      (flags.contains 'i' || flags.contains 'I'), rest.drop flags.length)
  | _ => none

def edits? (extended : Bool) : Nat → Chars → Option (List Edit)
  | 0, _ => some []
  | fuel + 1, cs =>
    match cs.dropWhile fun c => c == ' ' || isEditEnd c with
    | [] => some []
    | cs => do
      let (first?, cs) ← takeAddress extended cs
      let (second?, cs) ←
        match cs with
        | ',' :: rest => takeAddress extended rest
        | cs => some (none, cs)
      let cs := cs.dropWhile (· = ' ')
      let negated := cs.head? == some '!'
      let (kind, rest) ← takeEdit extended (if negated then cs.tail else cs)
      let others ← edits? extended fuel rest
      some (⟨first?, second?, negated, kind⟩ :: others)

def replacement (groups : List (Nat × Chars)) (text : Chars) : Chars → Chars
  | [] => []
  | '\\' :: c :: cs =>
    (if c.isDigit then
      (if c = '0' then text else (groups.lookup (c.toNat - '0'.toNat)).getD [])
    else if c = 'n' then ['\n']
    else if c = 't' then ['\t']
    else [c]) ++ replacement groups text cs
  | c :: cs => (if c = '&' then text else [c]) ++ replacement groups text cs

/-- A line with matches replaced, from the `skip`-th on, and whether any was. -/
def substituted (r : Regex) (folded all : Bool) (template : Chars) :
    Nat → (skip : Nat) → Option Char → Chars → Chars × Bool
  | 0, _, _, line => (line, false)
  | fuel + 1, skip, previous?, line =>
    match r.find? folded [] previous? line with
    | none => (line, false)
    | some (before, start, finish) =>
      let text := start.rest.take (start.rest.length - finish.rest.length)
      let new := if skip = 0 then replacement finish.groups text template else text
      if skip = 0 ∧ all = false then (before ++ new ++ finish.rest, true)
      else
        let (kept, rest) :=
          if text = [] then (finish.rest.take 1, finish.rest.drop 1) else ([], finish.rest)
        let previous? := if text = [] then kept.head? else finish.previous?
        let (others, changed) :=
          if rest = [] ∧ (text ≠ [] ∨ kept = []) then ([], false)
          else substituted r folded all template fuel (skip - 1) previous? rest
        (before ++ new ++ kept ++ others, changed || skip == 0)

structure Editing where
  line : Chars
  deleted : Bool
  quitting : Bool
  /-- Which commands with two addresses are between them. -/
  active : List Bool

def fits (number : Nat) (isLast : Bool) (line : Chars) : Address → Bool
  | .line n => n == number
  | .last => isLast
  | .fitting r => r.isIn false line

/-- Whether a command is for a line, and whether it is between its addresses behind it. -/
def chosen (e : Edit) (active : Bool) (number : Nat) (isLast : Bool) (line : Chars) :
    Bool × Bool :=
  match e.first?, e.second? with
  | none, _ => (true, false)
  | some first, none => (fits number isLast line first, false)
  | some first, some second =>
    if active then (true, !fits number isLast line second)
    else if fits number isLast line first then
      match second with
      | .line n => (true, number < n)
      | .last => (true, !isLast)
      | .fitting _ => (true, true)
    else (false, false)

def applyEdit (number : Nat) (e : EditKind) (s : Editing) : Run Editing := do
  match e with
  | .print =>
    Run.say (s.line ++ ['\n'])
    return s
  | .delete => return { s with deleted := true }
  | .quit => return { s with quitting := true }
  | .number =>
    Run.say (Chars.ofNat number ++ ['\n'])
    return s
  | .substitute r text all nth printing folded =>
    let (line, changed) := substituted r folded all text (s.line.length + 2) (nth - 1) none s.line
    if printing ∧ changed = true then Run.say (line ++ ['\n'])
    return { s with line := line }

/-- Carries commands out on a line, until one deletes it or ends all. -/
def applyEdits (number : Nat) (isLast : Bool) : List Edit → List Bool → Editing →
    Run Editing
  | [], _, s => return s
  | e :: es, actives, s => do
    let (isChosen, active) := chosen e (actives.head?.getD false) number isLast s.line
    let s := { s with active := s.active ++ [active] }
    if s.deleted ∨ s.quitting then applyEdits number isLast es actives.tail s
    else if isChosen != e.negated then
      applyEdits number isLast es actives.tail (← applyEdit number e.kind s)
    else applyEdits number isLast es actives.tail s

def editLines (quiet : Bool) (es : List Edit) : Nat → List Bool → List Chars → Run Unit
  | _, _, [] => return ()
  | number, actives, line :: lines => do
    let start : Editing := ⟨Chars.withoutNewline line, false, false, []⟩
    let s ← applyEdits number lines.isEmpty es actives start
    if !quiet ∧ !s.deleted then
      Run.say (s.line ++ (if line.getLast? = some '\n' then ['\n'] else []))
    if s.quitting then return ()
    else editLines quiet es (number + 1) s.active lines

def sed : Action :=
  withOptions ⟨"sed", "nErs", "e", [("quiet", 'n'), ("expression", 'e')]⟩ 1 fun p => do
    let scripts := (p.options.filter (·.1 == 'e')).map Prod.snd
    let script? := if scripts = [] then p.operands.head? else some (Chars.join ['\n'] scripts)
    match script?.bind fun text => edits? (p.has 'E' || p.has 'r') (text.length + 1) text with
    | none =>
      Run.warn (complaint "sed" "-e expression #1, char 0: unknown command".toList)
      return 1
    | some es =>
      let paths := if scripts = [] then p.operands.tail else p.operands
      let mut content : Chars := []
      let mut status := 0
      for path in (if paths = [] then [['-']] else paths) do
        match ← fetch path with
        | .ok text => content := content ++ text
        | .error fault =>
          let what := if fault = .isDirectory then "couldn't edit " else "can't read "
          Run.warn (complaint "sed" (what.toList ++ path ++ ": ".toList ++
            (if fault = .isDirectory then "not a regular file".toList else fault.reason.toList)))
          status := 2
      editLines (p.has 'n') es 1 [] content.lines
      return status

end SchemaContract.Shell.Utility
