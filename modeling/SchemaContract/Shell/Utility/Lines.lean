import SchemaContract.Shell.Utility.Options

/-!
Utilities on lines and characters: `cat`, `head`, `tail`, `wc`, `sort`, `uniq`, `cut`, `tr`, `tee`,
`rev`, `tac` and `seq`.
-/
namespace SchemaContract.Shell.Utility

def padded (width n : Nat) : Chars := inWidth false width (.ofNat n)

def numberLines : Nat → List Chars → Chars
  | _, [] => []
  | n, line :: lines => padded 6 n ++ '\t' :: line ++ numberLines (n + 1) lines

def cat : Action := withOptions ⟨"cat", "nu", "", [("number", 'n')]⟩ 1 fun p => do
  let status ← eachFile (inputs p) 1 (plainRefusal "cat") fun _ content =>
    Run.say (if p.has 'n' then numberLines 1 content.lines else content)
  return status

/-- Words in which a dash and a number stand for an option with it. -/
def spellNumber : List Chars → List Chars
  | ('-' :: c :: cs) :: words => if c.isDigit then ['-', 'n'] :: (c :: cs) :: words
    else ('-' :: c :: cs) :: words
  | words => words

/-- The part of a text that is stated by a count: from its front, or all but so many at its end. -/
def headOf {α : Type} (count : Chars) (xs : List α) : List α :=
  match count with
  | '-' :: digits => xs.take (xs.length - Integer.ofDigits 10 digits)
  | digits => xs.take (Integer.ofDigits 10 digits)

/-- The part of a text that is stated by a count: at its end, or from a position on. -/
def tailOf {α : Type} (count : Chars) (xs : List α) : List α :=
  match count with
  | '+' :: digits => xs.drop (Integer.ofDigits 10 digits - 1)
  | '-' :: digits => xs.drop (xs.length - Integer.ofDigits 10 digits)
  | digits => xs.drop (xs.length - Integer.ofDigits 10 digits)

def openRefusal (utility : String) (path : Chars) (fault : SystemFault) : Chars :=
  if fault = .isDirectory then
    complaint utility ("error reading ".toList ++ named path ++ ": ".toList ++
      fault.reason.toList)
  else
    complaint utility ("cannot open ".toList ++ named path ++ " for reading: ".toList ++
      fault.reason.toList)

def isCount : Chars → Bool
  | '-' :: digits | '+' :: digits => (Integer.ofFigures? digits).isSome
  | digits => (Integer.ofFigures? digits).isSome

def takePart (utility : String) (select : (α : Type) → Chars → List α → List α) : Action :=
  fun words =>
    withOptions ⟨utility, "qv", "nc", [("lines", 'n'), ("bytes", 'c'), ("quiet", 'q')]⟩ 1
      (fun p => do
        let paths := inputs p
        let mut first := true
        let mut status := 0
        for (c, count) in p.options do
          if (c = 'n' ∨ c = 'c') ∧ isCount count = false then
            let unit := if c = 'n' then "lines" else "bytes"
            Run.warn (complaint utility
              ("invalid number of ".toList ++ unit.toList ++ ": ".toList ++ named count))
            return 1
        for path in paths do
          match ← fetch path with
          | .error fault =>
            Run.warn (openRefusal utility path fault)
            status := 1
          | .ok content =>
            if (paths.length > 1 ∨ p.has 'v') ∧ !p.has 'q' then
              let name := if path = ['-'] then "standard input".toList else path
              Run.say ((if first then [] else ['\n']) ++ "==> ".toList ++ name ++
                " <==\n".toList)
            first := false
            match p.value? 'c' with
            | some count => Run.say (select Char count content)
            | none =>
              Run.say (select Chars ((p.value? 'n').getD ['1', '0']) content.lines).flatten
        return status) (spellNumber words)

def head : Action := takePart "head" fun _ => headOf

def tail : Action := takePart "tail" fun _ => tailOf

def wordCount (inWord : Bool) : Chars → Nat
  | [] => if inWord then 1 else 0
  | c :: cs =>
    if Integer.isSpace c then (if inWord then 1 else 0) + wordCount false cs
    else wordCount true cs

/-- How many characters begin in the bytes of a text. -/
def characterCount (cs : Chars) : Nat :=
  cs.countP fun c => c.toNat < 0x80 || 0xC0 ≤ c.toNat

/-- The counts of a text that are asked for: lines, words, characters and bytes, in this order. -/
def countsOf (p : Parsed) (content : Chars) : List Nat :=
  let asked (c : Char) : Bool := p.has c || (p.options.isEmpty && c != 'm')
  (if asked 'l' then [content.count '\n'] else []) ++
    (if asked 'w' then [wordCount false content] else []) ++
    (if asked 'm' then [characterCount content] else []) ++
    (if asked 'c' then [content.length] else [])

def inputIsFile : Run Bool := do
  let s ← get
  match s.stream? 0 with
  | some (.opened number) =>
    match s.world.opened[number]? with
    | some ⟨.place _, _, _⟩ => return true
    | _ => return false
  | _ => return false

def countLine (width : Nat) (counts : List Nat) (name : Chars) : Chars :=
  Chars.join [' '] (counts.map (padded width)) ++ (if name = [] then [] else ' ' :: name) ++ ['\n']

def wc : Action :=
  withOptions ⟨"wc", "lwmc", "", [("lines", 'l'), ("words", 'w'), ("chars", 'm'), ("bytes", 'c')]⟩
    1 fun p => do
      let mut rows : List (List Nat × Chars) := []
      let mut size := 0
      let mut least := 1
      let mut status := 0
      for path in inputs p do
        if path = ['-'] then
          if !(← inputIsFile) then least := 7
        match ← fetch path with
        | .ok content =>
          size := size + content.length
          rows := rows ++ [(countsOf p content, if p.operands = [] then [] else path)]
        | .error fault =>
          Run.warn (plainRefusal "wc" path fault)
          status := 1
          if fault = .isDirectory then
            least := 7
            rows := rows ++ [((countsOf p []), path)]
      let single := (inputs p).length == 1 && (countsOf p []).length == 1
      let width := if single then 1 else max least (Chars.ofNat size).length
      for (counts, name) in rows do
        Run.say (countLine width counts name)
      if (inputs p).length > 1 then
        let total := rows.foldl (fun sums row => sums.zipWith (· + ·) row.1)
          ((countsOf p []).map fun _ => 0)
        Run.say (countLine width total "total".toList)
      return status

def leadingNumber (line : Chars) : Int :=
  let spaced := line.dropWhile fun c => c == ' ' || c == '\t'
  match spaced with
  | '-' :: rest => -(Integer.ofDigits 10 (rest.takeWhile Char.isDigit) : Int)
  | rest => Integer.ofDigits 10 (rest.takeWhile Char.isDigit)

/-- Whether a line may stand before another. -/
def inOrder (p : Parsed) (a b : Chars) : Bool :=
  if p.has 'n' then
    let i := leadingNumber a
    let j := leadingNumber b
    if i = j ∧ p.has 'u' = false then
      (if p.has 'r' then Chars.isAtMost b a else Chars.isAtMost a b)
    else if p.has 'r' then j ≤ i else i ≤ j
  else if p.has 'r' then Chars.isAtMost b a
  else Chars.isAtMost a b

/-- Lines without those that equal the one before. -/
def withoutRepeats (same : Chars → Chars → Bool) : List Chars → List Chars
  | a :: b :: lines =>
    if same a b then withoutRepeats same (a :: lines) else a :: withoutRepeats same (b :: lines)
  | lines => lines
termination_by lines => lines.length

def sort : Action :=
  withOptions ⟨"sort", "nru", "", [("numeric-sort", 'n'), ("reverse", 'r'), ("unique", 'u')]⟩ 2
    fun p => do
      let mut lines : List Chars := []
      for path in inputs p do
        match ← fetch path with
        | .ok content => lines := lines ++ content.lines.map Chars.withoutNewline
        | .error fault =>
          let what := if fault = .isDirectory then "read failed: " else "cannot read: "
          Run.warn (complaint "sort"
            (what.toList ++ shown path ++ ": ".toList ++ fault.reason.toList))
          return 2
      let sorted := lines.mergeSort (inOrder p)
      let same (a b : Chars) : Bool :=
        if p.has 'n' then leadingNumber a == leadingNumber b else a == b
      let kept := if p.has 'u' then withoutRepeats same sorted else sorted
      Run.say (kept.flatMap fun line => line ++ ['\n'])
      return 0

def repeats : List Chars → List (Nat × Chars)
  | [] => []
  | line :: lines =>
    match repeats lines with
    | (n, other) :: others =>
      if other = line then (n + 1, other) :: others else (1, line) :: (n, other) :: others
    | [] => [(1, line)]

def uniq : Action :=
  withOptions ⟨"uniq", "cdu", "", [("count", 'c'), ("repeated", 'd'), ("unique", 'u')]⟩ 1
    fun p => do
      match ← fetch ((inputs p).head?.getD ['-']) with
      | .error fault =>
        Run.warn (plainRefusal "uniq" ((inputs p).head?.getD ['-']) fault)
        return 1
      | .ok content =>
        for (n, line) in repeats (content.lines.map Chars.withoutNewline) do
          if (p.has 'd' → n ≠ 1) ∧ (p.has 'u' → n = 1) then
            Run.say ((if p.has 'c' then padded 7 n ++ [' '] else []) ++ line ++ ['\n'])
        return 0

/-- A range of positions from one on, perhaps without an end. -/
structure Span where
  first : Nat
  last? : Option Nat

def Span.contains (s : Span) (n : Nat) : Bool :=
  s.first ≤ n && (s.last?.map fun last => decide (n ≤ last)).getD true

def spanOf (cs : Chars) : Span :=
  let first := cs.takeWhile Char.isDigit
  match cs.drop first.length with
  | '-' :: last =>
    ⟨if first = [] then 1 else Integer.ofDigits 10 first,
      if last = [] then none else some (Integer.ofDigits 10 last)⟩
  | _ => ⟨Integer.ofDigits 10 first, some (Integer.ofDigits 10 first)⟩

def selected {α : Type} (spans : List Span) (xs : List α) : List α :=
  ((List.range xs.length).zip xs).filterMap fun (n, x) =>
    if spans.any (·.contains (n + 1)) then some x else none

def cutLine (p : Parsed) (line : Chars) : Option Chars :=
  match p.value? 'f' with
  | some spans =>
    let delimiter := ((p.value? 'd').bind List.head?).getD '\t'
    if line.contains delimiter then
      some (Chars.join [delimiter]
        (selected ((Chars.split ',' spans).map spanOf) (Chars.split delimiter line)))
    else if p.has 's' then none
    else some line
  | none =>
    let spans := ((p.value? 'c').orElse fun _ => p.value? 'b').getD []
    some (selected ((Chars.split ',' spans).map spanOf) line)

def cut : Action :=
  withOptions ⟨"cut", "s", "dfcb", [("delimiter", 'd'), ("fields", 'f'), ("characters", 'c')]⟩ 1
    fun p => do
      if (p.value? 'f').isNone ∧ (p.value? 'c').isNone ∧ (p.value? 'b').isNone then
        Run.warn (complaint "cut"
          "you must specify a list of bytes, characters, or fields".toList ++ tryHelp "cut")
        return 1
      else if ((p.value? 'd').map fun delimiter => decide (1 < delimiter.length)).getD false then
        Run.warn (complaint "cut" "the delimiter must be a single character".toList ++
          tryHelp "cut")
        return 1
      else
        eachFile (inputs p) 1 (plainRefusal "cut") fun _ content =>
          Run.say (content.lines.flatMap fun line =>
            match cutLine p (Chars.withoutNewline line) with
            | some cs => cs ++ ['\n']
            | none => [])

def charRange (low high : Char) : Chars :=
  (List.range (high.toNat + 1 - low.toNat)).map fun n => .ofNat (low.toNat + n)

/-- The characters of a set: ranges, escapes and named classes. -/
def setOf : Nat → Chars → Chars
  | 0, _ => []
  | _ + 1, [] => []
  | fuel + 1, '[' :: cs =>
    match takeNamed cs with
    | some (ranges, n) =>
      ranges.flatMap (fun (low, high) => charRange low high) ++ setOf fuel (cs.drop n)
    | none => rangeFrom fuel '[' cs
  | fuel + 1, '\\' :: cs =>
    let (c, n) := takeEscape cs
    if n = 0 then
      match cs with
      | d :: ds => rangeFrom fuel d ds
      | [] => ['\\']
    else rangeFrom fuel c (cs.drop n)
  | fuel + 1, c :: cs => rangeFrom fuel c cs
where
  rangeFrom (fuel : Nat) (c : Char) (cs : Chars) : Chars :=
    match cs with
    | '-' :: d :: ds => charRange c d ++ setOf fuel ds
    | _ => c :: setOf fuel cs

def squeeze (set : Char → Bool) : Chars → Chars
  | a :: b :: cs =>
    if a = b ∧ set a = true then squeeze set (b :: cs) else a :: squeeze set (b :: cs)
  | cs => cs

def tr : Action :=
  withOptions ⟨"tr", "cCds", "",
      [("delete", 'd'), ("squeeze-repeats", 's'), ("complement", 'c')]⟩ 1 fun p => do
    match p.operands with
    | [] =>
      Run.warn (complaint "tr" "missing operand".toList ++ tryHelp "tr")
      return 1
    | first :: others =>
      let set := setOf (first.length + 1) first
      let target := (others.head?.map fun cs => setOf (cs.length + 1) cs).getD []
      let isIn (c : Char) : Bool := set.contains c != (p.has 'c' || p.has 'C')
      if others = [] ∧ !p.has 'd' ∧ !p.has 's' then
        Run.warn (complaint "tr" ("missing operand after ".toList ++ named first) ++
          "Two strings must be given when translating.\n".toList ++ tryHelp "tr")
        return 1
      else
        let content := (← Run.readAll 0).toOption.getD []
        let replaced (c : Char) : Char :=
          if !isIn c then c
          else
            match target.getLast? with
            | none => c
            | some last =>
              if p.has 'c' || p.has 'C' then last else (target[set.idxOf c]?).getD last
        if p.has 'd' then
          let kept := content.filter (!isIn ·)
          Run.say (if p.has 's' then squeeze target.contains kept else kept)
        else
          let made := content.map replaced
          let squeezed (c : Char) : Bool := if target = [] then isIn c else target.contains c
          Run.say (if p.has 's' then squeeze squeezed made else made)
        return 0

def tee : Action := withOptions ⟨"tee", "ai", "", [("append", 'a')]⟩ 1 fun p => do
  let content := (← Run.readAll 0).toOption.getD []
  Run.say content
  let mut status := 0
  for path in p.operands do
    let files := (← get).world.files
    let before := if p.has 'a' then (files.read path.text).toOption.getD [] else []
    match files.write path.text (before ++ content.bytes) with
    | .ok files => Run.onWorld fun w => { w with files := files }
    | .error fault =>
      Run.warn (plainRefusal "tee" path fault)
      status := 1
  return status

def rev : Action := withOptions ⟨"rev", "", "", []⟩ 1 fun p => do
  eachFile (inputs p) 1 (fun path => plainRefusal "rev" ("cannot open ".toList ++ path))
    fun _ content =>
      Run.say (content.lines.flatMap fun line =>
        (Chars.withoutNewline line).reverse ++ (if line.getLast? = some '\n' then ['\n'] else []))

def tac : Action := withOptions ⟨"tac", "", "", []⟩ 1 fun p => do
  eachFile (inputs p) 1 (openRefusal "tac") fun _ content => Run.say content.lines.reverse.flatten

/-- Numbers from a first one on, by a step, as long as they are not beyond a last one. -/
def sequence (step last : Int) : Nat → Int → List Int
  | 0, _ => []
  | fuel + 1, i =>
    if (0 < step ∧ last < i) ∨ (step < 0 ∧ i < last) then []
    else i :: sequence step last fuel (i + step)

def seq : Action := fun words => do
  let scans := words.map Integer.scanDecimal
  let numbers := scans.map Integer.Scan.value
  let (first, step, last) := match numbers with
    | [last] => ((1 : Int), (1 : Int), last)
    | [first, last] => (first, 1, last)
    | first :: step :: last :: _ => (first, step, last)
    | [] => (1, 1, 0)
  if words = [] then
    Run.warn (complaint "seq" "missing operand".toList ++ tryHelp "seq")
    return 1
  else if scans.any (·.rest ≠ []) then
    let wrong := (words.find? fun word => (Integer.scanDecimal word).rest ≠ []).getD []
    Run.warn (complaint "seq" ("invalid floating point argument: ".toList ++ named wrong) ++
      tryHelp "seq")
    return 1
  else
    let count := ((last - first).natAbs + 1)
    Run.say ((sequence step last count first).flatMap fun i => Chars.ofInt i ++ ['\n'])
    return 0

end SchemaContract.Shell.Utility
