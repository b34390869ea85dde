import SchemaContract.Shell.Pattern

/-!
Regular expressions of the two usual spellings, and where they match a line. Of the matches from the
first place that has any, the longest counts.
-/
namespace SchemaContract.Shell

inductive Regex where
  | nothing
  | oneOf (k : CharClass)
  | lineStart
  | lineEnd
  | wordBorder (atStart atEnd : Bool)
  | sequence (first second : Regex)
  | either (first second : Regex)
  | repeated (body : Regex) (least : Nat) (most? : Option Nat)
  | group (number : Nat) (body : Regex)
  /-- The text of a group once more. -/
  | again (number : Nat)
deriving DecidableEq, Repr

namespace Regex

/-- A place in a line, with the texts of the groups so far, the last first. -/
structure Spot where
  previous? : Option Char
  rest : Chars
  groups : List (Nat × Chars)

def isWordChar (c : Char) : Bool := c.isAlphanum || c == '_'

def Spot.behind (s : Spot) (n : Nat) : Spot :=
  { s with
    previous? := if n = 0 then s.previous? else (s.rest.take n).getLast?
    rest := s.rest.drop n }

def holds (k : CharClass) (folded : Bool) (c : Char) : Bool :=
  k.contains c || (folded && (k.contains c.toLower || k.contains c.toUpper))

/-- The places behind so many matches one after another, more of them first. -/
def repetitions (step : Spot → List Spot) : Nat → Nat → Option Nat → Spot → List Spot
  | 0, _, _, s => [s]
  | fuel + 1, least, most?, s =>
    let further :=
      if most? = some 0 then []
      else
        ((step s).filter fun t => t.rest.length < s.rest.length || least > 0).flatMap
          (repetitions step fuel (least - 1) (most?.map (· - 1)))
    further ++ (if least = 0 then [s] else [])

def matchesFrom (folded : Bool) : Regex → Spot → List Spot
  | nothing, s => [s]
  | oneOf k, s =>
    match s.rest with
    | c :: _ => if holds k folded c then [s.behind 1] else []
    | [] => []
  | lineStart, s => if s.previous?.isNone then [s] else []
  | lineEnd, s => if s.rest = [] then [s] else []
  | wordBorder atStart atEnd, s =>
    let left := (s.previous?.map isWordChar).getD false
    let right := (s.rest.head?.map isWordChar).getD false
    if (atStart && !left && right) || (atEnd && left && !right) then [s] else []
  | sequence first second, s =>
    (matchesFrom folded first s).flatMap (matchesFrom folded second)
  | either first second, s => matchesFrom folded first s ++ matchesFrom folded second s
  | repeated body least most?, s =>
    repetitions (matchesFrom folded body) (s.rest.length + least + 1) least most? s
  | group number body, s =>
    (matchesFrom folded body s).map fun t =>
      { t with groups := (number, s.rest.take (s.rest.length - t.rest.length)) :: t.groups }
  | again number, s =>
    let text := (s.groups.lookup number).getD []
    if text.isPrefixOf s.rest then [s.behind text.length] else []

def longest? (r : Regex) (folded : Bool) (s : Spot) : Option Spot :=
  (matchesFrom folded r s).foldl (fun best? t =>
    match best? with
    | none => some t
    | some best => if t.rest.length < best.rest.length then some t else some best) none

/-- The first match in a rest of a line: what stands before it, and the places at both its ends. -/
def find? (r : Regex) (folded : Bool) (before : Chars) : (previous? : Option Char) → Chars →
    Option (Chars × Spot × Spot)
  | previous?, [] =>
    (r.longest? folded ⟨previous?, [], []⟩).map fun t => (before, ⟨previous?, [], []⟩, t)
  | previous?, c :: cs =>
    match r.longest? folded ⟨previous?, c :: cs, []⟩ with
    | some t => some (before, ⟨previous?, c :: cs, []⟩, t)
    | none => find? r folded (before ++ [c]) (some c) cs

def isIn (r : Regex) (folded : Bool) (line : Chars) : Bool :=
  (r.find? folded [] none line).isSome

def char (c : Char) : Regex := .oneOf ⟨false, [(c, c)]⟩

def any : Regex := .oneOf ⟨true, [('\n', '\n')]⟩

def wordClass : List (Char × Char) := [('a', 'z'), ('A', 'Z'), ('0', '9'), ('_', '_')]

abbrev Reading := StateT (Chars × Nat) Option

def ahead : Reading Chars := return (← get).1

def drop (n : Nat) : Reading Unit := modify fun (cs, groups) => (cs.drop n, groups)

def escaped (c : Char) : Regex :=
  match c with
  | 'w' => .oneOf ⟨false, wordClass⟩
  | 'W' => .oneOf ⟨true, wordClass⟩
  | 's' => .oneOf ⟨false, [('\t', '\r'), (' ', ' ')]⟩
  | 'S' => .oneOf ⟨true, [('\t', '\r'), (' ', ' ')]⟩
  | '<' => .wordBorder true false
  | '>' => .wordBorder false true
  | 'b' => .wordBorder true true
  | 'n' => char '\n'
  | 't' => char '\t'
  | c => if c.isDigit ∧ c ≠ '0' then .again (c.toNat - '0'.toNat) else char c

/-- The bounds of a repetition in braces, and what is behind the number or numbers. -/
def takeBounds (cs : Chars) : (Nat × Option Nat) × Chars :=
  let number (digits : Chars) : Nat :=
    digits.foldl (fun n c => 10 * n + (c.toNat - '0'.toNat)) 0
  let first := cs.takeWhile Char.isDigit
  match cs.drop first.length with
  | ',' :: rest =>
    let second := rest.takeWhile Char.isDigit
    ((number first, if second = [] then none else some (number second)),
      rest.drop second.length)
  | rest => ((number first, some (number first)), rest)

/-- The repetition sign at the front of a text: its bounds, and how many characters it takes. -/
def repetition? (extended : Bool) (cs : Chars) : Option ((Nat × Option Nat) × Nat) :=
  match extended, cs with
  | _, '*' :: _ => some ((0, none), 1)
  | true, '+' :: _ => some ((1, none), 1)
  | true, '?' :: _ => some ((0, some 1), 1)
  | true, '\x7b' :: rest =>
    match takeBounds rest with
    | (bounds, '\x7d' :: behind) => some (bounds, cs.length - behind.length)
    | _ => none
  | false, '\\' :: '+' :: _ => some ((1, none), 2)
  | false, '\\' :: '?' :: _ => some ((0, some 1), 2)
  | false, '\\' :: '\x7b' :: rest =>
    match takeBounds rest with
    | (bounds, '\\' :: '\x7d' :: behind) => some (bounds, cs.length - behind.length)
    | _ => none
  | _, _ => none

/-- How many characters the sign takes that opens a group, parts alternatives or closes a group. -/
def signLength (extended : Bool) (sign : Char) (cs : Chars) : Nat :=
  match extended, cs with
  | true, c :: _ => if c = sign then 1 else 0
  | false, '\\' :: c :: _ => if c = sign then 2 else 0
  | _, _ => 0

def isEnd (extended : Bool) (cs : Chars) : Bool :=
  cs.isEmpty || signLength extended '|' cs != 0 || signLength extended ')' cs != 0

def repetitionsOf (extended : Bool) : Nat → Regex → Reading Regex
  | 0, r => return r
  | fuel + 1, r => do
    match repetition? extended (← ahead) with
    | some ((least, most?), n) =>
      drop n
      repetitionsOf extended fuel (.repeated r least most?)
    | none => return r

mutual

def alternatives (extended : Bool) : Nat → Reading Regex
  | 0 => failure
  | fuel + 1 => do
    let first ← branch extended fuel true
    let n := signLength extended '|' (← ahead)
    if n = 0 then return first
    else
      drop n
      return .either first (← alternatives extended fuel)

/-- Pieces one after another. A star at the start stands for itself. -/
def branch (extended : Bool) : Nat → Bool → Reading Regex
  | 0, _ => failure
  | fuel + 1, atStart => do
    let cs ← ahead
    if isEnd extended cs then return .nothing
    else
      let first ← atom extended fuel atStart
      let first ←
        if first = .lineStart then pure first else repetitionsOf extended cs.length first
      return .sequence first (← branch extended fuel (first == .lineStart))

def atom (extended : Bool) : Nat → Bool → Reading Regex
  | 0, _ => failure
  | fuel + 1, atStart => do
    let cs ← ahead
    let n := signLength extended '(' cs
    if n ≠ 0 then
      drop n
      modify fun (cs, groups) => (cs, groups + 1)
      let number := (← get).2
      let body ← alternatives extended fuel
      let m := signLength extended ')' (← ahead)
      if m = 0 then failure
      else
        drop m
        return .group number body
    else
      match cs with
      | '\\' :: c :: _ =>
        drop 2
        return escaped c
      | '[' :: rest =>
        match takeRanges (rest.length + 1) true (if rest.head? = some '^' then rest.tail else rest)
        with
        | some (ranges, k) =>
          let negated := rest.head? = some '^'
          drop (if negated then k + 2 else k + 1)
          return .oneOf ⟨negated, ranges⟩
        | none => failure
      | '.' :: _ =>
        drop 1
        return any
      | '^' :: _ =>
        drop 1
        return if extended || atStart then .lineStart else char '^'
      | '$' :: rest =>
        drop 1
        return if extended || isEnd extended rest then .lineEnd else char '$'
      | c :: _ =>
        drop 1
        return char c
      | [] => failure

end

def read? (extended : Bool) (cs : Chars) : Option Regex :=
  match (alternatives extended (4 * (cs.length + 2))).run (cs, 0) with
  | some (r, ([], _)) => some r
  | _ => none

def ofText : Chars → Regex
  | [] => .nothing
  | c :: cs => .sequence (char c) (ofText cs)

example : (read? false "^a[0-9]*b$".toList).map (isIn · false "a12b".toList) = some true := by
  decide +kernel

end Regex
end SchemaContract.Shell
