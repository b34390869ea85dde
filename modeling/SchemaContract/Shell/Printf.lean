import SchemaContract.Number.Places
import SchemaContract.Shell.Integer

/-!
Formatted output: escapes, which may stand for single bytes, and directives, which write one
argument each. A format is used again as long as arguments are left for it.
-/
namespace SchemaContract.Shell

def escapeChar? : Char → Option Char
  | 'a' => some '\x07'
  | 'b' => some '\x08'
  | 'f' => some '\x0c'
  | 'n' => some '\n'
  | 'r' => some '\r'
  | 't' => some '\t'
  | 'v' => some '\x0b'
  | '\\' => some '\\'
  | _ => none

/-- The character that an escape stands for, from behind its backslash on, and how many characters
it takes: up to three octal digits, or a letter. What is no escape leaves the backslash. -/
def takeEscape (cs : Chars) : Char × Nat :=
  match (cs.takeWhile (Integer.isDigitIn 8)).take 3 with
  | [] =>
    match cs.head?.bind escapeChar? with
    | some c => (c, 1)
    | none => ('\\', 0)
  | digits => (.ofNat (Integer.ofDigits 8 digits % 256), digits.length)

/-- An argument with its escapes carried out. An octal number may have a zero more in front, and
`\c` ends all output. -/
def unescape : Nat → Chars → Chars × Bool
  | 0, _ => ([], false)
  | _ + 1, [] => ([], false)
  | _ + 1, '\\' :: 'c' :: _ => ([], true)
  | fuel + 1, '\\' :: cs =>
    let digits := match cs with
      | '0' :: d :: ds => if Integer.isDigitIn 8 d then d :: ds else cs
      | _ => cs
    let (c, n) := takeEscape digits
    let (others, ends) := unescape fuel (digits.drop n)
    (c :: others, ends)
  | fuel + 1, c :: cs =>
    let (others, ends) := unescape fuel cs
    (c :: others, ends)

/-- What is written of arguments with blanks between them, and whether the output ends there. -/
def echoed : List Chars → Chars × Bool
  | [] => ([], false)
  | cs :: others =>
    let (text, ends) := unescape (cs.length + 1) cs
    if ends then (text, true)
    else
      match others with
      | [] => (text, false)
      | others =>
        let (rest, ends) := echoed others
        (text ++ ' ' :: rest, ends)

inductive Measure where
  | stated (n : Nat)
  | argument
deriving DecidableEq, Repr

structure Directive where
  flags : List Char
  width? : Option Measure
  precision? : Option Measure
  kind : Char
deriving DecidableEq, Repr

inductive PrintfFault where
  | missingKind
  | unknownKind (text : Chars)
deriving DecidableEq, Repr

def PrintfFault.message : PrintfFault → Chars
  | missingKind => "missing format character".toList
  | unknownKind text => text ++ ": invalid directive".toList

def takeMeasure (cs : Chars) : Option Measure × Chars :=
  match cs with
  | '*' :: rest => (some .argument, rest)
  | _ =>
    match cs.takeWhile Char.isDigit with
    | [] => (none, cs)
    | digits => (some (.stated (Integer.ofDigits 10 digits)), cs.drop digits.length)

def takeDirective (cs : Chars) : Except PrintfFault (Directive × Chars) :=
  let flags := cs.takeWhile "#-+ 0".toList.contains
  let (width?, rest) := takeMeasure (cs.drop flags.length)
  let (precision?, rest) := match rest with
    | '.' :: rest =>
      let (precision?, rest) := takeMeasure rest
      (some (precision?.getD (.stated 0)), rest)
    | rest => (none, rest)
  match rest with
  | [] => .error .missingKind
  | kind :: rest =>
    if "bcsdiouxXeEfFgG".toList.contains kind then .ok (⟨flags, width?, precision?, kind⟩, rest)
    else .error (.unknownKind ('%' :: cs.take (cs.length - rest.length)))

structure Printing where
  arguments : List Chars
  output : Chars
  complaints : List Chars
  fault? : Option PrintfFault
  ended : Bool

abbrev Printer := StateM Printing

def Printer.write (cs : Chars) : Printer Unit :=
  modify fun p => { p with output := p.output ++ cs }

def Printer.complain (cs : Chars) : Printer Unit :=
  modify fun p => { p with complaints := p.complaints ++ [cs] }

def Printer.nextArgument? : Printer (Option Chars) := do
  let p ← get
  set { p with arguments := p.arguments.tail }
  return p.arguments.head?

def Printer.checkRest (argument rest : Chars) : Printer Unit := do
  if rest ≠ [] then
    if rest = argument then complain (argument ++ ": expected numeric value".toList)
    else complain (argument ++ ": not completely converted".toList)

/-- A number from the next argument. A quote stands for the number of the character behind it. -/
def Printer.nextInteger (signed : Bool) : Printer Int := do
  match ← nextArgument? with
  | none => return 0
  | some argument =>
    match argument with
    | '\'' :: rest | '"' :: rest => return (rest.head?.map Char.toNat).getD 0
    | _ =>
      let scan := Integer.scan argument
      let held :=
        if signed then Integer.clamp scan.value
        else if scan.value.natAbs < Integer.whole then scan.value
        else (Integer.whole : Int) - 1
      if scan.rest ≠ [] then checkRest argument scan.rest
      else if held ≠ scan.value then
        complain (argument ++ ": Numerical result out of range".toList)
      return held

def Printer.nextDecimal : Printer Binary64 := do
  match ← nextArgument? with
  | none => return .ofNat 0
  | some argument =>
    match argument with
    | '\'' :: rest | '"' :: rest => return .ofNat ((rest.head?.map Char.toNat).getD 0)
    | [] => return .ofNat 0
    | _ =>
      let spaced := argument.dropWhile Integer.isSpace
      let taken := match spaced with
        | '-' :: rest => Binary64.takeDecimal? true rest
        | '+' :: rest => Binary64.takeDecimal? false rest
        | rest => Binary64.takeDecimal? false rest
      match taken with
      | some (x, rest) =>
        checkRest argument rest
        return x
      | none =>
        checkRest argument argument
        return .ofNat 0

def Printer.measure : Option Measure → Printer (Option Int)
  | none => return none
  | some (.stated n) => return some n
  | some .argument => return some (← nextInteger true)

/-- A text put into a width: blanks before it, or behind it when it stands on the left. -/
def inWidth (left : Bool) (width : Nat) (cs : Chars) : Chars :=
  let blanks := List.replicate (width - cs.length) ' '
  if left then cs ++ blanks else blanks ++ cs

/-- A number put into a width. Zeros that fill it stand behind what leads the digits. -/
def numberInWidth (left zeros : Bool) (width : Nat) (lead digits : Chars) : Chars :=
  if zeros ∧ left = false then
    lead ++ List.replicate (width - lead.length - digits.length) '0' ++ digits
  else inWidth left width (lead ++ digits)

def signLead (flags : List Char) (negative : Bool) : Chars :=
  if negative then ['-']
  else if flags.contains '+' then ['+']
  else if flags.contains ' ' then [' ']
  else []

def largeLetters (cs : Chars) : Chars :=
  cs.map Char.toUpper

/-- Digits with zeros in front up to a precision. No digits are left of zero at precision zero. -/
def withPrecision (precision? : Option Nat) (digits : Chars) : Chars :=
  match precision? with
  | none => digits
  | some precision =>
    if precision = 0 ∧ digits = ['0'] then []
    else List.replicate (precision - digits.length) '0' ++ digits

def unsignedDigits (d : Directive) (precision? : Option Nat) (n : Nat) : Chars × Chars :=
  let alternate := d.flags.contains '#'
  match d.kind with
  | 'o' =>
    let digits := withPrecision precision? (Integer.toDigits 8 n)
    ([], if alternate && digits.head? != some '0' then '0' :: digits else digits)
  | 'x' =>
    (if alternate && n != 0 then ['0', 'x'] else [],
      withPrecision precision? (Integer.toDigits 16 n))
  | 'X' =>
    (if alternate && n != 0 then ['0', 'X'] else [],
      withPrecision precision? (largeLetters (Integer.toDigits 16 n)))
  | _ => ([], withPrecision precision? (Integer.toDigits 10 n))

/-- The digits of a decimal number. Six places are usual. -/
def decimalDigits (kind : Char) (precision? : Option Nat) (x : Binary64) : Chars :=
  let places := precision?.getD 6
  if !x.isFinite then (if x.unsigned = Binary64.infinity then "inf".toList else "nan".toList)
  else
    match kind with
    | 'e' => x.scientific places
    | 'E' => largeLetters (x.scientific places)
    | 'g' => x.general places
    | 'G' => largeLetters (x.general places)
    | _ => x.fixedPlaces places

def Directive.print (d : Directive) : Printer Unit := do
  let width ← Printer.measure d.width?
  let precision ← Printer.measure d.precision?
  let left := d.flags.contains '-' || (width.getD 0) < 0
  let width := (width.getD 0).natAbs
  let precision? := (precision.filter (0 ≤ ·)).map Int.toNat
  let zeros := d.flags.contains '0'
  let cut (cs : Chars) : Chars := match precision? with
    | some n => cs.take n
    | none => cs
  match d.kind with
  | 's' =>
    let argument := (← Printer.nextArgument?).getD []
    Printer.write (inWidth left width (cut argument))
  | 'b' =>
    let argument := (← Printer.nextArgument?).getD []
    let (text, ends) := unescape (argument.length + 1) argument
    Printer.write (inWidth left width (cut text))
    modify fun p => { p with ended := ends }
  | 'c' =>
    let argument := (← Printer.nextArgument?).getD []
    Printer.write (inWidth left width [argument.head?.getD '\x00'])
  | 'd' | 'i' =>
    let i ← Printer.nextInteger true
    let digits := withPrecision precision? (Integer.toDigits 10 i.natAbs)
    Printer.write
      (numberInWidth left (zeros && precision?.isNone) width (signLead d.flags (i < 0)) digits)
  | 'o' | 'u' | 'x' | 'X' =>
    let i ← Printer.nextInteger false
    let (lead, digits) := unsignedDigits d precision? (Integer.unsigned i)
    Printer.write (numberInWidth left (zeros && precision?.isNone) width lead digits)
  | kind =>
    let x ← Printer.nextDecimal
    let digits := decimalDigits kind precision? x
    Printer.write
      (numberInWidth left (zeros && x.isFinite) width (signLead d.flags x.isNegative) digits)

def printOnce : Nat → Chars → Printer Unit
  | 0, _ => return ()
  | _ + 1, [] => return ()
  | fuel + 1, '\\' :: cs => do
    let (c, n) := takeEscape cs
    Printer.write [c]
    printOnce fuel (cs.drop n)
  | fuel + 1, '%' :: '%' :: cs => do
    Printer.write ['%']
    printOnce fuel cs
  | fuel + 1, '%' :: cs => do
    match takeDirective cs with
    | .error fault => modify fun p => { p with fault? := some fault, ended := true }
    | .ok (d, rest) =>
      d.print
      if !(← get).ended then printOnce fuel rest
  | fuel + 1, c :: cs => do
    Printer.write [c]
    printOnce fuel cs

/-- Passes over a format, the first in any case, until a pass uses up the last argument or none. -/
def printAgain (format : Chars) : Nat → Printer Unit
  | 0 => return ()
  | fuel + 1 => do
    let before := (← get).arguments.length
    printOnce (format.length + 1) format
    let p ← get
    if !p.ended ∧ p.arguments ≠ [] ∧ p.arguments.length < before then printAgain format fuel

def printf (format : Chars) (arguments : List Chars) : Printing :=
  ((printAgain format (arguments.length + 1)).run ⟨arguments, [], [], none, false⟩).2

example : (printf "%s|".toList ["a".toList, "b".toList]).output = "a|b|".toList := by
  decide +kernel
example : (printf "%03d%x\\101".toList ["7".toList, "255".toList]).output = "007ffA".toList := by
  decide +kernel

end SchemaContract.Shell
