import SchemaContract.Found
import SchemaContract.Json.Fault

/-!
Quoted texts in JSON, read from behind the opening quote on. An escape in hexadecimal is a UTF-16
unit; units that are surrogates must stand in pairs.
-/
namespace SchemaContract.Json

def hexValue? (c : Char) : Option Nat :=
  if c.isDigit then some (c.toNat - '0'.toNat)
  else if 'a' ≤ c ∧ c ≤ 'f' then some (c.toNat - 'a'.toNat + 10)
  else if 'A' ≤ c ∧ c ≤ 'F' then some (c.toNat - 'A'.toNat + 10)
  else none

/-- Four hexadecimal digits. Four bytes must be left for them. -/
def hexUnit (cs : List Char) : Except Fault (Found Char cs.length Nat) :=
  if Text.byteLength cs < 4 then .error (.behind .endInText [])
  else
    match cs with
    | a :: b :: c :: d :: rest =>
      match hexValue? a, hexValue? b, hexValue? c, hexValue? d with
      | some a, some b, some c, some d =>
        .ok (Found.before (((a * 16 + b) * 16 + c) * 16 + d) rest).lax.lax.lax
      | _, _, _, _ => .error ⟨.badEscape, a :: b :: c :: d :: rest, 4⟩
    | cs => .error ⟨.badEscape, cs, 4⟩

def isLeading (unit : Nat) : Bool := 0xD800 ≤ unit && unit < 0xDC00

def isTrailing (unit : Nat) : Bool := 0xDC00 ≤ unit && unit < 0xE000

/-- The character that two surrogates stand for. -/
def pairChar (leading trailing : Nat) : Char :=
  Char.ofNat ((leading - 0xD800) * 1024 + (trailing - 0xDC00) + 0x10000)

def trailingUnit : (cs : List Char) → Except Fault (Found Char cs.length Nat)
  | '\\' :: 'u' :: cs => do
    let found ← hexUnit cs
    if isTrailing found.value then .ok found.lax.lax
    else .error (.behind .loneSurrogate found.rest)
  | [] | ['\\'] => .error (.behind .endInText [])
  | '\\' :: cs => .error (.next .endOfEscape cs)
  | cs => .error (.next .endOfEscape cs)

def hexChar (cs : List Char) : Except Fault (Found Char cs.length Char) := do
  let ⟨unit, cs₁, h₁⟩ ← hexUnit cs
  if isTrailing unit then .error (.behind .loneSurrogate cs₁)
  else if isLeading unit then
    let ⟨second, cs₂, h₂⟩ := (← trailingUnit cs₁).after h₁
    .ok ⟨pairChar unit second, cs₂, h₂⟩
  else .ok ⟨Char.ofNat unit, cs₁, h₁⟩

def shortEscape? : Char → Option Char
  | '"' => some '"'
  | '\\' => some '\\'
  | '/' => some '/'
  | 'b' => some '\x08'
  | 'f' => some '\x0c'
  | 'n' => some '\n'
  | 'r' => some '\r'
  | 't' => some '\t'
  | _ => none

/-- The character of an escape, from behind the backslash on. -/
def escapedChar : (cs : List Char) → Except Fault (Found Char cs.length Char)
  | [] => .error (.behind .endInText [])
  | c :: cs =>
    if c = 'u' then do
      .ok (← hexChar cs).lax
    else
      match shortEscape? c with
      | some e => .ok (.before e cs)
      | none => .error (.next .badEscape (c :: cs))

def quotedChars (cs : List Char) : Except Fault (Found Char cs.length (List Char)) :=
  match cs with
  | [] => .error (.behind .endInText [])
  | c :: cs =>
    if c = '"' then .ok (.before [] cs)
    else if c = '\\' then do
      let ⟨e, cs₁, h₁⟩ ← escapedChar cs
      let ⟨others, cs₂, h₂⟩ := (← quotedChars cs₁).after h₁
      .ok (.lax ⟨e :: others, cs₂, h₂⟩)
    else if c.toNat < 0x20 then .error (.next .controlCharacter (c :: cs))
    else do
      let found ← quotedChars cs
      .ok (found.map fun others => c :: others).lax
termination_by cs.length

end SchemaContract.Json
