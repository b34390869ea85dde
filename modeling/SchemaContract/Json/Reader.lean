import SchemaContract.Json.Number
import SchemaContract.Json.Quoted

/-!
Reading JSON text. The fields of a record come out in the order of their keys, and of several fields
with one key the last is kept. Brackets nest at most 127 deep.
-/
namespace SchemaContract.Json

def isSpace (c : Char) : Bool := c == ' ' || c == '\t' || c == '\n' || c == '\r'

def next? : (cs : List Char) → Option (Found Char cs.length Char)
  | [] => none
  | c :: cs => if isSpace c then (next? cs).map Found.lax else some (.before c cs)

/-- Puts a field into fields in the order of their keys, in the place of one with its key. -/
def Field.insert (f : Field) : List Field → List Field
  | [] => [f]
  | g :: gs =>
    if f.key < g.key then f :: g :: gs
    else if f.key = g.key then f :: gs
    else g :: Field.insert f gs

def ofFields (fields : List Field) : Json :=
  .record (fields.foldl (fun sorted f => Field.insert f sorted) [])

def word (value : Json) : (word cs : List Char) → Except Fault (Found Char (cs.length + 1) Json)
  | [], cs => .ok (.before value cs)
  | _ :: _, [] => .error (.behind .endInValue [])
  | w :: ws, c :: cs =>
    if c = w then do
      .ok (← Json.word value ws cs).lax
    else .error (.next .noWord (c :: cs))

def colon (cs : List Char) : Except Fault (Found Char cs.length Unit) :=
  match next? cs with
  | none => .error (.behind .endInRecord [])
  | some ⟨':', cs₁, h₁⟩ => .ok ⟨(), cs₁, h₁⟩
  | some ⟨c, cs₁, _⟩ => .error (.next .noColon (c :: cs₁))

/-- The key of a field, from behind its opening quote on, with the colon behind it. -/
def key (cs : List Char) : Except Fault (Found Char cs.length String) := do
  let ⟨chars, cs₁, h₁⟩ ← quotedChars cs
  let ⟨_, cs₂, h₂⟩ := (← colon cs₁).after h₁
  .ok ⟨String.ofList chars, cs₂, h₂⟩

mutual

/-- A value, with `depth` brackets left to open. -/
def value (depth : Nat) (cs : List Char) : Except Fault (Found Char cs.length Json) :=
  match next? cs with
  | none => .error (.behind .endInValue [])
  | some ⟨c, cs₁, h₁⟩ =>
    if c = 'n' then do
      .ok ((← word .null ['u', 'l', 'l'] cs₁).widen h₁)
    else if c = 't' then do
      .ok ((← word (.boolean true) ['r', 'u', 'e'] cs₁).widen h₁)
    else if c = 'f' then do
      .ok ((← word (.boolean false) ['a', 'l', 's', 'e'] cs₁).widen h₁)
    else if c = '-' then do
      .ok ((← Number.read true cs₁).after h₁)
    else if c.isDigit then do
      .ok ((← Number.read false (c :: cs₁)).widen h₁)
    else if c = '"' then do
      let ⟨chars, cs₂, h₂⟩ := (← quotedChars cs₁).after h₁
      .ok ⟨.text (String.ofList chars), cs₂, h₂⟩
    else if c = '[' then
      match depth with
      | 0 => .error (.next .tooDeep (c :: cs₁))
      | depth + 1 => do
        let ⟨items, cs₂, h₂⟩ := (← items depth cs₁).after h₁
        .ok ⟨.list items, cs₂, h₂⟩
    else if c = '\x7b' then
      match depth with
      | 0 => .error (.next .tooDeep (c :: cs₁))
      | depth + 1 => do
        let ⟨fields, cs₂, h₂⟩ := (← fields depth cs₁).after h₁
        .ok ⟨ofFields fields, cs₂, h₂⟩
    else .error (.next .noValue (c :: cs₁))
termination_by 2 * cs.length

def items (depth : Nat) (cs : List Char) : Except Fault (Found Char cs.length (List Json)) :=
  match next? cs with
  | none => .error (.behind .endInList [])
  | some ⟨']', cs₁, h₁⟩ => .ok ⟨[], cs₁, h₁⟩
  | some _ => do
    let ⟨first, cs₁, h₁⟩ ← value depth cs
    let ⟨others, cs₂, h₂⟩ := (← moreItems depth cs₁).after h₁
    .ok ⟨first :: others, cs₂, h₂⟩
termination_by 2 * cs.length + 1

def moreItems (depth : Nat) (cs : List Char) : Except Fault (Found Char cs.length (List Json)) :=
  match next? cs with
  | none => .error (.behind .endInList [])
  | some ⟨']', cs₁, h₁⟩ => .ok ⟨[], cs₁, h₁⟩
  | some ⟨',', cs₁, h₁⟩ =>
    match next? cs₁ with
    | none => .error (.behind .endInValue [])
    | some ⟨']', cs₂, _⟩ => .error (.next .trailingComma (']' :: cs₂))
    | some _ => do
      let ⟨item, cs₂, h₂⟩ := (← value depth cs₁).after h₁
      let ⟨others, cs₃, h₃⟩ := (← moreItems depth cs₂).after h₂
      .ok ⟨item :: others, cs₃, h₃⟩
  | some ⟨c, cs₁, _⟩ => .error (.next .noComma (c :: cs₁))
termination_by 2 * cs.length

def fields (depth : Nat) (cs : List Char) : Except Fault (Found Char cs.length (List Field)) :=
  match next? cs with
  | none => .error (.behind .endInRecord [])
  | some ⟨'\x7d', cs₁, h₁⟩ => .ok ⟨[], cs₁, h₁⟩
  | some ⟨'"', cs₁, h₁⟩ => do
    let ⟨fieldKey, cs₂, h₂⟩ := (← key cs₁).after h₁
    let ⟨fieldValue, cs₃, h₃⟩ := (← value depth cs₂).after h₂
    let ⟨others, cs₄, h₄⟩ := (← moreFields depth cs₃).after h₃
    .ok ⟨⟨fieldKey, fieldValue⟩ :: others, cs₄, h₄⟩
  | some ⟨c, cs₁, _⟩ => .error (.next .noKey (c :: cs₁))
termination_by 2 * cs.length

def moreFields (depth : Nat) (cs : List Char) : Except Fault (Found Char cs.length (List Field)) :=
  match next? cs with
  | none => .error (.behind .endInRecord [])
  | some ⟨'\x7d', cs₁, h₁⟩ => .ok ⟨[], cs₁, h₁⟩
  | some ⟨',', cs₁, h₁⟩ =>
    match next? cs₁ with
    | none => .error (.behind .endInValue [])
    | some ⟨'\x7d', cs₂, _⟩ => .error (.next .trailingComma ('\x7d' :: cs₂))
    | some ⟨'"', cs₂, h₂⟩ => do
      let ⟨fieldKey, cs₃, h₃⟩ := ((← key cs₂).after h₂).after h₁
      let ⟨fieldValue, cs₄, h₄⟩ := (← value depth cs₃).after h₃
      let ⟨others, cs₅, h₅⟩ := (← moreFields depth cs₄).after h₄
      .ok ⟨⟨fieldKey, fieldValue⟩ :: others, cs₅, h₅⟩
    | some ⟨c, cs₂, _⟩ => .error (.next .noKey (c :: cs₂))
  | some ⟨c, cs₁, _⟩ => .error (.next .noCommaInRecord (c :: cs₁))
termination_by 2 * cs.length

end

def depthLimit : Nat := 127

/-- The value that a text is, with nothing but white space around it. -/
def read (cs : List Char) : Except Fault Json := do
  let found ← value depthLimit cs
  match next? found.rest with
  | none => .ok found.value
  | some ⟨c, cs, _⟩ => .error (.next .trailingText (c :: cs))

end SchemaContract.Json
