import SchemaContract.Found
import SchemaContract.Schema.SyntaxError

/-!
The smallest readings of tokens: marks, words, names and separators. A fault keeps the tokens from
the place where it is found.
-/
namespace SchemaContract.Grammar

/-- A fault in the tokens: `rest` begins with the offending token, or is empty at the end. -/
structure Fault where
  cause : SyntaxError.Cause
  rest : List Token

def mark? (mark : Mark) : (ts : List Token) → Option (Found Token ts.length Unit)
  | [] => .none
  | t :: ts => if t.kind = .mark mark then some (.before () ts) else .none

def mark (mark : Mark) (what : Expectation) (ts : List Token) :
    Except Fault (Found Token ts.length Unit) :=
  match mark? mark ts with
  | some found => .ok found
  | none => .error ⟨.expected what, ts⟩

/-- Whether the first token is a mark, which is then read. -/
def optionalMark (mark : Mark) (ts : List Token) : Found Token (ts.length + 1) Bool :=
  match mark? mark ts with
  | some found => (found.map fun _ => true).lax
  | none => .before false ts

def name (what : Expectation) : (ts : List Token) → Except Fault (Found Token ts.length String)
  | [] => .error ⟨.expected what, []⟩
  | t :: ts => match t.kind with
    | .name name => .ok (.before name ts)
    | _ => .error ⟨.expected what, t :: ts⟩

def quoted (what : Expectation) : (ts : List Token) → Except Fault (Found Token ts.length String)
  | [] => .error ⟨.expected what, []⟩
  | t :: ts => match t.kind with
    | .text text => .ok (.before text ts)
    | _ => .error ⟨.expected what, t :: ts⟩

def optionalWord (word : String) : (ts : List Token) → Found Token (ts.length + 1) Bool
  | [] => .before false []
  | t :: ts =>
    if t.kind = .name word then (Found.before true ts).lax
    else .before false (t :: ts)

def dottedRest (start : String) :
    (ts : List Token) → Except Fault (Found Token (ts.length + 1) String)
  | [] => .ok (.before start [])
  | [t] =>
    if t.kind = .mark .dot then .error ⟨.expected .identifierAfterDot, []⟩
    else .ok (.before start [t])
  | t :: u :: ts =>
    if t.kind = .mark .dot then
      match u.kind with
      | .name part => do
        let found ← dottedRest (start ++ "." ++ part) ts
        .ok found.lax.lax
      | _ => .error ⟨.expected .identifierAfterDot, u :: ts⟩
    else .ok (.before start (t :: u :: ts))

def dottedName (ts : List Token) : Except Fault (Found Token ts.length String) := do
  let ⟨start, rest, h⟩ ← name .identifier ts
  let found ← dottedRest start rest
  .ok (found.widen h)

/-- What stands behind an element of a list in brackets: a separator, which is read, or the closing
mark, which is not. -/
def separator (close : Mark) (what : Expectation) :
    (ts : List Token) → Except Fault (Found Token (ts.length + 1) Unit)
  | [] => .error ⟨.expected what, []⟩
  | t :: ts =>
    if t.kind = .mark .semicolon ∨ t.kind = .mark .comma then
      .ok (Found.before () ts).lax
    else if t.kind = .mark close then .ok (.before () (t :: ts))
    else .error ⟨.expected what, t :: ts⟩

end SchemaContract.Grammar
