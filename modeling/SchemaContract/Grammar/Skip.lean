import SchemaContract.Grammar.Reading

/-!
What is skipped unread: blocks in braces, the inside of projections, and statements that begin with
no keyword.
-/
namespace SchemaContract.Grammar

/-- The tokens behind the brace that closes the block whose inside begins here, after `depth` blocks
that are open inside it; none if it is not closed. -/
def behindBlock (depth : Nat) : List Token → Option (List Token)
  | [] => none
  | t :: ts =>
    if t.kind = .mark .leftBrace then behindBlock (depth + 1) ts
    else if t.kind = .mark .rightBrace then
      match depth with
      | 0 => some ts
      | depth + 1 => behindBlock depth ts
    else behindBlock depth ts

theorem behindBlock_length_lt {depth : Nat} {ts rest : List Token}
    (h : behindBlock depth ts = some rest) : rest.length < ts.length := by
  fun_induction behindBlock depth ts with
  | case1 => cases h
  | case2 depth t ts _ ih => exact Nat.lt_succ_of_lt (ih h)
  | case3 t ts => cases h; exact Nat.lt_succ_self _
  | case4 t ts _ _ depth ih => exact Nat.lt_succ_of_lt (ih h)
  | case5 depth t ts _ _ ih => exact Nat.lt_succ_of_lt (ih h)

/-- The tokens from which reading goes on inside a statement that is skipped: behind its semicolon
or its block, or from a closing brace on. A block that is not closed takes all. -/
def recovered : List Token → List Token
  | [] => []
  | t :: ts =>
    if t.kind = .mark .semicolon then ts
    else if t.kind = .mark .leftBrace then (behindBlock 0 ts).getD []
    else if t.kind = .mark .rightBrace then t :: ts
    else recovered ts

theorem recovered_length_le (ts : List Token) : (recovered ts).length ≤ ts.length := by
  fun_induction recovered ts with
  | case1 => exact Nat.le_refl _
  | case2 => exact Nat.le_succ _
  | case3 t ts =>
    cases h : behindBlock 0 ts with
    | none => exact Nat.zero_le _
    | some rest => exact Nat.le_succ_of_le (Nat.le_of_lt (behindBlock_length_lt h))
  | case4 => exact Nat.le_refl _
  | case5 t ts _ _ _ ih => exact Nat.le_succ_of_le ih

/-- The tokens behind a statement that is skipped from its first token on. A closing brace is
skipped alone. -/
def skipStatement (t : Token) (ts : List Token) : List Token :=
  if t.kind = .mark .rightBrace then ts else recovered (t :: ts)

theorem skipStatement_length_le (t : Token) (ts : List Token) :
    (skipStatement t ts).length ≤ ts.length := by
  unfold skipStatement
  split
  · exact Nat.le_refl _
  · rw [recovered]
    split
    · exact Nat.le_refl _
    split
    · cases h : behindBlock 0 ts with
      | none => exact Nat.zero_le _
      | some rest => exact Nat.le_of_lt (behindBlock_length_lt h)
    · exact recovered_length_le ts

theorem skipStatement_length_lt (t : Token) (ts : List Token) :
    (skipStatement t ts).length < (t :: ts).length :=
  Nat.lt_succ_of_le (skipStatement_length_le t ts)

def projection : (ts : List Token) → Except Fault (Found Token ts.length Unit)
  | [] => .error ⟨.expected .projectionBody, []⟩
  | t :: ts =>
    if t.kind = .mark .leftBrace then
      match h : behindBlock 0 ts with
      | some rest => .ok (.lax ⟨(), rest, behindBlock_length_lt h⟩)
      | none => .error ⟨.openBrace, []⟩
    else do
      .ok (← projection ts).lax

end SchemaContract.Grammar
