import SchemaContract.Number.Spelling
import SchemaContract.Schema.SyntaxError
import SchemaContract.Text.Blank

/-!
Lexemes: the pieces that a source text is made of. A piece is a token as it is spelled, a blank or
a comment. The spellings of the pieces of a text are the text, and no piece is empty, so cutting a
text into tokens ends.
-/
namespace SchemaContract

def isNameStart (c : Char) : Bool :=
  c.isAlpha || c == '_' || c == '$'

def isNameRest (c : Char) : Bool :=
  c.isAlphanum || c == '_' || c == '$'

/-- A piece of a text: how it is spelled, and the token it is unless it is a blank or a comment. -/
structure Lexeme where
  spelling : List Char
  kind? : Option Token.Kind

namespace Lexeme

/-- The inside of a comment with the end mark, and the text behind it. -/
def cutComment : List Char → Option (List Char × List Char)
  | [] => none
  | '*' :: '/' :: cs => some (['*', '/'], cs)
  | c :: cs => (cutComment cs).map fun (inside, rest) => (c :: inside, rest)

def cutText : List Char → Except SyntaxError.Cause (List Char × List Char)
  | [] => .error .openText
  | '"' :: cs => .ok ([], cs)
  | ['\\'] => .error .openEscape
  | '\\' :: c :: cs => (cutText cs).map fun (inside, rest) => ('\\' :: c :: inside, rest)
  | c :: cs => (cutText cs).map fun (inside, rest) => (c :: inside, rest)

/-- What an escaped character stands for. One without a meaning stays as it is written. -/
def escaped : Char → List Char
  | '"' => ['"']
  | '\\' => ['\\']
  | 'n' => ['\n']
  | 't' => ['\t']
  | 'r' => ['\r']
  | c => ['\\', c]

def unescape : List Char → List Char
  | '\\' :: c :: cs => escaped c ++ unescape cs
  | c :: cs => c :: unescape cs
  | [] => []

/-- The digits of a number behind its first character, with at most one point among them. -/
def cutNumber (cs : List Char) : List Char × List Char :=
  let whole := cs.takeWhile Char.isDigit
  match cs.dropWhile Char.isDigit with
  | '.' :: rest => (whole ++ '.' :: rest.takeWhile Char.isDigit, rest.dropWhile Char.isDigit)
  | rest => (whole, rest)

def ofName (spelling : List Char) : Token.Kind :=
  match String.ofList spelling with
  | "true" => .truth true
  | "false" => .truth false
  | name => .name name

def first (c : Char) (cs : List Char) : Except SyntaxError.Cause (Lexeme × List Char) :=
  if Text.isBlank c then .ok (⟨[c], none⟩, cs)
  else if let some mark := Mark.ofChar? c then .ok (⟨[c], some (.mark mark)⟩, cs)
  else if c = '/' then
    match cs with
    | '/' :: _ => .ok (⟨c :: cs.takeWhile (· ≠ '\n'), none⟩, cs.dropWhile (· ≠ '\n'))
    | '*' :: cs =>
      match cutComment cs with
      | some (inside, rest) => .ok (⟨c :: '*' :: inside, none⟩, rest)
      | none => .error .openComment
    | _ => .error (.strayCharacter c)
  else if c = '.' then
    match cs with
    | '.' :: '.' :: cs => .ok (⟨['.', '.', '.'], some (.mark .ellipsis)⟩, cs)
    | '.' :: _ => .error .twoDots
    | cs => .ok (⟨['.'], some (.mark .dot)⟩, cs)
  else if c.isDigit ∨ c = '-' then
    let spelling := c :: (cutNumber cs).1
    match Binary64.ofSpelling? spelling with
    | some value => .ok (⟨spelling, some (.number value)⟩, (cutNumber cs).2)
    | none => .error (.badNumber (String.ofList spelling))
  else if c = '"' then
    match cutText cs with
    | .ok (inside, rest) =>
      .ok (⟨c :: inside ++ ['"'], some (.text (String.ofList (unescape inside)))⟩, rest)
    | .error cause => .error cause
  else if isNameStart c then
    let spelling := c :: cs.takeWhile isNameRest
    .ok (⟨spelling, some (ofName spelling)⟩, cs.dropWhile isNameRest)
  else .error (.strayCharacter c)

theorem cutComment_append {cs inside rest : List Char}
    (h : cutComment cs = some (inside, rest)) : inside ++ rest = cs := by
  fun_induction cutComment cs generalizing inside rest with
  | case1 => cases h
  | case2 => cases h; rfl
  | case3 c cs _ ih =>
    obtain ⟨⟨i, r⟩, hc, he⟩ := Option.map_eq_some_iff.1 h
    cases he
    exact congrArg (c :: ·) (ih hc)

theorem cutText_append {cs inside rest : List Char}
    (h : cutText cs = .ok (inside, rest)) : inside ++ '"' :: rest = cs := by
  fun_induction cutText cs generalizing inside rest with
  | case1 => cases h
  | case2 => cases h; rfl
  | case3 => cases h
  | case4 c cs ih =>
    cases hc : cutText cs with
    | error e => simp [hc, Except.map] at h
    | ok p =>
      simp only [hc, Except.map, Except.ok.injEq] at h
      cases h
      simp [← @ih p.1 p.2 hc]
  | case5 c cs _ _ _ ih =>
    cases hc : cutText cs with
    | error e => simp [hc, Except.map] at h
    | ok p =>
      simp only [hc, Except.map, Except.ok.injEq] at h
      cases h
      simp [← @ih p.1 p.2 hc]

theorem cutNumber_append (cs : List Char) : (cutNumber cs).1 ++ (cutNumber cs).2 = cs := by
  have h : cs.takeWhile Char.isDigit ++ cs.dropWhile Char.isDigit = cs :=
    List.takeWhile_append_dropWhile
  unfold cutNumber
  split
  · next rest hr => simpa [hr] using h
  · exact h

/-- A piece and the text behind it are the text. -/
theorem first_append {c : Char} {cs : List Char} {piece : Lexeme} {rest : List Char}
    (h : first c cs = .ok (piece, rest)) : piece.spelling ++ rest = c :: cs := by
  unfold first at h
  split at h
  · cases h; rfl
  split at h
  · cases h; rfl
  split at h
  · split at h
    · cases h
      simp
    · split at h
      · next hc => cases h; simp [cutComment_append hc]
      · cases h
    · cases h
  split at h
  · next hc =>
    split at h <;> cases h <;> simp [hc]
  split at h
  · dsimp only at h
    split at h
    · cases h
      simp [cutNumber_append]
    · cases h
  split at h
  · next hc =>
    split at h
    · next ht => cases h; simp [cutText_append ht]
    · cases h
  split at h
  · cases h
    simp
  · cases h

theorem first_spelling_ne_nil {c : Char} {cs : List Char} {piece : Lexeme} {rest : List Char}
    (h : first c cs = .ok (piece, rest)) : piece.spelling ≠ [] := by
  unfold first at h
  dsimp only at h
  repeat' split at h
  all_goals cases h <;> simp

theorem first_length_lt {c : Char} {cs : List Char} {piece : Lexeme} {rest : List Char}
    (h : first c cs = .ok (piece, rest)) : rest.length < (c :: cs).length := by
  have hl := congrArg List.length (first_append h)
  have hn := List.length_pos_iff.2 (first_spelling_ne_nil h)
  simp only [List.length_append] at hl
  omega

end Lexeme

/-- A fault in the characters, and the byte offset of the piece that has it. -/
structure LexicalFault where
  offset : Nat
  cause : SyntaxError.Cause
deriving DecidableEq, Repr

def Token.listOf (offset : Nat) (cs : List Char) : Except LexicalFault (List Token) :=
  match cs with
  | [] => .ok []
  | c :: cs =>
    match _h : Lexeme.first c cs with
    | .error cause => .error ⟨offset, cause⟩
    | .ok (piece, rest) => do
      let later ← Token.listOf (offset + Text.byteLength piece.spelling) rest
      match piece.kind? with
      | some kind => .ok (⟨kind, offset⟩ :: later)
      | none => .ok later
termination_by cs.length
decreasing_by exact Lexeme.first_length_lt _h

def Tokens.ofText (cs : List Char) : Except LexicalFault Tokens := do
  .ok ⟨← Token.listOf 0 cs, Text.byteLength cs⟩

end SchemaContract
