import Mathlib
import SchemaContract.Proofs.Grammar.Placed
import SchemaContract.Proofs.Schema.Cutting

/-!
Texts joined by a newline. No piece of a text minds a newline behind it, and the pieces behind the
newline are those of the second text, only later. So the program of the whole is that of the one
text and then that of the other.
-/
namespace SchemaContract

variable {as bs cs : List Char}

namespace Lexeme

/-- What is cut off a text is cut off as well when more follows behind a newline. -/
theorem AllStand.before_newline {ps : List Lexeme} (h : AllStand ps []) (bs : List Char) :
    AllStand ps ('\n' :: bs) := by
  apply h.of_last
  intro p _ hp
  apply hp.of_outside
  · intro c hc
    cases hc
    exact ⟨rfl, by decide⟩
  · right
    intro c hc
    cases hc
    rfl

end Lexeme

def LexicalFault.later (k : Nat) (fault : LexicalFault) : LexicalFault :=
  ⟨fault.offset + k, fault.cause⟩

theorem Lexeme.tokens_add (piece : Lexeme) (offset k : Nat) :
    piece.tokens (offset + k) = Grammar.later k (piece.tokens offset) := by
  unfold tokens
  cases piece.kind? <;> rfl

theorem Token.listOf_add (offset k : Nat) (cs : List Char) :
    Token.listOf (offset + k) cs =
      ((Token.listOf offset cs).map (Grammar.later k)).mapError (.later k) := by
  induction hl : cs.length using Nat.strongRecOn generalizing offset cs with
  | _ l ih =>
    cases cs with
    | nil =>
      rw [Token.listOf_nil, Token.listOf_nil]
      rfl
    | cons c cs =>
      cases hf : Lexeme.first c cs with
      | error cause =>
        rw [Token.listOf_of_error hf, Token.listOf_of_error hf]
        rfl
      | ok found =>
        have hlt := Lexeme.first_length_lt hf
        have hrest := ih _ (hl ▸ hlt) (offset + Text.byteLength found.1.spelling) found.2 rfl
        rw [Token.listOf_of_first hf, Token.listOf_of_first hf, Nat.add_right_comm, hrest,
          found.1.tokens_add]
        cases Token.listOf (offset + Text.byteLength found.1.spelling) found.2 with
        | error fault => rfl
        | ok later => simp [Except.map, Except.mapError, Grammar.later, Grammar.moved]

/-- A newline ends what stands before it, and is no token. -/
theorem Token.listOf_append_newline {offset : Nat} {ts : List Token}
    (h : Token.listOf offset as = .ok ts) (bs : List Char) :
    Token.listOf offset (as ++ '\n' :: bs) =
      (Token.listOf (offset + (Text.byteLength as + 1)) bs).map (ts ++ ·) := by
  obtain ⟨ps, rfl, hstand, rfl⟩ := Token.listOf_eq_ok_iff.1 h
  have hnewline := Lexeme.first_of_isBlank (c := '\n') rfl bs
  rw [Token.listOf_of_allStand (hstand.before_newline bs), Token.listOf_of_first hnewline,
    ← Nat.add_assoc]
  change ((Token.listOf (offset + Text.byteLength (Lexeme.spellings ps) + 1) bs).map _).map _ = _
  cases Token.listOf _ bs <;> rfl

namespace Position

def below (n : Nat) (p : Position) : Position :=
  ⟨p.line + n, p.column⟩

theorem step_newline (p : Position) : p.step '\n' = ⟨p.line + 1, 1⟩ := if_pos rfl

theorem step_below (n : Nat) (p : Position) (c : Char) :
    (p.below n).step c = (p.step c).below n := by
  unfold step below
  split
  · exact congrArg (Position.mk · 1) (Nat.add_right_comm ..)
  · rfl

theorem walk_below (n : Nat) (p : Position) (cs : List Char) (offset : Nat) :
    (p.below n).walk cs offset = (p.walk cs offset).below n := by
  fun_induction walk p cs offset with
  | case1 => rfl
  | case2 => simp
  | case3 p c cs offset hne ih => rw [walk, if_neg hne, step_below, ih]

theorem foldl_step_line (p : Position) (cs : List Char) :
    (cs.foldl step p).line = p.line + cs.count '\n' := by
  induction cs generalizing p with
  | nil => rfl
  | cons c cs ih =>
    rw [List.foldl_cons, ih, List.count_cons]
    unfold step
    by_cases hc : c = '\n'
    · simp [hc]
      omega
    · simp [hc]

theorem walk_append_add (p : Position) (as bs : List Char) (offset : Nat) :
    p.walk (as ++ bs) (Text.byteLength as + offset) = (as.foldl step p).walk bs offset := by
  induction as generalizing p with
  | nil => simp
  | cons a as ih =>
    have ha : a.utf8Size ≠ 0 := Nat.ne_of_gt a.utf8Size_pos
    have hne : a.utf8Size + Text.byteLength as + offset ≠ 0 := by omega
    have hsub : a.utf8Size + Text.byteLength as + offset - a.utf8Size =
        Text.byteLength as + offset := by omega
    rw [List.cons_append, Text.byteLength_cons, walk, if_neg hne, hsub, ih, List.foldl_cons]

/-- Behind a newline the positions are those of the text there, as many lines below as there are
lines before. -/
theorem ofOffset_append_newline (as bs : List Char) (offset : Nat) :
    ofOffset (as ++ '\n' :: bs) (offset + (Text.byteLength as + 1)) =
      (ofOffset bs offset).below (as.count '\n' + 1) := by
  have hsplit : as ++ '\n' :: bs = (as ++ ['\n']) ++ bs := by simp
  have hlength : offset + (Text.byteLength as + 1) = Text.byteLength (as ++ ['\n']) + offset := by
    rw [Text.byteLength_append, Nat.add_comm]
    rfl
  have hlines : (as ++ ['\n']).foldl step start = start.below (as.count '\n' + 1) := by
    rw [List.foldl_append, List.foldl_cons, List.foldl_nil, step_newline, foldl_step_line,
      Nat.add_assoc]
    rfl
  unfold ofOffset
  rw [hsplit, hlength, walk_append_add, hlines, walk_below]

end Position

def SyntaxError.below (n : Nat) (e : SyntaxError) : SyntaxError :=
  ⟨e.position.below n, e.cause⟩

theorem Tokens.offsetOf_later (k stop : Nat) (ts : List Token) :
    offsetOf (stop + k) (Grammar.later k ts) = offsetOf stop ts + k := by
  cases ts <;> rfl

theorem Program.ofText_eq_ok_iff {p : Program} :
    Program.ofText cs = .ok p ↔
      ∃ ts, Token.listOf 0 cs = .ok ts ∧ Grammar.statements ts = .ok p.statements := by
  unfold Program.ofText
  rw [Tokens.ofText_eq]
  cases hl : Token.listOf 0 cs with
  | error fault => simp [Except.map]
  | ok ts =>
    cases hs : Grammar.statements ts with
    | error fault => simp [Except.map, Program.ofTokens, hs]
    | ok ss =>
      cases p
      simp [Except.map, Program.ofTokens, hs]

theorem Program.ofText_append_newline {p : Program} (h : Program.ofText as = .ok p)
    (hl : p.statements.getLast? ≠ some .invalid) (bs : List Char) :
    Program.ofText (as ++ '\n' :: bs) =
      ((Program.ofText bs).map fun q => ⟨p.statements ++ q.statements⟩).mapError
        (.below (as.count '\n' + 1)) := by
  obtain ⟨ts, hts, hss⟩ := Program.ofText_eq_ok_iff.1 h
  have hlist := Token.listOf_append_newline hts bs
  rw [Nat.add_comm 0, Nat.add_comm _ 0, Token.listOf_add] at hlist
  unfold Program.ofText
  rw [Tokens.ofText_eq, Tokens.ofText_eq, hlist]
  cases Token.listOf 0 bs with
  | error fault =>
    have hposition := Position.ofOffset_append_newline as bs fault.offset
    simp only [Except.map, Except.mapError, LexicalFault.later, SyntaxError.below, hposition]
  | ok us =>
    have hstop : Text.byteLength (as ++ '\n' :: bs) =
        Text.byteLength bs + (Text.byteLength as + 1) := by
      have hnewline : Char.utf8Size '\n' = 1 := rfl
      rw [Text.byteLength_append, Text.byteLength_cons, hnewline]
      omega
    -- a fault of the grammar stands at a token or at the end of the text, and both come later alike
    simp only [Except.map, Except.mapError, Program.ofTokens, hstop]
    rw [Grammar.statements_append hss hl, Grammar.statements_later]
    cases Grammar.statements us with
    | error fault =>
      simp only [Except.map, Except.mapError, Grammar.Fault.later, SyntaxError.below,
        Tokens.offsetOf_later, Position.ofOffset_append_newline]
    | ok ss => rfl

/-- Sources that are joined by a newline are read one behind the other, and a fault in the second is
as many lines below as the first has, provided that the first does not end in a statement that is
skipped: what follows would be skipped with it. -/
theorem Program.ofSource_joined {s₁ s₂ : String} {p₁ : Program}
    (h : Program.ofSource s₁ = .ok p₁) (hl : p₁.statements.getLast? ≠ some .invalid) :
    (∀ p₂, Program.ofSource s₂ = .ok p₂ →
        Program.ofSource (s₁ ++ "\n" ++ s₂) = .ok ⟨p₁.statements ++ p₂.statements⟩) ∧
      ∀ e, Program.ofSource s₂ = .error e →
        Program.ofSource (s₁ ++ "\n" ++ s₂) =
          .error ⟨⟨e.position.line + 1 + s₁.toList.count '\n', e.position.column⟩, e.cause⟩ := by
  have htext : (s₁ ++ "\n" ++ s₂).toList = s₁.toList ++ '\n' :: s₂.toList := by simp
  unfold Program.ofSource at h ⊢
  rw [htext, Program.ofText_append_newline h hl]
  refine ⟨fun p₂ h₂ => ?_, fun e h₂ => ?_⟩
  · rw [h₂]
    rfl
  · rw [h₂, Nat.add_assoc, Nat.add_comm 1]
    rfl

theorem Program.ofSource_joined_comment :
    Program.ofSource "alias A = B;\n// note" = .ok ⟨[.typeAlias "A" (.reference "B")]⟩ ∧
      Program.ofSource "alias C = D;" = .ok ⟨[.typeAlias "C" (.reference "D")]⟩ ∧
      Program.ofSource "\nop" = .error ⟨⟨2, 3⟩, .expected .operationName⟩ ∧
      Program.ofSource ("alias A = B;\n// note" ++ "\n" ++ "alias C = D;") =
        .ok ⟨[.typeAlias "A" (.reference "B"), .typeAlias "C" (.reference "D")]⟩ ∧
      Program.ofSource ("alias A = B;\n// note" ++ "\n" ++ "\nop") =
        .error ⟨⟨4, 3⟩, .expected .operationName⟩ := by
  have h₁ : Program.ofSource "alias A = B;\n// note" =
      .ok ⟨[.typeAlias "A" (.reference "B")]⟩ := by cbv
  have h₂ : Program.ofSource "alias C = D;" = .ok ⟨[.typeAlias "C" (.reference "D")]⟩ := by cbv
  have he : Program.ofSource "\nop" = .error ⟨⟨2, 3⟩, .expected .operationName⟩ := by cbv
  have hl : (Program.statements ⟨[.typeAlias "A" (.reference "B")]⟩).getLast? ≠
      some .invalid := by simp
  have hcount : "alias A = B;\n// note".toList.count '\n' = 1 := by decide
  have herror := (Program.ofSource_joined h₁ hl).2 _ he
  rw [hcount] at herror
  exact ⟨h₁, h₂, he, (Program.ofSource_joined h₁ hl).1 _ h₂, herror⟩

end SchemaContract
