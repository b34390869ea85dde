import SchemaContract.Grammar.Statement
import SchemaContract.Schema.Lexeme

/-!
Source texts: the program that a text is, or the fault that it has and where. Faults in the
characters come before faults in the tokens.
-/
namespace SchemaContract

/-- The program of the tokens. The place of a fault is the first token that does not fit. -/
def Program.ofTokens (text : List Char) (tokens : Tokens) : Except SyntaxError Program :=
  match Grammar.statements tokens.list with
  | .ok statements => .ok ⟨statements⟩
  | .error fault =>
    .error ⟨.ofOffset text (Tokens.offsetOf tokens.stop fault.rest), fault.cause⟩

def Program.ofText (text : List Char) : Except SyntaxError Program :=
  match Tokens.ofText text with
  | .ok tokens => Program.ofTokens text tokens
  | .error fault => .error ⟨.ofOffset text fault.offset, fault.cause⟩

def Program.ofSource (source : String) : Except SyntaxError Program :=
  Program.ofText source.toList

end SchemaContract
