import SchemaContract.Text.Utf8

/-!
Lines and columns. A byte offset in a text stands for the position that the characters before it
lead to, counting lines by newlines and columns by characters, both from one.
-/
namespace SchemaContract

structure Position where
  line : Nat
  column : Nat
deriving DecidableEq, Repr

namespace Position

def start : Position := ⟨1, 1⟩

def step (p : Position) (c : Char) : Position :=
  if c = '\n' then ⟨p.line + 1, 1⟩ else ⟨p.line, p.column + 1⟩

/-- Walks over the characters that begin within the next `offset` bytes. -/
def walk (p : Position) : List Char → Nat → Position
  | [], _ => p
  | c :: cs, offset => if offset = 0 then p else (p.step c).walk cs (offset - c.utf8Size)

/-- The position at a byte offset; inside a character, the one behind it. -/
def ofOffset (text : List Char) (offset : Nat) : Position :=
  start.walk text offset

@[simp] theorem walk_zero (p : Position) (cs : List Char) : p.walk cs 0 = p := by
  cases cs <;> rfl

theorem walk_append (p : Position) (as bs : List Char) :
    p.walk (as ++ bs) (Text.byteLength as) = as.foldl step p := by
  induction as generalizing p with
  | nil => simp
  | cons a as ih =>
    have ha : a.utf8Size ≠ 0 := Nat.ne_of_gt a.utf8Size_pos
    simp [walk, ha, ih]

end Position
end SchemaContract
