/-!
White space: the 25 characters of the Unicode property White_Space, and texts trimmed of them.
-/
namespace SchemaContract.Text

/-- The characters with the Unicode property White_Space. -/
def isBlank (c : Char) : Bool :=
  let n := c.toNat
  (9 ≤ n && n ≤ 13) || n == 0x20 || n == 0x85 || n == 0xA0 || n == 0x1680 ||
    (0x2000 ≤ n && n ≤ 0x200A) || n == 0x2028 || n == 0x2029 || n == 0x202F ||
    n == 0x205F || n == 0x3000

example : ['\t', '\n', '\r', ' ', '\x0b', '\x0c'].all isBlank = true := by decide
example : ['\u0085', '\u00A0', '\u2003', '\u3000'].all isBlank = true := by decide
example : ['\u200B', '\u180E', '\uFEFF', '_'].any isBlank = false := by decide

def trimEnd (s : String) : String :=
  String.ofList (s.toList.reverse.dropWhile isBlank).reverse

def trim (s : String) : String :=
  trimEnd (String.ofList (s.toList.dropWhile isBlank))

end SchemaContract.Text
