/-!
UTF-8: the length of a text in bytes, its bytes, and the readings of bytes as text. The strict
reading fails on the first byte that starts no character; the lossy one puts U+FFFD in the place of
each maximal run of bytes that begins a character without completing it.
-/
namespace SchemaContract.Text

/-- How many bytes the characters take in UTF-8. -/
def byteLength : List Char → Nat
  | [] => 0
  | c :: cs => c.utf8Size + byteLength cs

@[simp] theorem byteLength_nil : byteLength [] = 0 := rfl

@[simp] theorem byteLength_cons (c : Char) (cs : List Char) :
    byteLength (c :: cs) = c.utf8Size + byteLength cs := rfl

@[simp] theorem byteLength_append (as bs : List Char) :
    byteLength (as ++ bs) = byteLength as + byteLength bs := by
  induction as with
  | nil => simp
  | cons a as ih => simp [ih, Nat.add_assoc]

def charBytes (c : Char) : List UInt8 :=
  let n := c.toNat
  let tail (m : Nat) : UInt8 := .ofNat (0x80 + m % 64)
  if n < 0x80 then [.ofNat n]
  else if n < 0x800 then [.ofNat (0xC0 + n / 64), tail n]
  else if n < 0x10000 then [.ofNat (0xE0 + n / 4096), tail (n / 64), tail n]
  else [.ofNat (0xF0 + n / 262144), tail (n / 4096), tail (n / 64), tail n]

def bytes (s : String) : List UInt8 :=
  s.toList.flatMap charBytes

/-- What a first byte promises: the bits it gives, how many bytes follow, and the range the second
byte must lie in, which rules out overlong forms, surrogates and code points above U+10FFFF. -/
structure Lead where
  bits : Nat
  more : Nat
  low : Nat
  high : Nat

def Lead.ofByte (b : UInt8) : Option Lead :=
  let n := b.toNat
  if n < 0x80 then some ⟨n, 0, 0, 0⟩
  else if n < 0xC2 then none
  else if n < 0xE0 then some ⟨n - 0xC0, 1, 0x80, 0xBF⟩
  else if n < 0xF0 then
    some ⟨n - 0xE0, 2, if n = 0xE0 then 0xA0 else 0x80, if n = 0xED then 0x9F else 0xBF⟩
  else if n < 0xF5 then
    some ⟨n - 0xF0, 3, if n = 0xF0 then 0x90 else 0x80, if n = 0xF4 then 0x8F else 0xBF⟩
  else none

/-- Reads the bytes that follow a first byte. The character is missing when they break off; the
rest starts at the byte that does not belong. -/
def continueChar (bits : Nat) : Nat → Nat → Nat → List UInt8 → Option Char × List UInt8
  | 0, _, _, bs => (some (Char.ofNat bits), bs)
  | _ + 1, _, _, [] => (none, [])
  | more + 1, low, high, b :: bs =>
    if low ≤ b.toNat ∧ b.toNat ≤ high then
      continueChar (bits * 64 + (b.toNat - 0x80)) more 0x80 0xBF bs
    else (none, b :: bs)

theorem continueChar_length_le (bits more low high : Nat) (bs : List UInt8) :
    (continueChar bits more low high bs).2.length ≤ bs.length := by
  fun_induction continueChar bits more low high bs with
  | case1 => exact Nat.le_refl _
  | case2 => exact Nat.le_refl _
  | case3 bits more low high b bs h ih => exact Nat.le_succ_of_le ih
  | case4 => exact Nat.le_refl _

def nextChar (b : UInt8) (bs : List UInt8) : Option Char × List UInt8 :=
  match Lead.ofByte b with
  | none => (none, bs)
  | some lead => continueChar lead.bits lead.more lead.low lead.high bs

theorem nextChar_length_le (b : UInt8) (bs : List UInt8) :
    (nextChar b bs).2.length ≤ bs.length := by
  unfold nextChar
  split
  · exact Nat.le_refl _
  · exact continueChar_length_le ..

/-- The characters of the bytes, `none` for each run that is no character. -/
def decode (bs : List UInt8) : List (Option Char) :=
  match bs with
  | [] => []
  | b :: bs => (nextChar b bs).1 :: decode (nextChar b bs).2
termination_by bs.length
decreasing_by exact Nat.lt_succ_of_le (nextChar_length_le b bs)

/-- The text of the bytes, with U+FFFD for what is no character. -/
def ofBytesLossy (bs : List UInt8) : String :=
  String.ofList ((decode bs).map (·.getD '\uFFFD'))

def ofBytes? (bs : List UInt8) : Option String :=
  (decode bs).mapM id |>.map String.ofList

example : ofBytesLossy [0xE2, 0x82, 0x78] = "\uFFFDx" := by cbv
example : ofBytesLossy [0xFF, 0xFE, 0x6F] = "\uFFFD\uFFFDo" := by cbv
example : ofBytes? (bytes "aé€😀") = some "aé€😀" := by cbv

end SchemaContract.Text
