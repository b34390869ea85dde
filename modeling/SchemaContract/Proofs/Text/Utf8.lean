import SchemaContract.Text.Utf8

/-!
The bytes of a text are read back as the text. A character's first byte tells how many follow and
which of its bits they leave to it, and the ranges that are ruled out for the second byte are those
of no character.
-/
namespace SchemaContract.Text

theorem toNat_ofNat {n : Nat} (h : n < 256) : (UInt8.ofNat n).toNat = n :=
  UInt8.toNat_ofNat_of_lt' h

theorem continueChar_cons {n low high : Nat} (hn : n < 256) (hlow : low ≤ n) (hhigh : n ≤ high)
    (bits more : Nat) (bs : List UInt8) :
    continueChar bits (more + 1) low high (.ofNat n :: bs) =
      continueChar (bits * 64 + (n - 0x80)) more 0x80 0xBF bs := by
  rw [continueChar, toNat_ofNat hn, if_pos ⟨hlow, hhigh⟩]

/-- A byte behind the second is in its range. -/
theorem continueChar_tail (m bits more : Nat) (bs : List UInt8) :
    continueChar bits (more + 1) 0x80 0xBF (.ofNat (0x80 + m % 64) :: bs) =
      continueChar (bits * 64 + m % 64) more 0x80 0xBF bs := by
  have hm := Nat.mod_lt m (show 0 < 64 by decide)
  rw [continueChar_cons (by omega) (by omega) (by omega), Nat.add_sub_cancel_left]

theorem toNat_valid (c : Char) : c.toNat < 0xD800 ∨ 0xDFFF < c.toNat ∧ c.toNat < 0x110000 :=
  c.valid

theorem nextChar_charBytes (c : Char) (bs : List UInt8) :
    ∃ b more, charBytes c = b :: more ∧ nextChar b (more ++ bs) = (some c, bs) := by
  have hvalid := toNat_valid c
  have hc : Char.ofNat c.toNat = c := Char.ofNat_toNat c
  unfold charBytes
  generalize c.toNat = n at hvalid hc
  dsimp only
  split
  · refine ⟨_, _, rfl, ?_⟩
    unfold nextChar Lead.ofByte
    rw [toNat_ofNat (by omega), if_pos (by omega)]
    simp only [continueChar, hc, List.nil_append]
  split
  · refine ⟨_, _, rfl, ?_⟩
    have hsum : n / 64 * 64 + n % 64 = n := Nat.div_add_mod' n 64
    unfold nextChar Lead.ofByte
    rw [toNat_ofNat (by omega), if_neg (by omega), if_neg (by omega), if_pos (by omega)]
    dsimp only [List.cons_append, List.nil_append]
    rw [continueChar_tail, Nat.add_sub_cancel_left, hsum, continueChar, hc]
  split
  · refine ⟨_, _, rfl, ?_⟩
    unfold nextChar Lead.ofByte
    rw [toNat_ofNat (by omega), if_neg (by omega), if_neg (by omega), if_neg (by omega),
      if_pos (by omega)]
    dsimp only [List.cons_append, List.nil_append]
    have hlow : (if 0xE0 + n / 4096 = 0xE0 then 0xA0 else 0x80) ≤ 0x80 + n / 64 % 64 := by
      split <;> omega
    have hhigh : 0x80 + n / 64 % 64 ≤ if 0xE0 + n / 4096 = 0xED then 0x9F else 0xBF := by
      split <;> omega
    have hsum :
        ((0xE0 + n / 4096 - 0xE0) * 64 + (0x80 + n / 64 % 64 - 0x80)) * 64 + n % 64 = n := by
      omega
    rw [continueChar_cons (by omega) hlow hhigh, continueChar_tail, hsum, continueChar, hc]
  · refine ⟨_, _, rfl, ?_⟩
    unfold nextChar Lead.ofByte
    rw [toNat_ofNat (by omega), if_neg (by omega), if_neg (by omega), if_neg (by omega),
      if_neg (by omega), if_pos (by omega)]
    dsimp only [List.cons_append, List.nil_append]
    have hlow : (if 0xF0 + n / 262144 = 0xF0 then 0x90 else 0x80) ≤ 0x80 + n / 4096 % 64 := by
      split <;> omega
    have hhigh : 0x80 + n / 4096 % 64 ≤ if 0xF0 + n / 262144 = 0xF4 then 0x8F else 0xBF := by
      split <;> omega
    have hsum : (((0xF0 + n / 262144 - 0xF0) * 64 + (0x80 + n / 4096 % 64 - 0x80)) * 64 +
        n / 64 % 64) * 64 + n % 64 = n := by
      omega
    rw [continueChar_cons (by omega) hlow hhigh, continueChar_tail, continueChar_tail, hsum,
      continueChar, hc]

theorem decode_bytes (cs : List Char) : decode (cs.flatMap charBytes) = cs.map some := by
  induction cs with
  | nil => rw [List.flatMap_nil, decode, List.map_nil]
  | cons c cs ih =>
    obtain ⟨b, more, hc, hnext⟩ := nextChar_charBytes c (cs.flatMap charBytes)
    rw [List.flatMap_cons, hc, List.cons_append, decode, hnext, ih, List.map_cons]

end SchemaContract.Text
