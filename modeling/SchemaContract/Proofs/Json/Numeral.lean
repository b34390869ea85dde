import SchemaContract.Proofs.Json.Quoted
import SchemaContract.Proofs.Schema.Pieces

/-!
Numerals of JSON. Texts whose numerals are all whole numbers of 64 bits are told without reading
them; what is read for such a numeral is the number that it spells, and what is written for a number
is such a numeral.
-/
namespace SchemaContract.Json

open Found (Gives gives_def gives_ok_iff not_gives_error gives_bind_iff)

variable {cs rest digits : List Char}

/-- The characters that numerals are made of. -/
def isNumeralPart (c : Char) : Bool :=
  c.isDigit || c == '+' || c == '-' || c == '.' || c == 'e' || c == 'E'

/-- The characters that quoted texts and numerals begin with. -/
def isOpening (c : Char) : Bool := c == '"' || c == '-' || c.isDigit

/-- The numerals in a text as they are written, outside the quoted texts. -/
def numerals (cs : List Char) : List (List Char) :=
  match cs with
  | [] => []
  | c :: cs =>
    if c = '"' then numerals (behindQuoted cs)
    else if c.isDigit ∨ c = '-' then
      (c :: cs.takeWhile isNumeralPart) :: numerals (cs.dropWhile isNumeralPart)
    else numerals cs
termination_by cs.length
decreasing_by
  · exact Nat.lt_succ_of_le (length_behindQuoted_le cs)
  · exact Nat.lt_succ_of_le (List.dropWhile_suffix isNumeralPart).length_le
  · exact Nat.lt_succ_self _

/-- The number that digits spell. -/
def natOf (digits : List Char) : Nat := Nat.ofDigitChars 10 digits 0

/-- Digits without a point or an exponent, for a number of 64 bits without a sign or, behind a minus
sign, for one with a sign that is not zero. -/
def IsWhole (numeral : List Char) : Prop :=
  ∃ digits, digits ≠ [] ∧ (∀ c ∈ digits, c.isDigit = true) ∧
    (numeral = digits ∧ natOf digits < 2 ^ 64 ∨
      numeral = '-' :: digits ∧ 0 < natOf digits ∧ natOf digits ≤ 2 ^ 63)

/-- Every numeral of the text is whole. -/
def OnlyWhole (cs : List Char) : Prop := ∀ numeral ∈ numerals cs, IsWhole numeral

/-- Texts that do not go on with a numeral. -/
def EndsNumeral (cs : List Char) : Prop := ∀ c ∈ cs.head?, isNumeralPart c = false

/-- The numbers of 64 bits, with or without a sign. -/
def InRange (i : Int) : Prop := -2 ^ 63 ≤ i ∧ i < 2 ^ 64

theorem isNumeralPart_of_isDigit {c : Char} (h : c.isDigit = true) : isNumeralPart c = true := by
  simp [isNumeralPart, h]

theorem EndsNumeral.not_isDigit (h : EndsNumeral cs) : ∀ c ∈ cs.head?, c.isDigit = false := by
  intro c hc
  apply Bool.eq_false_iff.2
  intro hd
  have hpart := h c hc
  rw [isNumeralPart_of_isDigit hd] at hpart
  cases hpart

theorem onlyWhole_quote : OnlyWhole ('"' :: cs) ↔ OnlyWhole (behindQuoted cs) := by
  unfold OnlyWhole
  rw [numerals, if_pos rfl]

theorem onlyWhole_numeral {c : Char} (hc : c.isDigit = true ∨ c = '-') :
    OnlyWhole (c :: cs) ↔
      IsWhole (c :: cs.takeWhile isNumeralPart) ∧ OnlyWhole (cs.dropWhile isNumeralPart) := by
  have hq : c ≠ '"' := by
    rintro rfl
    rcases hc with h | h <;> cases h
  unfold OnlyWhole
  rw [numerals, if_neg hq, if_pos hc, List.forall_mem_cons]

theorem onlyWhole_other {c : Char} (hc : isOpening c = false) :
    OnlyWhole (c :: cs) ↔ OnlyWhole cs := by
  simp only [isOpening, Bool.or_eq_false_iff, beq_eq_false_iff_ne] at hc
  obtain ⟨⟨hq, hm⟩, hd⟩ := hc
  unfold OnlyWhole
  rw [numerals, if_neg hq, if_neg (by simp [hd, hm])]

theorem onlyWhole_append {ws : List Char} (h : ws.any isOpening = false) :
    OnlyWhole (ws ++ cs) ↔ OnlyWhole cs := by
  induction ws with
  | nil => exact Iff.rfl
  | cons c ws ih =>
    rw [List.any_cons, Bool.or_eq_false_iff] at h
    rw [List.cons_append, onlyWhole_other h.1, ih h.2]

theorem onlyWhole_dropWhile : OnlyWhole (cs.dropWhile isSpace) ↔ OnlyWhole cs := by
  induction cs with
  | nil => exact Iff.rfl
  | cons c cs ih =>
    by_cases hc : isSpace c = true
    · have hother : isOpening c = false := by
        simp only [isSpace, Bool.or_eq_true, beq_iff_eq] at hc
        rcases hc with ((rfl | rfl) | rfl) | rfl <;> rfl
      rw [List.dropWhile_cons_of_pos hc, ih, onlyWhole_other hother]
    · rw [List.dropWhile_cons_of_neg hc]

namespace Number

theorem le_ofDigitChars (n : Nat) (digits : List Char) : n ≤ Nat.ofDigitChars 10 digits n := by
  induction digits generalizing n with
  | nil => rw [Nat.ofDigitChars_nil]
  | cons c digits ih =>
    rw [Nat.ofDigitChars_cons]
    have h := ih (10 * n + (c.toNat - '0'.toNat))
    omega

theorem digitsWithin_run {limit n count : Nat} (hdigits : ∀ c ∈ digits, c.isDigit = true)
    (hlimit : Nat.ofDigitChars 10 digits n ≤ limit)
    (hrest : ∀ c ∈ rest.head?, c.isDigit = false) :
    (digitsWithin limit n count (digits ++ rest)).value =
        (Nat.ofDigitChars 10 digits n, count + digits.length) ∧
      (digitsWithin limit n count (digits ++ rest)).rest = rest := by
  induction digits generalizing n count with
  | nil =>
    cases rest with
    | nil => exact ⟨rfl, rfl⟩
    | cons c rest =>
      rw [List.nil_append, digitsWithin, if_neg (by simp [hrest c rfl])]
      exact ⟨rfl, rfl⟩
  | cons d digits ih =>
    rw [Nat.ofDigitChars_cons] at hlimit
    obtain ⟨hd, hdigits⟩ := List.forall_mem_cons.1 hdigits
    have hfits : 10 * n + digitValue d ≤ limit :=
      Nat.le_trans (le_ofDigitChars _ digits) hlimit
    obtain ⟨hvalue, hend⟩ := @ih _ (count + 1) hdigits hlimit
    rw [List.cons_append, digitsWithin, if_pos ⟨hd, hfits⟩, Found.lax_value, Found.lax_rest,
      Nat.ofDigitChars_cons, List.length_cons, Nat.add_comm digits.length, ← Nat.add_assoc]
    exact ⟨hvalue, hend⟩

theorem skipDigits_of_head {count : Nat} (hrest : ∀ c ∈ rest.head?, c.isDigit = false) :
    skipDigits count rest = .before count rest := by
  cases rest with
  | nil => rfl
  | cons c rest => rw [skipDigits, if_neg (by simp [hrest c rfl])]

theorem gives_behindWhole {negative : Bool} {n : Nat}
    (hrest : EndsNumeral rest) :
    Gives (behindWhole negative n rest) (whole negative n) rest := by
  unfold behindWhole
  rw [skipDigits_of_head hrest.not_isDigit]
  dsimp only [Found.before]
  -- a point or the mark of an exponent would be part of the numeral
  split
  · cases hrest _ rfl
  · cases hrest _ rfl
  · cases hrest _ rfl
  · exact gives_ok_iff.2 ⟨rfl, rfl⟩

/-- Digits are read as the number that they spell, where it fits into 64 bits and no zero stands in
front of other digits. -/
theorem gives_read {negative : Bool} (hne : digits ≠ []) (hdigits : ∀ c ∈ digits, c.isDigit = true)
    (hzero : digits.head? = some '0' → digits = ['0']) (hlimit : natOf digits < 2 ^ 64)
    (hrest : EndsNumeral rest) :
    Gives (read negative (digits ++ rest)) (whole negative (natOf digits)) rest := by
  cases digits with
  | nil => exact absurd rfl hne
  | cons c digits =>
    obtain ⟨hc, hdigits⟩ := List.forall_mem_cons.1 hdigits
    by_cases h0 : c = '0'
    · subst h0
      cases hzero rfl
      have hstart : startsWithDigit rest = false := by
        cases rest with
        | nil => rfl
        | cons d rest => exact hrest.not_isDigit d rfl
      rw [List.singleton_append, read, if_neg (by simp [hstart])]
      exact gives_behindWhole hrest
    · rw [List.cons_append, read.eq_3 _ _ _ h0, if_pos hc]
      have hvalue : natOf (c :: digits) = Nat.ofDigitChars 10 digits (digitValue c) := by
        simp [natOf, Nat.ofDigitChars_cons, digitValue]
      rw [hvalue] at hlimit ⊢
      have hle : Nat.ofDigitChars 10 digits (digitValue c) ≤ digitLimit := Nat.le_of_lt_succ hlimit
      obtain ⟨hfound, hend⟩ := @digitsWithin_run rest digits digitLimit _ 1 hdigits hle
        hrest.not_isDigit
      generalize digitsWithin digitLimit (digitValue c) 1 (digits ++ rest) = found at hfound hend
      obtain ⟨⟨n, count⟩, us, h⟩ := found
      dsimp only at hfound hend
      cases hfound
      subst us
      simp only [gives_bind_iff, gives_ok_iff, Found.widen, exists_and_right, ← gives_def]
      exact ⟨_, _, gives_behindWhole hrest, rfl, rfl⟩

/-- What is read in front of the end of a numeral is the number that the digits spell. -/
theorem eq_of_gives_read {negative : Bool} {j : Json} (hne : digits ≠ [])
    (hdigits : ∀ c ∈ digits, c.isDigit = true) (hlimit : natOf digits < 2 ^ 64)
    (hend : EndsNumeral cs) (h : Gives (read negative (digits ++ cs)) j rest) :
    j = whole negative (natOf digits) ∧ rest = cs := by
  -- a digit behind a first zero is refused
  have hzero : digits.head? = some '0' → digits = ['0'] := by
    intro hhead
    cases digits with
    | nil => cases hhead
    | cons c digits =>
      cases hhead
      cases digits with
      | nil => rfl
      | cons d digits =>
        have hstart : startsWithDigit (d :: (digits ++ cs)) = true := hdigits d (by simp)
        rw [List.cons_append, List.cons_append, read, if_pos hstart] at h
        exact absurd h not_gives_error
  exact h.unique (gives_read hne hdigits hzero hlimit hend)

theorem whole_false (n : Nat) : whole false n = .integer n := if_pos rfl

theorem whole_true {n : Nat} (hpos : 0 < n) (hlimit : n ≤ 2 ^ 63) :
    whole true n = .integer (-n) := by
  have hfits : ¬ (n = 0 ∨ signedLimit < n) := by
    simp only [signedLimit]
    omega
  unfold whole
  rw [if_neg nofun, if_neg hfits]

end Number

theorem endsNumeral_dropWhile : EndsNumeral (cs.dropWhile isNumeralPart) :=
  head?_dropWhile

/-- What is read for a whole numeral is a number of 64 bits. -/
theorem integer_of_negative {j : Json} (h : Gives (Number.read true cs) j rest)
    (hwhole : OnlyWhole ('-' :: cs)) : (∃ i, j = .integer i ∧ InRange i) ∧ OnlyWhole rest := by
  obtain ⟨⟨digits, hne, hdigits, hspell⟩, hrest⟩ := (onlyWhole_numeral (.inr rfl)).1 hwhole
  rcases hspell with ⟨rfl, _⟩ | ⟨hspell, hpos, hlimit⟩
  · cases hdigits '-' List.mem_cons_self
  · obtain ⟨-, hrun⟩ := List.cons.inj hspell
    have hsplit : digits ++ cs.dropWhile isNumeralPart = cs := by
      rw [← hrun, List.takeWhile_append_dropWhile]
    rw [← hsplit] at h
    obtain ⟨rfl, rfl⟩ := Number.eq_of_gives_read hne hdigits (by omega) endsNumeral_dropWhile h
    rw [Number.whole_true hpos hlimit]
    exact ⟨⟨_, rfl, by omega, by omega⟩, hrest⟩

theorem integer_of_number {c : Char} {j : Json} (hc : c.isDigit = true)
    (h : Gives (Number.read false (c :: cs)) j rest) (hwhole : OnlyWhole (c :: cs)) :
    (∃ i, j = .integer i ∧ InRange i) ∧ OnlyWhole rest := by
  obtain ⟨⟨digits, hne, hdigits, hspell⟩, hrest⟩ := (onlyWhole_numeral (.inl hc)).1 hwhole
  rcases hspell with ⟨rfl, hlimit⟩ | ⟨hspell, _⟩
  · have hsplit : c :: cs = c :: cs.takeWhile isNumeralPart ++ cs.dropWhile isNumeralPart := by
      rw [List.cons_append, List.takeWhile_append_dropWhile]
    rw [hsplit] at h
    obtain ⟨rfl, rfl⟩ := Number.eq_of_gives_read hne hdigits hlimit endsNumeral_dropWhile h
    rw [Number.whole_false]
    exact ⟨⟨_, rfl, by omega, by omega⟩, hrest⟩
  · cases hspell
    cases hc

theorem head?_toDigits_ne {n : Nat} (h : 0 < n) : (Nat.toDigits 10 n).head? ≠ some '0' := by
  induction n using Nat.strongRecOn with
  | _ n ih =>
    rw [Nat.toDigits_eq_if (by decide)]
    split
    · next hlt =>
      have hdigit : ∀ m < 10, 0 < m → Nat.digitChar m ≠ '0' := by decide
      simpa using hdigit n hlt h
    · next hge =>
      have hhead := ih (n / 10) (by omega) (by omega)
      cases hdigits : Nat.toDigits 10 (n / 10) with
      | nil => exact absurd hdigits Nat.toDigits_ne_nil
      | cons c digits => rwa [hdigits] at hhead

theorem head?_toDigits {n : Nat} (h : (Nat.toDigits 10 n).head? = some '0') :
    Nat.toDigits 10 n = ['0'] := by
  cases n with
  | zero => rfl
  | succ n => exact absurd h (head?_toDigits_ne (Nat.succ_pos n))

theorem gives_read_toDigits {negative : Bool} {n : Nat} (hn : n < 2 ^ 64)
    (hrest : EndsNumeral rest) :
    Gives (Number.read negative (Nat.toDigits 10 n ++ rest)) (Number.whole negative n) rest := by
  have hvalue : natOf (Nat.toDigits 10 n) = n := Nat.ofDigitChars_ten_toDigits
  have h := @Number.gives_read rest (Nat.toDigits 10 n) negative Nat.toDigits_ne_nil
    (fun c hc => Nat.isDigit_of_mem_toDigits (by decide) (by decide) hc) head?_toDigits
    (by rwa [hvalue]) hrest
  rwa [hvalue] at h

/-- What is written for a whole number is read as it. -/
theorem scalar_integerChars {i : Int} (hi : InRange i) (hrest : EndsNumeral rest) :
    Scalar (integerChars i ++ rest) (.integer i) rest := by
  obtain ⟨hlow, hhigh⟩ := hi
  unfold integerChars
  split
  · next hneg =>
    have h := @gives_read_toDigits rest true i.natAbs (by omega) hrest
    rw [Number.whole_true (by omega) (by omega)] at h
    have hi : -(i.natAbs : Int) = i := by omega
    rw [hi] at h
    exact .negative h
  · next hpos =>
    have h := @gives_read_toDigits rest false i.natAbs (by omega) hrest
    have hi : (i.natAbs : Int) = i := by omega
    rw [Number.whole_false, hi] at h
    cases hdigits : Nat.toDigits 10 i.natAbs with
    | nil => exact absurd hdigits Nat.toDigits_ne_nil
    | cons c digits =>
      rw [hdigits] at h
      have hc : c.isDigit = true := by
        apply Nat.isDigit_of_mem_toDigits (b := 10) (n := i.natAbs) (by decide) (by decide)
        rw [hdigits]
        exact List.mem_cons_self
      exact .number hc h

theorem printable_integerChars (i : Int) : Printable (integerChars i) := by
  have hdigits (n : Nat) : Printable (Nat.toDigits 10 n) := by
    intro d hd
    have h := isDigit_iff.1 (Nat.isDigit_of_mem_toDigits (by decide) (by decide) hd)
    omega
  unfold integerChars
  split
  · exact (hdigits _).cons (by decide)
  · exact hdigits _

end SchemaContract.Json
