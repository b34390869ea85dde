import Mathlib
import SchemaContract.Proofs.Number.Shortest

/-!
Texts of doubles. The text of a number spells its shortest decimal, in either of the two notations,
so that different numbers have different texts.
-/
namespace SchemaContract

/-- The number that digits with a point among them spell. -/
def pointValue (cs : List Char) : ℚ :=
  let whole := cs.takeWhile (· ≠ '.')
  let fraction := (cs.dropWhile (· ≠ '.')).drop 1
  Nat.ofDigitChars 10 (whole ++ fraction) 0 / 10 ^ fraction.length

/-- The number that a sign with digits behind it spells. -/
def signedValue : List Char → Int
  | [] => 0
  | c :: cs => if c = '-' then -Nat.ofDigitChars 10 cs 0 else Nat.ofDigitChars 10 cs 0

/-- The number that a decimal text without a sign spells, with an exponent behind it if there is
one. -/
def spelledValue (cs : List Char) : ℚ :=
  pointValue (cs.takeWhile (· ≠ 'e')) * 10 ^ signedValue ((cs.dropWhile (· ≠ 'e')).drop 1)

/-- A text spells a number: it begins with a digit, and a point or the mark of an exponent is in
it. -/
structure Spells (cs : List Char) (q : ℚ) : Prop where
  head : ∃ c, cs.head? = some c ∧ c.isDigit = true
  parts : ∀ c ∈ cs, c.isDigit = true ∨ c ∈ ['.', 'e', '+', '-']
  marked : '.' ∈ cs ∨ 'e' ∈ cs
  value : spelledValue cs = q

variable {whole fraction cs : List Char} {d : Decimal}

theorem forall_ne_of_not_mem {c : Char} (h : c ∉ cs) : ∀ d ∈ cs, decide (d ≠ c) = true := by
  intro d hd
  exact decide_eq_true (ne_of_mem_of_not_mem hd h)

theorem takeWhile_ne_append {c : Char} (h : c ∉ cs) (rest : List Char) :
    (cs ++ c :: rest).takeWhile (· ≠ c) = cs ∧ (cs ++ c :: rest).dropWhile (· ≠ c) = c :: rest := by
  have hcs := forall_ne_of_not_mem h
  rw [List.takeWhile_append_of_pos hcs, List.dropWhile_append_of_pos hcs]
  simp

theorem takeWhile_ne_of_not_mem {c : Char} (h : c ∉ cs) :
    cs.takeWhile (· ≠ c) = cs ∧ cs.dropWhile (· ≠ c) = [] :=
  ⟨List.takeWhile_eq_self_iff.2 (forall_ne_of_not_mem h),
    List.dropWhile_eq_nil_iff.2 (forall_ne_of_not_mem h)⟩

theorem not_mem_of_isDigit {c : Char} (hc : c.isDigit = false)
    (hcs : ∀ d ∈ cs, d.isDigit = true) : c ∉ cs := by
  intro h
  rw [hcs c h] at hc
  cases hc

theorem pointValue_point (hwhole : ∀ c ∈ whole, c.isDigit = true) :
    pointValue (whole ++ '.' :: fraction) =
      Nat.ofDigitChars 10 (whole ++ fraction) 0 / 10 ^ fraction.length := by
  obtain ⟨htake, hdrop⟩ := takeWhile_ne_append (not_mem_of_isDigit (c := '.') rfl hwhole) fraction
  unfold pointValue
  rw [htake, hdrop, List.drop_one, List.tail_cons]

theorem pointValue_whole (hwhole : ∀ c ∈ whole, c.isDigit = true) :
    pointValue whole = Nat.ofDigitChars 10 whole 0 := by
  obtain ⟨htake, hdrop⟩ := takeWhile_ne_of_not_mem (not_mem_of_isDigit (c := '.') rfl hwhole)
  unfold pointValue
  rw [htake, hdrop]
  simp

/-- Digits around a point spell a number. -/
theorem Spells.point (hne : whole ≠ []) (hwhole : ∀ c ∈ whole, c.isDigit = true)
    (hfraction : ∀ c ∈ fraction, c.isDigit = true) :
    Spells (whole ++ '.' :: fraction)
      (Nat.ofDigitChars 10 (whole ++ fraction) 0 / 10 ^ fraction.length) where
  head := by
    obtain ⟨c, cs, rfl⟩ := List.exists_cons_of_ne_nil hne
    exact ⟨c, rfl, hwhole c List.mem_cons_self⟩
  parts := by
    intro c hc
    rcases List.mem_append.1 hc with hc | hc
    · exact .inl (hwhole c hc)
    rcases List.mem_cons.1 hc with rfl | hc
    · exact .inr (by decide)
    · exact .inl (hfraction c hc)
  marked := .inl (by simp)
  value := by
    have hmark : 'e' ∉ whole ++ '.' :: fraction := by
      have hw := not_mem_of_isDigit (c := 'e') rfl hwhole
      have hf := not_mem_of_isDigit (c := 'e') rfl hfraction
      simp [hw, hf]
    obtain ⟨htake, hdrop⟩ := takeWhile_ne_of_not_mem hmark
    unfold spelledValue
    rw [htake, hdrop, pointValue_point hwhole]
    simp [signedValue]

/-- A number with an exponent behind it spells the number times a power of ten. -/
theorem Spells.scaled {mantissa digits : List Char} {sign : Char}
    (hhead : ∃ c, mantissa.head? = some c ∧ c.isDigit = true)
    (hparts : ∀ c ∈ mantissa, c.isDigit = true ∨ c = '.') (hsign : sign = '-' ∨ sign = '+')
    (hdigits : ∀ c ∈ digits, c.isDigit = true) :
    Spells (mantissa ++ 'e' :: sign :: digits)
      (pointValue mantissa * 10 ^ signedValue (sign :: digits)) where
  head := by
    obtain ⟨c, hc, hdigit⟩ := hhead
    exact ⟨c, by rw [List.head?_append, hc]; rfl, hdigit⟩
  parts := by
    intro c hc
    rcases List.mem_append.1 hc with hc | hc
    · rcases hparts c hc with h | rfl
      · exact .inl h
      · exact .inr (by decide)
    rcases List.mem_cons.1 hc with rfl | hc
    · exact .inr (by decide)
    rcases List.mem_cons.1 hc with rfl | hc
    · rcases hsign with rfl | rfl <;> exact .inr (by decide)
    · exact .inl (hdigits c hc)
  marked := .inr (by simp)
  value := by
    have hmark : 'e' ∉ mantissa := by
      intro h
      rcases hparts 'e' h with h | h <;> cases h
    obtain ⟨htake, hdrop⟩ := takeWhile_ne_append hmark (sign :: digits)
    unfold spelledValue
    rw [htake, hdrop, List.drop_one, List.tail_cons]

theorem isDigit_toDigits (n : Nat) : ∀ c ∈ Nat.toDigits 10 n, c.isDigit = true :=
  fun _ hc => Nat.isDigit_of_mem_toDigits (by decide) (by decide) hc

theorem isDigit_replicate (n : Nat) : ∀ c ∈ List.replicate n '0', c.isDigit = true := by
  intro c hc
  rw [(List.mem_replicate.1 hc).2]
  rfl

theorem isDigit_append (hwhole : ∀ c ∈ whole, c.isDigit = true)
    (hfraction : ∀ c ∈ fraction, c.isDigit = true) : ∀ c ∈ whole ++ fraction, c.isDigit = true :=
  List.forall_mem_append.2 ⟨hwhole, hfraction⟩

theorem length_toDigits {n : Nat} (h : n ≠ 0) : (Nat.toDigits 10 n).length = Decimal.width n := by
  fun_induction Decimal.width n with
  | case1 => exact absurd rfl h
  | case2 n hn ih =>
    rw [Nat.toDigits_eq_if (by decide)]
    split
    · next hlt =>
      rw [Nat.div_eq_of_lt hlt, Decimal.width, if_pos rfl]
      rfl
    · rw [List.length_append, ih (by omega), List.length_singleton]

theorem spells_positional (d : Decimal) : Spells (NumberFormat.positional d).toList d.value := by
  have hdigits := isDigit_toDigits d.digits
  have hvalue : Nat.ofDigitChars 10 (Nat.toDigits 10 d.digits) 0 = d.digits :=
    Nat.ofDigitChars_ten_toDigits
  have hne : Nat.toDigits 10 d.digits ≠ [] := Nat.toDigits_ne_nil
  unfold NumberFormat.positional Decimal.value
  dsimp only
  generalize Nat.toDigits 10 d.digits = ds at *
  split
  · next h =>
    obtain ⟨k, hk⟩ := Int.eq_ofNat_of_zero_le h
    have hwhole := isDigit_append hdigits (isDigit_replicate k)
    have hzero := isDigit_replicate 1
    have hspells := Spells.point (List.append_ne_nil_of_left_ne_nil hne _) hwhole hzero
    rw [Nat.ofDigitChars_append, Nat.ofDigitChars_append, hvalue, Nat.ofDigitChars_replicate_zero,
      Nat.ofDigitChars_replicate_zero, List.length_replicate] at hspells
    simpa [hk, mul_comm] using hspells
  · next h =>
    obtain ⟨k, hk⟩ := Int.eq_ofNat_of_zero_le (Int.neg_nonneg.2 (Int.le_of_lt (Int.not_le.1 h)))
    have he : d.exponent = -k := by omega
    rw [hk, Int.toNat_natCast, List.splitAt_eq]
    have hpadded := isDigit_append (isDigit_replicate (k + 1 - ds.length)) hdigits
    have hpaddedValue : Nat.ofDigitChars 10 (List.replicate (k + 1 - ds.length) '0' ++ ds) 0 =
        d.digits := by
      rw [Nat.ofDigitChars_append, Nat.ofDigitChars_replicate_zero, Nat.mul_zero, hvalue]
    have hlength : k + 1 ≤ (List.replicate (k + 1 - ds.length) '0' ++ ds).length := by
      rw [List.length_append, List.length_replicate]
      omega
    generalize List.replicate (k + 1 - ds.length) '0' ++ ds = padded at *
    have hwhole : padded.take (padded.length - k) ≠ [] := by
      rw [Ne, List.take_eq_nil_iff, ← List.length_eq_zero_iff]
      omega
    have hfraction : ∀ c ∈ padded.drop (padded.length - k), c.isDigit = true :=
      fun c hc => hpadded c (List.mem_of_mem_drop hc)
    have hspells := Spells.point hwhole (fun c hc => hpadded c (List.mem_of_mem_take hc)) hfraction
    rw [List.take_append_drop, hpaddedValue, List.length_drop, Nat.sub_sub_self (by omega)]
      at hspells
    simpa [he, div_eq_mul_inv] using hspells

theorem signedValue_toDigits (power : Int) :
    signedValue ((if power < 0 then '-' else '+') :: Nat.toDigits 10 power.natAbs) = power := by
  rw [signedValue, Nat.ofDigitChars_ten_toDigits]
  by_cases h : power < 0
  · rw [if_pos h, if_pos rfl]
    omega
  · rw [if_neg h, if_neg (by decide)]
    omega

theorem toList_exponent (power : Int) :
    ((if power < 0 then "e-" else "e+") ++ Nat.repr power.natAbs).toList =
      'e' :: (if power < 0 then '-' else '+') :: Nat.toDigits 10 power.natAbs := by
  split <;> simp [Nat.repr]

/-- A first digit, and the others behind a point, if there are any. -/
def firstAndOthers : List Char → List Char
  | [] => []
  | [c] => [c]
  | c :: cs => c :: '.' :: cs

theorem parts_firstAndOthers {c : Char} (h : ∀ d ∈ c :: cs, d.isDigit = true) :
    ∀ d ∈ firstAndOthers (c :: cs), d.isDigit = true ∨ d = '.' := by
  intro d hd
  cases cs with
  | nil => exact .inl (h d hd)
  | cons c' cs =>
    obtain ⟨hc, hcs⟩ := List.forall_mem_cons.1 h
    rcases List.mem_cons.1 hd with rfl | hd
    · exact .inl hc
    rcases List.mem_cons.1 hd with rfl | hd
    · exact .inr rfl
    · exact .inl (hcs d hd)

theorem pointValue_firstAndOthers {c : Char} (h : ∀ d ∈ c :: cs, d.isDigit = true) :
    pointValue (firstAndOthers (c :: cs)) = Nat.ofDigitChars 10 (c :: cs) 0 / 10 ^ cs.length := by
  cases cs with
  | nil =>
    rw [firstAndOthers, pointValue_whole h]
    simp
  | cons c' cs => exact @pointValue_point [c] (c' :: cs) (fun d hd => h d (by simp_all))

theorem toList_scientific (d : Decimal) (power : Int) :
    (NumberFormat.scientific d power).toList = firstAndOthers (Nat.toDigits 10 d.digits) ++
      'e' :: (if power < 0 then '-' else '+') :: Nat.toDigits 10 power.natAbs := by
  unfold NumberFormat.scientific
  dsimp only
  rw [String.append_assoc, String.toList_append, toList_exponent]
  rcases Nat.toDigits 10 d.digits with _ | ⟨c, _ | ⟨c', cs⟩⟩
  · rfl
  · rw [String.toList_ofList, firstAndOthers]
  · rw [String.toList_ofList, firstAndOthers]
    exact List.cons_ne_nil c' cs

theorem spells_scientific (h : d.digits ≠ 0) :
    Spells (NumberFormat.scientific d (d.exponent + Decimal.width d.digits - 1)).toList
      d.value := by
  have hdigits := isDigit_toDigits d.digits
  have hvalue : Nat.ofDigitChars 10 (Nat.toDigits 10 d.digits) 0 = d.digits :=
    Nat.ofDigitChars_ten_toDigits
  have hwidth := length_toDigits h
  generalize hpower : d.exponent + Decimal.width d.digits - 1 = power
  have hsign : (if power < 0 then '-' else '+') = '-' ∨ (if power < 0 then '-' else '+') = '+' := by
    split
    · exact .inl rfl
    · exact .inr rfl
  rw [toList_scientific]
  obtain ⟨c, cs, hds⟩ := List.exists_cons_of_ne_nil (Nat.toDigits_ne_nil (b := 10) (n := d.digits))
  rw [hds] at hdigits hvalue hwidth ⊢
  have hhead : ∃ c', (firstAndOthers (c :: cs)).head? = some c' ∧ c'.isDigit = true :=
    ⟨c, by cases cs <;> rfl, hdigits c List.mem_cons_self⟩
  have hspells := Spells.scaled hhead (parts_firstAndOthers hdigits) hsign
    (isDigit_toDigits power.natAbs)
  rw [signedValue_toDigits, pointValue_firstAndOthers hdigits, hvalue] at hspells
  -- the point has been moved to behind the first digit
  have he : power = d.exponent + cs.length := by
    rw [← hpower, ← hwidth, List.length_cons]
    omega
  have hscale : (d.digits : ℚ) / 10 ^ cs.length * 10 ^ power = d.value := by
    rw [Decimal.value, he, zpow_add₀ (by norm_num), zpow_natCast]
    field_simp
  rwa [hscale] at hspells

namespace Binary64

variable {x y : Binary64}

theorem bits_eq (x : Binary64) :
    x.bits.toNat = (if x.isNegative then signUnit else 0) + x.unsigned := by
  have hbits := x.bits.toNat_lt
  unfold isNegative unsigned
  simp only [decide_eq_true_eq]
  split <;> simp only [signUnit] at * <;> omega

theorem unsigned_pos_iff : 0 < x.unsigned ↔ ¬x.isZero := by
  unfold isZero
  rw [beq_iff_eq]
  omega

theorem ext_of_unsigned (hsign : x.isNegative = y.isNegative) (h : x.unsigned = y.unsigned) :
    x = y := by
  have hbits : x.bits.toNat = y.bits.toNat := by rw [bits_eq, bits_eq, hsign, h]
  obtain ⟨a⟩ := x
  obtain ⟨b⟩ := y
  exact congrArg mk (UInt64.toNat_inj.1 hbits)

end Binary64

namespace NumberFormat

variable {x y : Binary64}

/-- The number that the text of a number spells when the sign is left out. -/
def valueOf (x : Binary64) : ℚ := if x.isZero then 0 else x.shortest.value

/-- The text of a number is a sign for the negative ones, and a text that reads back as it. -/
theorem text_spec (f : NumberFormat) (x : Binary64) :
    ∃ cs, (f.text x).toList = (if x.isNegative then ['-'] else []) ++ cs ∧
      Spells cs (valueOf x) := by
  have hsign : (if x.isNegative then "-" else "").toList = if x.isNegative then ['-'] else [] := by
    split <;> rfl
  unfold text valueOf
  dsimp only
  split
  · next hzero =>
    refine ⟨['0', '.', '0'], by rw [String.toList_append, hsign]; rfl, ?_⟩
    have h0 := isDigit_replicate 1
    have hspells := Spells.point (List.cons_ne_nil _ _) h0 h0
    simpa [Nat.ofDigitChars_cons] using hspells
  · next hzero =>
    split
    · refine ⟨_, by rw [String.toList_append, hsign], spells_positional _⟩
    · refine ⟨_, by rw [String.toList_append, hsign], spells_scientific ?_⟩
      intro hdigits
      have hpos := Binary64.value_shortest_pos (Binary64.unsigned_pos_iff.2 hzero)
      rw [Decimal.value, hdigits, Nat.cast_zero, zero_mul] at hpos
      exact lt_irrefl _ hpos

theorem valueOf_pos_iff : 0 < valueOf x ↔ 0 < x.unsigned := by
  rw [Binary64.unsigned_pos_iff]
  unfold valueOf
  split
  · next hzero => simp [hzero]
  · next hzero =>
    exact iff_of_true (Binary64.value_shortest_pos (Binary64.unsigned_pos_iff.2 hzero)) hzero

theorem unsigned_eq_of_valueOf_eq (h : valueOf x = valueOf y) : x.unsigned = y.unsigned := by
  have hpos : 0 < x.unsigned ↔ 0 < y.unsigned := by rw [← valueOf_pos_iff, h, valueOf_pos_iff]
  rcases Nat.eq_zero_or_pos x.unsigned with hx | hx
  · rw [hx] at hpos ⊢
    omega
  · have hy := hpos.1 hx
    unfold valueOf at h
    rw [if_neg (Binary64.unsigned_pos_iff.1 hx), if_neg (Binary64.unsigned_pos_iff.1 hy)] at h
    have hcovers := Binary64.covers_shortest hy
    rw [← h] at hcovers
    exact Binary64.covers_unique (Binary64.covers_shortest hx) hcovers

/-- A sign in front of a text that spells a number, or none, is told by the first character. -/
theorem signed_injective {cs ds : List Char} {negative negative' : Bool} {p q : ℚ}
    (hcs : Spells cs p) (hds : Spells ds q)
    (h : (if negative then ['-'] else []) ++ cs = (if negative' then ['-'] else []) ++ ds) :
    negative = negative' ∧ cs = ds := by
  have hsign {us : List Char} {r : ℚ} (hus : Spells us r) (vs : List Char) : us ≠ '-' :: vs := by
    rintro rfl
    obtain ⟨c, hc, hdigit⟩ := hus.head
    cases hc
    cases hdigit
  cases negative <;> cases negative'
  · exact ⟨rfl, h⟩
  · exact absurd h (hsign hcs ds)
  · exact absurd h.symm (hsign hds cs)
  · exact ⟨rfl, List.tail_eq_of_cons_eq h⟩

/-- Different numbers have different texts. -/
theorem text_injective (f : NumberFormat) : Function.Injective f.text := by
  intro x y h
  obtain ⟨cs, hcs, hspells⟩ := f.text_spec x
  obtain ⟨ds, hds, hspells'⟩ := f.text_spec y
  rw [← h, hcs] at hds
  obtain ⟨hsign, rfl⟩ := signed_injective hspells hspells' hds
  have hvalue : valueOf x = valueOf y := hspells.value.symm.trans hspells'.value
  exact Binary64.ext_of_unsigned hsign (unsigned_eq_of_valueOf_eq hvalue)

end NumberFormat
end SchemaContract
