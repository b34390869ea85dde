import Mathlib
import SchemaContract.Proofs.Number.Basins

/-!
Shortest decimals. Seventeen digits are enough to hit the basin of every double, so the shortest
decimal of a number is always found, and it reads back as the number.
-/
namespace SchemaContract

namespace Decimal

variable {num den : Nat}

/-- The exact value of a decimal. -/
def value (d : Decimal) : ℚ := d.digits * 10 ^ d.exponent

theorem width_eq (n : Nat) : width n = (Nat.digits 10 n).length := by
  fun_induction width n with
  | case1 => rfl
  | case2 n hn ih => rw [ih, Nat.digits_def' (by decide) (Nat.pos_of_ne_zero hn), List.length_cons]

theorem lt_pow_width (n : Nat) : n < 10 ^ width n := by
  rw [width_eq]
  exact Nat.lt_base_pow_length_digits (by decide)

theorem pow_width_le {n : Nat} (h : n ≠ 0) : 10 ^ width n ≤ 10 * n := by
  rw [width_eq]
  exact Nat.base_pow_length_digits_le 10 n (by decide) h

theorem pow_floorLog10_le (hnum : 0 < num) (hden : 0 < den) :
    (10 : ℚ) ^ floorLog10 num den ≤ num / den := by
  have hden' : (0 : ℚ) < den := Nat.cast_pos.2 hden
  unfold floorLog10
  split
  · next h =>
    have hquotient : num / den ≠ 0 := (Nat.div_pos h hden).ne'
    have hpow : (10 : ℚ) ^ width (num / den) ≤ 10 * (num / den : Nat) :=
      mod_cast pow_width_le hquotient
    calc (10 : ℚ) ^ ((width (num / den) : Int) - 1)
        = 10 ^ width (num / den) / 10 := by rw [zpow_sub_one₀ (by norm_num), zpow_natCast]; rfl
      _ ≤ (num / den : Nat) := by linarith
      _ ≤ num / den := Nat.cast_div_le
  · have hpow : den ≤ num * 10 ^ width ((den - 1) / num) := by
      have hlt := (Nat.div_lt_iff_lt_mul hnum).1 (lt_pow_width ((den - 1) / num))
      rw [Nat.mul_comm] at hlt
      omega
    have hpow' : (den : ℚ) ≤ num * 10 ^ width ((den - 1) / num) := mod_cast hpow
    rw [zpow_neg, zpow_natCast, inv_eq_one_div, div_le_div_iff₀ (by positivity) hden', one_mul]
    exact hpow'

theorem value_strip (digits : Nat) (exponent : Int) :
    (strip digits exponent).value = digits * 10 ^ exponent := by
  fun_induction strip digits exponent with
  | case1 => rfl
  | case2 digits exponent h ih =>
    have hdigits : digits = digits / 10 * 10 := by omega
    have hcast : (digits : ℚ) = (digits / 10 : Nat) * 10 := mod_cast hdigits
    rw [ih, hcast, zpow_add_one₀ (by norm_num)]
    ring

end Decimal

namespace Binary64

variable {m : Magnitude}

theorem Magnitude.low_lt_value (h : 0 < m.mantissa) : m.basin.low < m.basin.value := by
  simp only [basin]
  split <;> omega

theorem Magnitude.value_lt_high (m : Magnitude) : m.basin.value < m.basin.high := by
  simp only [basin]
  omega

theorem Magnitude.start_pos (h : 0 < m.mantissa) : 0 < m.start := by
  have hlow : 0 < m.basin.low := by
    simp only [basin]
    split <;> omega
  exact mul_pos (Nat.cast_pos.2 hlow) m.quarter_pos

theorem quarter_eq (m : Magnitude) :
    ((Magnitude.mk 1 (m.exponent - 2)).ratio.1 : ℚ) / (Magnitude.mk 1 (m.exponent - 2)).ratio.2 =
      m.quarter := by
  rw [Magnitude.ratio_eq, Nat.cast_one, one_mul]
  rfl

/-- A basin is wider than the step of a grid with seventeen digits. -/
theorem Magnitude.step_lt (hpos : 0 < m.mantissa) (hlt : m.mantissa < 2 * exponentUnit) :
    m.start + 10 ^ (Decimal.floorLog10 m.ratio.1 m.ratio.2 - 16) < m.stop := by
  obtain ⟨hnum, hden⟩ := m.ratio_pos hpos
  have htop := Decimal.pow_floorLog10_le hnum hden
  have hquarter := m.quarter_pos
  have hvalue : (m.mantissa : ℚ) * 2 ^ m.exponent = 4 * m.mantissa * m.quarter := by
    unfold quarter
    rw [zpow_sub₀ two_ne_zero]
    ring
  rw [m.ratio_eq, hvalue] at htop
  have hwidth : 4 * m.mantissa + 10 ^ 16 * m.basin.low < 10 ^ 16 * m.basin.high := by
    simp only [basin]
    split <;> simp only [exponentUnit] at * <;> omega
  have hwidth' : 4 * m.mantissa + 10 ^ 16 * (m.basin.low : ℚ) < 10 ^ 16 * m.basin.high :=
    mod_cast hwidth
  have hscaled := mul_lt_mul_of_pos_right hwidth' hquarter
  have hstep : (10 : ℚ) ^ (Decimal.floorLog10 m.ratio.1 m.ratio.2 - 16) * 10 ^ 16 =
      10 ^ Decimal.floorLog10 m.ratio.1 m.ratio.2 := by
    rw [← zpow_natCast, ← zpow_add₀ (by norm_num)]
    congr 1
    omega
  unfold start stop
  linarith

/-- The shortest decimal of a number reads back as the number. -/
theorem covers_shortest {x : Binary64} (h : 0 < x.unsigned) :
    (magnitudeOf x.unsigned).Covers x.shortest.value := by
  have hpos := mantissa_pos h
  have hspec (k : Nat) := Basin.onGrid_spec
    ((Magnitude.mk 1 (x.magnitude.exponent - 2)).ratio_pos Nat.one_pos)
    (Magnitude.low_lt_value hpos) (magnitudeOf x.unsigned).value_lt_high
    (Decimal.floorLog10 x.magnitude.ratio.1 x.magnitude.ratio.2 - k)
  unfold shortest
  dsimp only
  rw [magnitude_eq] at *
  simp only [quarter_eq] at hspec
  generalize hhit : List.findSome? _ _ = hit
  cases hit with
  | none =>
    rw [List.findSome?_eq_none_iff] at hhit
    have h16 := hhit 16 (by decide)
    rw [Option.map_eq_none_iff] at h16
    exact absurd ((hspec 16).2 h16) (not_le.2 (Magnitude.step_lt hpos (mantissa_lt _)))
  | some d =>
    obtain ⟨k, -, hk⟩ := List.exists_of_findSome?_eq_some hhit
    obtain ⟨n, hn, rfl⟩ := Option.map_eq_some_iff.1 hk
    rw [Option.getD_some, Decimal.value_strip]
    exact (hspec k).1 n hn

theorem value_shortest_pos {x : Binary64} (h : 0 < x.unsigned) : 0 < x.shortest.value :=
  (Magnitude.start_pos (mantissa_pos h)).trans_le (covers_shortest h).between.1

end Binary64
end SchemaContract
