import Mathlib
import SchemaContract.Number.Shortest

/-!
Basins of doubles: the rational numbers that read back as one. The basin of every double ends where
that of the next one begins, and of two neighbours only the one with an even mantissa has the point
between them. So no number is in two basins.
-/
namespace SchemaContract.Binary64

variable {b : Basin} {m : Magnitude} {u v : Nat} {q : ℚ}

/-- A quarter of the last place, in which basins are measured. -/
def Magnitude.quarter (m : Magnitude) : ℚ := 2 ^ (m.exponent - 2)

theorem Magnitude.quarter_pos (m : Magnitude) : 0 < m.quarter := by
  unfold quarter
  positivity

def magnitudeOf (u : Nat) : Magnitude :=
  if u / exponentUnit = 0 then ⟨u % exponentUnit, -1074⟩
  else ⟨exponentUnit + u % exponentUnit, ((u / exponentUnit : Nat) : Int) - 1075⟩

theorem magnitude_eq (x : Binary64) : x.magnitude = magnitudeOf x.unsigned := rfl

theorem mantissa_mod_two (u : Nat) : (magnitudeOf u).mantissa % 2 = u % 2 := by
  unfold magnitudeOf
  split <;> simp only [exponentUnit] <;> omega

theorem mantissa_pos (h : 0 < u) : 0 < (magnitudeOf u).mantissa := by
  unfold magnitudeOf
  split <;> simp only [exponentUnit] at * <;> omega

theorem mantissa_lt (u : Nat) : (magnitudeOf u).mantissa < 2 * exponentUnit := by
  have hrest : u % exponentUnit < exponentUnit := Nat.mod_lt u (by decide)
  unfold magnitudeOf
  split <;> simp only [exponentUnit] at * <;> omega

/-- The next number has the next mantissa, or the least one with the next exponent. -/
theorem magnitudeOf_succ (u : Nat) :
    (magnitudeOf (u + 1) = ⟨(magnitudeOf u).mantissa + 1, (magnitudeOf u).exponent⟩ ∧
      ((magnitudeOf u).mantissa + 1 = exponentUnit → (magnitudeOf u).exponent = -1074)) ∨
    (magnitudeOf (u + 1) = ⟨exponentUnit, (magnitudeOf u).exponent + 1⟩ ∧
      (magnitudeOf u).mantissa + 1 = 2 * exponentUnit ∧ -1074 ≤ (magnitudeOf u).exponent) := by
  have hstep : (u % exponentUnit + 1 < exponentUnit ∧ (u + 1) / exponentUnit = u / exponentUnit ∧
      (u + 1) % exponentUnit = u % exponentUnit + 1) ∨
      (u % exponentUnit + 1 = exponentUnit ∧ (u + 1) / exponentUnit = u / exponentUnit + 1 ∧
      (u + 1) % exponentUnit = 0) := by
    simp only [exponentUnit]
    omega
  unfold magnitudeOf
  generalize u / exponentUnit = e at *
  generalize u % exponentUnit = f at *
  obtain ⟨hf, he, hf'⟩ | ⟨hf, he, hf'⟩ := hstep
  · rw [he, hf']
    by_cases h0 : e = 0
    · exact .inl (by simp [h0])
    · refine .inl ⟨by simp [h0, Nat.add_assoc], ?_⟩
      simp only [h0, if_false]
      omega
  · rw [he, hf', if_neg (Nat.succ_ne_zero e)]
    by_cases h0 : e = 0
    · refine .inl ⟨?_, fun _ => by simp [h0]⟩
      simp [h0, hf]
    · refine .inr ?_
      simp only [h0, if_false, Magnitude.mk.injEq]
      omega

def Basin.Holds (b : Basin) (unit q : ℚ) : Prop :=
  if b.closed then b.low * unit ≤ q ∧ q ≤ b.high * unit else b.low * unit < q ∧ q < b.high * unit

/-- A number reads back as the magnitude. -/
def Magnitude.Covers (m : Magnitude) (q : ℚ) : Prop := m.basin.Holds m.quarter q

def Magnitude.start (m : Magnitude) : ℚ := m.basin.low * m.quarter

def Magnitude.stop (m : Magnitude) : ℚ := m.basin.high * m.quarter

theorem Magnitude.Covers.between (h : m.Covers q) : m.start ≤ q ∧ q ≤ m.stop := by
  unfold Covers Basin.Holds at h
  split at h
  · exact h
  · exact ⟨h.1.le, h.2.le⟩

theorem Magnitude.Covers.even (h : m.Covers q) (hend : q = m.start ∨ q = m.stop) :
    m.mantissa % 2 = 0 := by
  unfold Covers Basin.Holds at h
  split at h
  · next hclosed => simpa [basin] using hclosed
  · rcases hend with rfl | rfl
    · exact absurd h.1 (lt_irrefl _)
    · exact absurd h.2 (lt_irrefl _)

theorem Magnitude.low_lt_high (m : Magnitude) : m.basin.low < m.basin.high := by
  simp only [basin]
  split <;> omega

theorem Magnitude.start_lt_stop (m : Magnitude) : m.start < m.stop :=
  mul_lt_mul_of_pos_right (Nat.cast_lt.2 m.low_lt_high) m.quarter_pos

theorem start_succ (u : Nat) : (magnitudeOf (u + 1)).start = (magnitudeOf u).stop := by
  have hsucc := magnitudeOf_succ u
  generalize magnitudeOf u = m at *
  unfold Magnitude.start Magnitude.stop Magnitude.quarter
  obtain ⟨he, hleast⟩ | ⟨he, hm, hexponent⟩ := hsucc
  · have hlow : (magnitudeOf (u + 1)).basin.low = m.basin.high := by
      simp only [he, Magnitude.basin]
      rw [if_neg (by omega)]
      omega
    rw [hlow, he]
  · -- the last place has doubled, and the basin reaches down by half as much
    have hlow : 2 * (magnitudeOf (u + 1)).basin.low = m.basin.high := by
      simp only [he, Magnitude.basin]
      rw [if_pos ⟨trivial, by omega⟩]
      simp only [exponentUnit] at *
      omega
    have hquarter : (2 : ℚ) ^ (m.exponent + 1 - 2) = 2 * 2 ^ (m.exponent - 2) := by
      rw [add_sub_right_comm, zpow_add_one₀ two_ne_zero, mul_comm]
    rw [← hlow, he, hquarter]
    push_cast
    ring

theorem start_strictMono : StrictMono fun u => (magnitudeOf u).start := by
  refine strictMono_nat_of_lt_succ fun u => ?_
  simp only [start_succ]
  exact Magnitude.start_lt_stop _

/-- No number reads back as two. -/
theorem covers_unique (hu : (magnitudeOf u).Covers q) (hv : (magnitudeOf v).Covers q) : u = v := by
  wlog h : u < v generalizing u v
  · rcases Nat.lt_or_eq_of_le (Nat.le_of_not_lt h) with h | h
    · exact (this hv hu h).symm
    · exact h.symm
  -- the number is where one basin ends and the other begins
  have hstop : q ≤ (magnitudeOf (u + 1)).start := by
    rw [start_succ]
    exact hu.between.2
  have hmono : (magnitudeOf (u + 1)).start ≤ (magnitudeOf v).start := start_strictMono.monotone h
  have hnext : (magnitudeOf (u + 1)).start = (magnitudeOf v).start :=
    le_antisymm hmono (hv.between.1.trans hstop)
  have hv' : u + 1 = v := start_strictMono.injective hnext
  subst hv'
  have hq : q = (magnitudeOf (u + 1)).start := le_antisymm hstop hv.between.1
  have hodd := hu.even (.inr (hq.trans (start_succ u)))
  have heven := hv.even (.inl hq)
  rw [mantissa_mod_two] at hodd heven
  omega

theorem Magnitude.ratio_pos (m : Magnitude) (h : 0 < m.mantissa) :
    0 < m.ratio.1 ∧ 0 < m.ratio.2 := by
  unfold ratio
  split
  · exact ⟨Nat.mul_pos h (Nat.pow_pos (by decide)), Nat.one_pos⟩
  · exact ⟨h, Nat.pow_pos (by decide)⟩

theorem Magnitude.ratio_eq (m : Magnitude) :
    (m.ratio.1 : ℚ) / m.ratio.2 = m.mantissa * 2 ^ m.exponent := by
  unfold ratio
  split
  · next h =>
    obtain ⟨n, hn⟩ := Int.eq_ofNat_of_zero_le h
    simp [hn]
  · next h =>
    obtain ⟨n, hn⟩ := Int.eq_ofNat_of_zero_le (Int.neg_nonneg.2 (Int.le_of_lt (Int.not_le.1 h)))
    have he : m.exponent = -n := by omega
    simp [he, div_eq_mul_inv]

theorem roundQuotient_cases (num den : Nat) :
    roundQuotient num den = num / den ∨ roundQuotient num den = num / den + 1 := by
  unfold roundQuotient
  dsimp only
  split
  · exact .inl rfl
  split
  · exact .inr rfl
  · omega

/-- The unit of a basin and the step of a grid, both as natural numbers of a common measure. -/
theorem exists_measure {unit : Nat × Nat} (hunit : 0 < unit.2) (exponent : Int) :
    ∃ measure : ℚ, 0 < measure ∧
      (((if 0 ≤ exponent then unit.1 else unit.1 * Nat.pow 10 (-exponent).toNat : Nat) : ℚ) =
        unit.1 / unit.2 * measure) ∧
      (((if 0 ≤ exponent then unit.2 * Nat.pow 10 exponent.toNat else unit.2 : Nat) : ℚ) =
        10 ^ exponent * measure) := by
  have hne : (unit.2 : ℚ) ≠ 0 := Nat.cast_ne_zero.2 hunit.ne'
  have hpos : (0 : ℚ) < unit.2 := Nat.cast_pos.2 hunit
  split
  · next h =>
    obtain ⟨n, rfl⟩ := Int.eq_ofNat_of_zero_le h
    refine ⟨unit.2, hpos, by field_simp, ?_⟩
    simp [mul_comm]
  · next h =>
    obtain ⟨n, hn⟩ := Int.eq_ofNat_of_zero_le (Int.neg_nonneg.2 (Int.le_of_lt (Int.not_le.1 h)))
    have he : exponent = -n := by omega
    refine ⟨unit.2 * 10 ^ n, by positivity, ?_, ?_⟩
    · simp only [he, neg_neg, Int.toNat_natCast, Nat.pow_eq]
      push_cast
      field_simp
    · simp only [he, zpow_neg, zpow_natCast]
      field_simp

theorem cast_mul_le_iff {m n a c : Nat} {s t measure : ℚ} (hmeasure : 0 < measure)
    (hm : (m : ℚ) = s * measure) (hn : (n : ℚ) = t * measure) :
    a * m ≤ c * n ↔ (a : ℚ) * s ≤ c * t := by
  rw [← Nat.cast_le (α := ℚ), Nat.cast_mul, Nat.cast_mul, hm, hn, ← mul_assoc, ← mul_assoc,
    mul_le_mul_iff_left₀ hmeasure]

/-- A point of the grid is not below the basin, in a common measure. -/
def Basin.Above (b : Basin) (num den c : Nat) : Prop :=
  if b.closed then b.low * num ≤ c * den else b.low * num < c * den

def Basin.Below (b : Basin) (num den c : Nat) : Prop :=
  if b.closed then c * den ≤ b.high * num else c * den < b.high * num

theorem Basin.holds_iff {num den c : Nat} {unit step measure : ℚ} (hmeasure : 0 < measure)
    (hnum : (num : ℚ) = unit * measure) (hden : (den : ℚ) = step * measure) :
    b.Holds unit (c * step) ↔ b.Above num den c ∧ b.Below num den c := by
  unfold Holds Above Below
  split
  · rw [cast_mul_le_iff hmeasure hnum hden, cast_mul_le_iff hmeasure hden hnum]
  · rw [← not_le, ← not_le, ← not_le, ← not_le, cast_mul_le_iff hmeasure hnum hden,
      cast_mul_le_iff hmeasure hden hnum]

theorem found_cases {p q : Prop} [Decidable p] [Decidable q] {nearest floor : Nat}
    {found : Option Nat} (hround : nearest = floor ∨ nearest = floor + 1)
    (h : (if p ∧ q then some nearest else if p then some floor
      else if q then some (floor + 1) else none) = found) :
    (∀ n, found = some n → n = floor ∧ p ∨ n = floor + 1 ∧ q) ∧ (found = none → ¬p ∧ ¬q) := by
  subst h
  by_cases hp : p <;> by_cases hq : q <;> simp [hp, hq, hround]

/-- A neighbour of the number on the grid is in when it is in on its own side. -/
theorem Basin.above_and_below {num den floor n : Nat} (hfloor : floor * den < b.high * num)
    (hceil : b.low * num < (floor + 1) * den)
    (h : n = floor ∧ b.Above num den floor ∨ n = floor + 1 ∧ b.Below num den (floor + 1)) :
    b.Above num den n ∧ b.Below num den n := by
  obtain ⟨rfl, habove⟩ | ⟨rfl, hbelow⟩ := h
  · refine ⟨habove, ?_⟩
    unfold Below
    split <;> omega
  · refine ⟨?_, hbelow⟩
    unfold Above
    split <;> omega

theorem Basin.high_le {num den floor : Nat} (habove : ¬b.Above num den floor)
    (hbelow : ¬b.Below num den (floor + 1)) : b.high * num ≤ b.low * num + den := by
  unfold Above at habove
  unfold Below at hbelow
  rw [Nat.succ_mul] at hbelow
  split at habove <;> split at hbelow <;> omega

/-- What is found on a grid is in the basin. Where nothing is found, the basin is no wider than the
step of the grid. -/
theorem Basin.onGrid_spec {unit : Nat × Nat} (hunit : 0 < unit.1 ∧ 0 < unit.2)
    (hlow : b.low < b.value) (hhigh : b.value < b.high) (exponent : Int) :
    (∀ n, b.onGrid unit exponent = some n → b.Holds (unit.1 / unit.2) (n * 10 ^ exponent)) ∧
      (b.onGrid unit exponent = none →
        (b.high : ℚ) * (unit.1 / unit.2) ≤ b.low * (unit.1 / unit.2) + 10 ^ exponent) := by
  obtain ⟨measure, hmeasure, hnum, hden⟩ := exists_measure hunit.2 exponent
  generalize hfound : b.onGrid unit exponent = found
  unfold onGrid at hfound
  dsimp only at hfound
  generalize (if 0 ≤ exponent then unit.1 else _) = num at *
  generalize (if 0 ≤ exponent then _ else unit.2) = den at *
  have hunit' : (0 : ℚ) < unit.1 / unit.2 :=
    div_pos (Nat.cast_pos.2 hunit.1) (Nat.cast_pos.2 hunit.2)
  have hnumpos : 0 < num := Nat.cast_pos.1 (hnum ▸ mul_pos hunit' hmeasure)
  have hdenpos : 0 < den := Nat.cast_pos.1 (hden ▸ mul_pos (by positivity) hmeasure)
  have hfloor : b.value * num / den * den < b.high * num :=
    (Nat.div_mul_le_self _ _).trans_lt (Nat.mul_lt_mul_of_pos_right hhigh hnumpos)
  have hceil : b.low * num < (b.value * num / den + 1) * den :=
    (Nat.mul_lt_mul_of_pos_right hlow hnumpos).trans
      (Nat.lt_mul_of_div_lt (Nat.lt_succ_self _) hdenpos)
  obtain ⟨hsome, hnone⟩ := found_cases (roundQuotient_cases (b.value * num) den) hfound
  constructor
  · intro n hn
    rw [b.holds_iff hmeasure hnum hden]
    exact above_and_below hfloor hceil (hsome n hn)
  · intro hn
    have hgap := high_le (hnone hn).1 (hnone hn).2
    rw [← mul_le_mul_iff_left₀ hmeasure, add_mul, mul_assoc, mul_assoc, ← hnum, ← hden]
    exact_mod_cast hgap

end SchemaContract.Binary64
