import Mathlib.Data.Nat.Cast.Order.Field
import Mathlib.Tactic.FieldSimp
import Mathlib.Tactic.Linarith
import Mathlib.Tactic.Ring
import NetLowering.Number.Interchange

/-! # What conversions round to

A conversion between binary formats gives the pattern whose value is nearest, and of two as near the even one
(`BinaryFormat.Nearest`). Infinity takes part in this as the power of two that comes after the largest finite
value. The sign is kept, also of what is not a number, together with the leading places of its payload.
`BinaryFormat.Converts` says so of two patterns, and `BinaryFormat.converts_iff` that a pattern becomes what
`BinaryFormat.convert` makes of it, and nothing else. -/

namespace NetLowering

/-! ### Whole numbers -/

section quotient
variable {num den : Nat}

/-- The quotient is rounded by less than a half, or by a half to an even number. -/
theorem abs_roundDivEven_sub (num : Nat) (h : 0 < den) :
    |(roundDivEven num den : ℚ) - num / den| < 1 / 2 ∨
      |(roundDivEven num den : ℚ) - num / den| = 1 / 2 ∧ roundDivEven num den % 2 = 0 := by
  have hden : (0 : ℚ) < den := by exact_mod_cast h
  have hnum : (num : ℚ) / den = (num / den : ℕ) + (num % den : ℕ) / den := by
    field_simp
    exact_mod_cast (Nat.div_add_mod num den).symm
  have hnonneg : (0 : ℚ) ≤ (num % den : ℕ) / den := by positivity
  have hsmall : ((num % den : ℕ) : ℚ) / den < 1 := by
    rw [div_lt_one hden]
    exact_mod_cast Nat.mod_lt num h
  rw [hnum]
  unfold roundDivEven
  dsimp only
  split
  · rename_i hlow
    have hlow' : ((num % den : ℕ) : ℚ) / den < 1 / 2 := by
      rw [div_lt_div_iff₀ hden two_pos]
      exact_mod_cast (by omega : num % den * 2 < 1 * den)
    left
    rw [abs_lt]
    constructor <;> linarith
  · split
    · rename_i hhigh
      have hhigh' : 1 / 2 < ((num % den : ℕ) : ℚ) / den := by
        rw [div_lt_div_iff₀ two_pos hden]
        exact_mod_cast (by omega : 1 * den < num % den * 2)
      left
      push_cast
      rw [abs_lt]
      constructor <;> linarith
    · rename_i hlow hhigh
      have hhalf : ((num % den : ℕ) : ℚ) / den = 1 / 2 := by
        rw [div_eq_div_iff hden.ne' two_ne_zero]
        exact_mod_cast (by omega : num % den * 2 = 1 * den)
      right
      rw [hhalf]
      refine ⟨?_, by omega⟩
      rcases Nat.mod_two_eq_zero_or_one (num / den) with hparity | hparity <;> rw [hparity] <;> push_cast <;>
        rw [abs_eq (by norm_num)]
      · right; ring
      · left; ring

theorem abs_sub_lt_of_above {x a b : ℚ} (ha : x ≤ a) (hab : a < b) : |a - x| < |b - x| := by
  rw [abs_of_nonneg (sub_nonneg.mpr ha), abs_of_nonneg (by linarith)]
  linarith

theorem abs_sub_lt_of_below {x a b : ℚ} (ha : a ≤ x) (hab : b < a) : |a - x| < |b - x| := by
  rw [abs_sub_comm a, abs_sub_comm b, abs_of_nonneg (sub_nonneg.mpr ha), abs_of_nonneg (by linarith)]
  linarith

/-- The value of the first of two numbers is nearer to `x`, or as near and the number even. -/
def Prefers (value : Nat → ℚ) (x : ℚ) (a b : Nat) : Prop :=
  |value a - x| < |value b - x| ∨ |value a - x| = |value b - x| ∧ a % 2 = 0

theorem Prefers.le {value : Nat → ℚ} {x : ℚ} {a b : Nat} (h : Prefers value x a b) :
    |value a - x| ≤ |value b - x| :=
  h.elim le_of_lt fun htie => htie.1.le

/-- What is preferred does not change with the unit that distances are measured in. -/
theorem Prefers.scale {value value' : Nat → ℚ} {x x' unit : ℚ} {a b a' b' : Nat} (h : Prefers value x a b)
    (hunit : 0 < unit) (ha : |value' a' - x'| = |value a - x| * unit)
    (hb : |value' b' - x'| = |value b - x| * unit) (heven : a % 2 = 0 → a' % 2 = 0) :
    Prefers value' x' a' b' := by
  rw [Prefers, ha, hb]
  refine h.imp (fun hlt => mul_lt_mul_of_pos_right hlt hunit) fun htie => ⟨?_, heven htie.2⟩
  rw [htie.1]

/-- The rounded quotient is preferred to every other whole number. -/
theorem roundDivEven_prefers (h : 0 < den) {j : Nat} (hj : j ≠ roundDivEven num den) :
    Prefers (fun i => (i : ℚ)) (num / den) (roundDivEven num den) j := by
  have hapart : (1 : ℚ) ≤ |(j : ℚ) - roundDivEven num den| := by
    have hint : (1 : ℤ) ≤ |(j : ℤ) - roundDivEven num den| := by
      rw [← Int.zero_add 1, Int.add_one_le_iff, abs_pos]
      omega
    exact_mod_cast hint
  have htriangle := abs_sub_le (j : ℚ) (num / den) (roundDivEven num den)
  rw [abs_sub_comm ((num : ℚ) / den)] at htriangle
  rcases abs_roundDivEven_sub num h with hlt | ⟨heq, heven⟩
  · exact .inl (by linarith)
  · rcases lt_or_eq_of_le (show |(roundDivEven num den : ℚ) - num / den| ≤ |(j : ℚ) - num / den| by linarith)
      with hlt | htie
    · exact .inl hlt
    · exact .inr ⟨htie, heven⟩

end quotient

namespace BinaryFormat

variable {f : BinaryFormat}

/-! ### Values of patterns -/

/-- The value of a pattern without its sign, in units of the format. -/
def units (f : BinaryFormat) (magnitude : Nat) : Nat :=
  if magnitude / f.exponentPlace = 0 then magnitude
  else (f.exponentPlace + magnitude % f.exponentPlace) * twoTo (magnitude / f.exponentPlace - 1)

theorem exponentPlace_eq (f : BinaryFormat) : f.exponentPlace = 2 ^ (f.precision - 1) := rfl

theorem exponentPlace_pos : 0 < f.exponentPlace := Nat.two_pow_pos _

theorem units_of_lt {k : Nat} (h : k < f.exponentPlace) : f.units k = k := by
  rw [units, Nat.div_eq_of_lt h, if_pos rfl]

theorem units_of_exponent {e r : Nat} (h : r < f.exponentPlace) :
    f.units ((e + 1) * f.exponentPlace + r) = (f.exponentPlace + r) * 2 ^ e := by
  have hfield : ((e + 1) * f.exponentPlace + r) / f.exponentPlace = e + 1 := by
    rw [Nat.add_comm, Nat.add_mul_div_right _ _ exponentPlace_pos, Nat.div_eq_of_lt h, Nat.zero_add]
  have hrest : ((e + 1) * f.exponentPlace + r) % f.exponentPlace = r := by
    rw [Nat.add_comm, Nat.add_mul_mod_self_right, Nat.mod_eq_of_lt h]
  rw [units, hfield, hrest, if_neg (Nat.succ_ne_zero e), Nat.add_sub_cancel]
  rfl

/-- The patterns that share an exponent are evenly spaced, up to the first of the next exponent. -/
theorem units_add {step j : Nat} (hlow : step = 0 ∨ f.exponentPlace ≤ j) (hhigh : j ≤ 2 * f.exponentPlace) :
    f.units (step * f.exponentPlace + j) = j * 2 ^ step := by
  have hpos : 0 < f.exponentPlace := exponentPlace_pos
  rcases Nat.lt_or_ge j f.exponentPlace with hsmall | hnormal
  · obtain rfl : step = 0 := by omega
    rw [Nat.zero_mul, Nat.zero_add, units_of_lt hsmall, Nat.pow_zero, Nat.mul_one]
  rcases Nat.lt_or_eq_of_le hhigh with hlt | rfl
  · have hsplit : step * f.exponentPlace + j = (step + 1) * f.exponentPlace + (j - f.exponentPlace) := by
      rw [Nat.succ_mul]
      omega
    rw [hsplit, units_of_exponent (by omega), Nat.add_sub_cancel' hnormal]
  · have hsplit : step * f.exponentPlace + 2 * f.exponentPlace = (step + 1 + 1) * f.exponentPlace + 0 := by ring
    rw [hsplit, units_of_exponent hpos]
    ring

theorem units_strictMono : StrictMono f.units := by
  refine strictMono_nat_of_lt_succ fun k => ?_
  have hpos : 0 < f.exponentPlace := exponentPlace_pos
  -- the pattern and the next one lie in the range of one exponent
  obtain ⟨step, j, rfl, hlow, hhigh⟩ : ∃ step j, k = step * f.exponentPlace + j ∧
      (step = 0 ∨ f.exponentPlace ≤ j) ∧ j < 2 * f.exponentPlace := by
    have hmod := Nat.mod_lt k hpos
    have hdiv := Nat.div_add_mod k f.exponentPlace
    cases hfield : k / f.exponentPlace with
    | zero =>
        rw [hfield, Nat.mul_zero] at hdiv
        exact ⟨0, k, by omega, .inl rfl, by omega⟩
    | succ e =>
        rw [hfield, Nat.mul_succ, Nat.mul_comm] at hdiv
        exact ⟨e, f.exponentPlace + k % f.exponentPlace, by omega, .inr (by omega), by omega⟩
  rw [Nat.add_assoc, units_add hlow hhigh.le, units_add (hlow.imp_right fun h => h.trans j.le_succ) hhigh]
  exact Nat.mul_lt_mul_of_pos_right j.lt_succ_self (Nat.two_pow_pos step)

/-! ### Nearest patterns -/

/-- The value of a pattern without its sign; infinity counts as the power of two after the largest finite value. -/
def value (f : BinaryFormat) (magnitude : Nat) : ℚ := f.units magnitude / 2 ^ f.unitPlaces

/-- The value of the pattern is the one nearest to `x`, and of two as near that of the even pattern. -/
structure Nearest (f : BinaryFormat) (x : ℚ) (magnitude : Nat) : Prop where
  le_infinity : magnitude ≤ f.infinityBits
  prefers : ∀ k ≤ f.infinityBits, k ≠ magnitude → Prefers f.value x magnitude k

theorem value_lt_value {k k' : Nat} (h : k < k') : f.value k < f.value k' := by
  have hunits : (f.units k : ℚ) < f.units k' := by exact_mod_cast units_strictMono h
  exact div_lt_div_of_pos_right hunits (by positivity)

theorem Nearest.eq_of_value {k magnitude : Nat} (hk : k ≤ f.infinityBits) (h : f.Nearest (f.value k) magnitude) :
    magnitude = k := by
  by_contra hne
  have hnear := (h.prefers k hk (Ne.symm hne)).le
  rw [sub_self, abs_zero, abs_nonpos_iff, sub_eq_zero] at hnear
  rcases Nat.lt_or_gt_of_ne hne with hlt | hgt
  · exact absurd hnear (value_lt_value hlt).ne
  · exact absurd hnear (value_lt_value hgt).ne'

/-- Of two patterns that are as near one is odd, or there is a third between them, and that is nearer. -/
theorem Nearest.not_lt {x : ℚ} {k k' : Nat} (h : f.Nearest x k) (h' : f.Nearest x k') : ¬ k < k' := by
  intro hlt
  have hk := h.prefers k' h'.le_infinity hlt.ne'
  have hk' := h'.prefers k h.le_infinity hlt.ne
  have htie : |f.value k - x| = |f.value k' - x| := le_antisymm hk.le hk'.le
  have heven : k % 2 = 0 := hk.elim (fun hnear => absurd htie hnear.ne) And.right
  have heven' : k' % 2 = 0 := hk'.elim (fun hnear => absurd htie.symm hnear.ne) And.right
  have hbetween : k + 1 < k' := by omega
  have hnear : |f.value k - x| ≤ |f.value (k + 1) - x| :=
    (h.prefers (k + 1) (hbetween.le.trans h'.le_infinity) k.succ_ne_self).le
  have hlow := value_lt_value (f := f) k.lt_succ_self
  have hhigh := value_lt_value (f := f) hbetween
  rcases abs_cases (f.value k - x) with ⟨e1, _⟩ | ⟨e1, _⟩ <;>
    rcases abs_cases (f.value k' - x) with ⟨e2, _⟩ | ⟨e2, _⟩ <;>
    rcases abs_cases (f.value (k + 1) - x) with ⟨e3, _⟩ | ⟨e3, _⟩ <;>
    linarith

theorem Nearest.unique {x : ℚ} {k k' : Nat} (h : f.Nearest x k) (h' : f.Nearest x k') : k = k' :=
  Nat.le_antisymm (Nat.not_lt.mp (h'.not_lt h)) (Nat.not_lt.mp (h.not_lt h'))

/-! ### Rounding -/

section encode
variable {num den step : Nat}

/-- The step is the one of the exponents whose range the quotient lies in. -/
theorem range_of_step (hprecision : 1 ≤ f.precision) (hstep : step = Nat.log2 (num / den) + 1 - f.precision) :
    (step = 0 ∨ f.exponentPlace * 2 ^ step ≤ num / den) ∧ num / den < 2 * f.exponentPlace * 2 ^ step := by
  have hdouble : 2 * f.exponentPlace = 2 ^ f.precision := by
    rw [exponentPlace_eq, ← Nat.pow_succ', Nat.succ_eq_add_one, Nat.sub_add_cancel hprecision]
  constructor
  · rcases Nat.eq_zero_or_pos step with hzero | hpos
    · exact .inl hzero
    · have hne : num / den ≠ 0 := by
        rintro hzero
        rw [hzero, Nat.log2_zero] at hstep
        omega
      right
      rw [exponentPlace_eq, ← Nat.pow_add, show f.precision - 1 + step = Nat.log2 (num / den) by omega]
      exact Nat.log2_self_le hne
  · rw [hdouble, ← Nat.pow_add]
    exact Nat.lt_log2_self.trans_le (Nat.pow_le_pow_right two_pos (by omega))

theorem mul_roundDivEven_prefers (hden : 0 < den) {j : Nat} (hj : j ≠ roundDivEven num (den * 2 ^ step)) :
    Prefers (fun i => ((i * 2 ^ step : ℕ) : ℚ)) (num / den) (roundDivEven num (den * 2 ^ step)) j := by
  have hspacing : (0 : ℚ) < 2 ^ step := by positivity
  have hscale (i : Nat) : |((i * 2 ^ step : ℕ) : ℚ) - num / den| =
      |(i : ℚ) - num / (den * 2 ^ step : ℕ)| * 2 ^ step := by
    have hdenq : (den : ℚ) ≠ 0 := by exact_mod_cast hden.ne'
    rw [← abs_of_pos hspacing, ← abs_mul]
    congr 1
    push_cast
    field_simp
  exact (roundDivEven_prefers (Nat.mul_pos hden (Nat.two_pow_pos step)) hj).scale hspacing (hscale _) (hscale _) id

/-- The quotient lies in the range of the step also as a rational number. -/
theorem cast_range_of_step (hprecision : 1 ≤ f.precision) (hden : 0 < den)
    (hstep : step = Nat.log2 (num / den) + 1 - f.precision) :
    (step = 0 ∨ ((f.exponentPlace * 2 ^ step : ℕ) : ℚ) ≤ num / den) ∧
      (num / den : ℚ) ≤ (2 * f.exponentPlace * 2 ^ step : ℕ) := by
  obtain ⟨hlow, hhigh⟩ := range_of_step hprecision hstep
  refine ⟨hlow.imp_right fun h => (Nat.cast_le.mpr h).trans Nat.cast_div_le, ?_⟩
  rw [div_le_iff₀ (by exact_mod_cast hden)]
  exact_mod_cast ((Nat.div_lt_iff_lt_mul hden).mp hhigh).le

/-- The rounded significand has the places of the format, or one is carried into the next exponent. -/
theorem rounded_range (hprecision : 1 ≤ f.precision) (hden : 0 < den)
    (hstep : step = Nat.log2 (num / den) + 1 - f.precision) :
    (step = 0 ∨ f.exponentPlace ≤ roundDivEven num (den * 2 ^ step)) ∧
      roundDivEven num (den * 2 ^ step) ≤ 2 * f.exponentPlace := by
  obtain ⟨hlow, hhigh⟩ := cast_range_of_step hprecision hden hstep
  have hspacing : 0 < 2 ^ step := Nat.two_pow_pos step
  constructor
  · refine or_iff_not_imp_left.mpr fun hne => ?_
    by_contra hlt
    have hfar : ((roundDivEven num (den * 2 ^ step) * 2 ^ step : ℕ) : ℚ) < (f.exponentPlace * 2 ^ step : ℕ) :=
      Nat.cast_lt.mpr (Nat.mul_lt_mul_of_pos_right (Nat.not_le.mp hlt) hspacing)
    have hnear := (mul_roundDivEven_prefers hden (Nat.not_le.mp hlt).ne').le
    exact absurd (abs_sub_lt_of_below (hlow.resolve_left hne) hfar) (not_lt.mpr hnear)
  · by_contra hgt
    have hfar : ((2 * f.exponentPlace * 2 ^ step : ℕ) : ℚ) <
        (roundDivEven num (den * 2 ^ step) * 2 ^ step : ℕ) :=
      Nat.cast_lt.mpr (Nat.mul_lt_mul_of_pos_right (Nat.not_le.mp hgt) hspacing)
    have hnear := (mul_roundDivEven_prefers hden (Nat.not_le.mp hgt).ne).le
    exact absurd (abs_sub_lt_of_above hhigh hfar) (not_lt.mpr hnear)

/-- The pattern with the rounded significand is preferred to every other pattern there is. -/
theorem units_prefers (hprecision : 2 ≤ f.precision) (hden : 0 < den)
    (hstep : step = Nat.log2 (num / den) + 1 - f.precision) {k : Nat}
    (hk : k ≠ step * f.exponentPlace + roundDivEven num (den * 2 ^ step)) :
    Prefers (fun i => (f.units i : ℚ)) (num / den)
      (step * f.exponentPlace + roundDivEven num (den * 2 ^ step)) k := by
  have hone : 1 ≤ f.precision := by omega
  obtain ⟨hlow, hhigh⟩ := cast_range_of_step hone hden hstep
  obtain ⟨hrlow, hrhigh⟩ := rounded_range hone hden hstep
  have hunits := units_add hrlow hrhigh
  have hnear (j : Nat) : |(f.units (step * f.exponentPlace + roundDivEven num (den * 2 ^ step)) : ℚ) -
      num / den| ≤ |((j * 2 ^ step : ℕ) : ℚ) - num / den| := by
    rw [hunits]
    by_cases hj : j = roundDivEven num (den * 2 ^ step)
    · rw [hj]
    · exact (mul_roundDivEven_prefers hden hj).le
  rcases Nat.lt_or_ge (step * f.exponentPlace + 2 * f.exponentPlace) k with habove | hhigh'
  · -- past the range of the step: its last pattern is nearer than this one
    have hlast := units_strictMono (f := f) habove
    rw [units_add (.inr (by omega)) le_rfl] at hlast
    exact .inl ((hnear _).trans_lt (abs_sub_lt_of_above hhigh (Nat.cast_lt.mpr hlast)))
  by_cases hbelow : step ≠ 0 ∧ k < step * f.exponentPlace + f.exponentPlace
  · -- before the range of the step: its first pattern is nearer than this one
    have hfirst := units_strictMono (f := f) hbelow.2
    rw [units_add (.inr le_rfl) (by omega)] at hfirst
    exact .inl ((hnear _).trans_lt (abs_sub_lt_of_below (hlow.resolve_left hbelow.1) (Nat.cast_lt.mpr hfirst)))
  -- within the range of the step the patterns are the multiples of its spacing
  obtain ⟨j, rfl⟩ : ∃ j, k = step * f.exponentPlace + j := by
    refine Nat.exists_eq_add_of_le ?_
    rcases Nat.eq_zero_or_pos step with rfl | hpos <;> omega
  have hj : j ≠ roundDivEven num (den * 2 ^ step) := by omega
  refine (mul_roundDivEven_prefers hden hj).scale one_pos ?_ ?_ fun heven => ?_
  · rw [hunits, mul_one]
  · rw [units_add (by omega) (by omega), mul_one]
  · have hplace : step * f.exponentPlace = 2 * (step * 2 ^ (f.precision - 2)) := by
      rw [exponentPlace_eq, show f.precision - 1 = f.precision - 2 + 1 by omega]
      ring
    omega

/-- A quotient of units is rounded to the pattern of the format that is nearest to it. -/
theorem encodeRatio_nearest (hprecision : 2 ≤ f.precision) (negative : Bool) (num : Nat) (hden : 0 < den) :
    ∃ k, f.encodeRatio negative num den = f.withSign negative k ∧
      f.Nearest (num / den / 2 ^ f.unitPlaces) k := by
  obtain ⟨step, hstep⟩ : ∃ step, step = Nat.log2 (num / den) + 1 - f.precision := ⟨_, rfl⟩
  have hprefers {k : Nat} (hk : k ≠ step * f.exponentPlace + roundDivEven num (den * 2 ^ step)) :=
    units_prefers hprecision hden hstep hk
  have hencode : f.encodeRatio negative num den = f.withSign negative
      (min (step * f.exponentPlace + roundDivEven num (den * 2 ^ step)) f.infinityBits) := by
    rw [hstep]
    rfl
  generalize step * f.exponentPlace + roundDivEven num (den * 2 ^ step) = best at hprefers hencode
  have hplaces : (0 : ℚ) < 1 / 2 ^ f.unitPlaces := by positivity
  have hvalue (k : Nat) : |f.value k - num / den / 2 ^ f.unitPlaces| =
      |(f.units k : ℚ) - num / den| * (1 / 2 ^ f.unitPlaces) := by
    rw [← abs_of_pos hplaces, ← abs_mul, value]
    congr 1
    ring
  refine ⟨_, hencode, Nat.min_le_right _ _, fun k hk hne => ?_⟩
  rcases Nat.lt_or_ge f.infinityBits best with hover | hfits
  · -- past all finite values: the quotient lies beyond infinity, which is then the nearest that is left
    rw [Nat.min_eq_right hover.le] at hne ⊢
    have hbeyond : (f.units f.infinityBits : ℚ) ≤ num / den := by
      by_contra hlt
      have hfar : (f.units f.infinityBits : ℚ) < f.units best := Nat.cast_lt.mpr (units_strictMono hover)
      exact absurd (abs_sub_lt_of_above (not_le.mp hlt).le hfar) (not_lt.mpr (hprefers hover.ne).le)
    have hless : (f.units k : ℚ) < f.units f.infinityBits :=
      Nat.cast_lt.mpr (units_strictMono (Nat.lt_of_le_of_ne hk hne))
    left
    rw [hvalue, hvalue]
    exact mul_lt_mul_of_pos_right (abs_sub_lt_of_below hbeyond hless) hplaces
  · rw [Nat.min_eq_left hfits] at hne ⊢
    exact (hprefers hne).scale hplaces (hvalue _) (hvalue _) id

end encode

/-! ### Conversions -/

variable {source target : BinaryFormat}

/-- The places of a payload, from the first on, are those of another, but the first is set. Places that the other
has not are clear. -/
structure Carries (source target : BinaryFormat) (payload carried : Nat) : Prop where
  lt : carried < target.exponentPlace
  places : ∀ i < target.precision - 1, carried.testBit (target.precision - 2 - i) =
    (i == 0 || i < source.precision - 1 && payload.testBit (source.precision - 2 - i))

theorem Carries.unique {payload carried carried' : Nat} (h : source.Carries target payload carried)
    (h' : source.Carries target payload carried') : carried = carried' := by
  refine Nat.eq_of_testBit_eq fun b => ?_
  rcases Nat.lt_or_ge b (target.precision - 1) with hb | hb
  · have hplace : target.precision - 2 - (target.precision - 2 - b) = b := by omega
    have hbit := (h.places _ (by omega)).trans (h'.places (target.precision - 2 - b) (by omega)).symm
    rwa [hplace] at hbit
  · have hpow : target.exponentPlace ≤ 2 ^ b := Nat.pow_le_pow_right two_pos hb
    rw [Nat.testBit_lt_two_pow (h.lt.trans_le hpow), Nat.testBit_lt_two_pow (h'.lt.trans_le hpow)]

theorem carries_quietPayload (hprecision : 2 ≤ target.precision) (payload : Nat) :
    source.Carries target payload (source.quietPayload target payload) := by
  obtain ⟨n, hn⟩ : ∃ n, target.precision = n + 2 := ⟨target.precision - 2, by omega⟩
  have hplace : target.exponentPlace = 2 ^ n * 2 := by
    rw [exponentPlace_eq, hn]
    exact Nat.pow_succ 2 n
  have hfirst : target.exponentPlace / 2 = 2 ^ n := by rw [hplace, Nat.mul_div_cancel _ two_pos]
  unfold quietPayload
  dsimp only
  rw [hfirst]
  have hrest := Nat.mod_lt (payload * target.exponentPlace / source.exponentPlace) (Nat.two_pow_pos n)
  refine ⟨by omega, fun i hi => ?_⟩
  rcases Nat.eq_zero_or_pos i with rfl | hpos
  · rw [show target.precision - 2 - 0 = n by omega, Nat.testBit_two_pow_add_eq, Nat.testBit_lt_two_pow hrest]
    rfl
  · rw [Nat.testBit_two_pow_add_gt (by omega), Nat.testBit_mod_two_pow, exponentPlace_eq target,
      exponentPlace_eq source, Nat.testBit_div_two_pow, Nat.testBit_mul_two_pow]
    have hin : target.precision - 2 - i < n := by omega
    by_cases hplaces : i < source.precision - 1
    · have hkept : target.precision - 1 ≤ target.precision - 2 - i + (source.precision - 1) := by omega
      have hbit : target.precision - 2 - i + (source.precision - 1) - (target.precision - 1) =
          source.precision - 2 - i := by omega
      simp [hin, hplaces, hkept, hbit, hpos.ne']
    · have hclear : ¬ target.precision - 1 ≤ target.precision - 2 - i + (source.precision - 1) := by omega
      simp [hplaces, hclear, hpos.ne']

/-- What a pattern without its sign becomes in another format. -/
def Becomes (source target : BinaryFormat) (magnitude result : Nat) : Prop :=
  if magnitude < source.infinityBits then target.Nearest (source.value magnitude) result
  else if magnitude = source.infinityBits then result = target.infinityBits
  else ∃ carried, result = target.infinityBits + carried ∧
    source.Carries target (magnitude - source.infinityBits) carried

/-- What a pattern of one format becomes in another: its sign is kept. -/
def Converts (source target : BinaryFormat) (x y : Nat) : Prop :=
  ∃ negative magnitude result, x = source.withSign negative magnitude ∧ magnitude < source.signPlace ∧
    y = target.withSign negative result ∧ source.Becomes target magnitude result

theorem Becomes.unique {magnitude k k' : Nat} (h : source.Becomes target magnitude k)
    (h' : source.Becomes target magnitude k') : k = k' := by
  unfold Becomes at h h'
  split at h
  · rename_i hfinite
    rw [if_pos hfinite] at h'
    exact h.unique h'
  · rename_i hfinite
    rw [if_neg hfinite] at h'
    split at h
    · rename_i hinfinite
      rw [if_pos hinfinite] at h'
      exact h.trans h'.symm
    · rename_i hinfinite
      rw [if_neg hinfinite] at h'
      obtain ⟨carried, rfl, hcarries⟩ := h
      obtain ⟨carried', rfl, hcarries'⟩ := h'
      rw [hcarries.unique hcarries']

/-- A value that the other format has as well is kept. -/
theorem Becomes.eq_of_value {magnitude k result : Nat} (h : source.Becomes target magnitude result)
    (hfinite : magnitude < source.infinityBits) (hk : k ≤ target.infinityBits)
    (hvalue : source.value magnitude = target.value k) : result = k := by
  rw [Becomes, if_pos hfinite, hvalue] at h
  exact h.eq_of_value hk

theorem infinityBits_add (f : BinaryFormat) : f.infinityBits + f.exponentPlace = f.signPlace := by
  have hpos : 1 ≤ twoTo f.exponentBits := Nat.two_pow_pos _
  rw [infinityBits, signPlace, ← Nat.succ_mul, Nat.succ_eq_add_one, Nat.sub_add_cancel hpos]

theorem signPlace_pos : 0 < f.signPlace := by
  have hplaces := f.infinityBits_add
  have hpos : 0 < f.exponentPlace := exponentPlace_pos
  omega

theorem Becomes.lt {magnitude result : Nat} (h : source.Becomes target magnitude result) :
    result < target.signPlace := by
  have hinfinity := target.infinityBits_add
  have hpos : 0 < target.exponentPlace := exponentPlace_pos
  unfold Becomes at h
  split at h
  · have hle := h.le_infinity
    omega
  · split at h
    · omega
    · obtain ⟨carried, rfl, hcarries⟩ := h
      have hlt := hcarries.lt
      omega

theorem withSign_lt {negative : Bool} {magnitude : Nat} (h : magnitude < f.signPlace) :
    f.withSign negative magnitude < 2 * f.signPlace := by
  unfold withSign
  split <;> omega

theorem exists_withSign {x : Nat} (h : x < 2 * f.signPlace) :
    ∃ negative magnitude, x = f.withSign negative magnitude ∧ magnitude < f.signPlace := by
  rcases Nat.lt_or_ge x f.signPlace with hlt | hge
  · exact ⟨false, x, rfl, hlt⟩
  · refine ⟨true, x - f.signPlace, ?_, by omega⟩
    rw [withSign, if_pos rfl, Nat.add_sub_cancel' hge]

theorem decode_withSign {negative : Bool} {magnitude : Nat} (h : magnitude < f.signPlace) :
    f.decode (f.withSign negative magnitude) =
      if magnitude < f.infinityBits then .finite negative (f.units magnitude)
      else if magnitude = f.infinityBits then .infinite negative
      else .nan negative (magnitude - f.infinityBits) := by
  have hnegative : (f.withSign negative magnitude / f.signPlace % 2 == 1) = negative := by
    cases negative with
    | false => simp [withSign, Nat.div_eq_of_lt h]
    | true => simp [withSign, Nat.add_div_left _ signPlace_pos, Nat.div_eq_of_lt h]
  have hmagnitude : f.withSign negative magnitude % f.signPlace = magnitude := by
    cases negative with
    | false => exact Nat.mod_eq_of_lt h
    | true => exact (Nat.add_mod_left _ _).trans (Nat.mod_eq_of_lt h)
  unfold decode
  rw [hnegative, hmagnitude]
  dsimp only
  rcases Nat.lt_trichotomy magnitude f.infinityBits with hlt | heq | hgt
  · rw [if_neg hlt.asymm, if_neg hlt.ne, if_pos hlt, units]
    split <;> rfl
  · simp [heq]
  · rw [if_pos hgt, if_neg hgt.asymm, if_neg hgt.ne']

theorem convert_withSign (hprecision : 2 ≤ target.precision) (negative : Bool) {magnitude : Nat}
    (h : magnitude < source.signPlace) :
    ∃ result, source.convert target (source.withSign negative magnitude) = target.withSign negative result ∧
      source.Becomes target magnitude result := by
  unfold convert Becomes
  rw [decode_withSign h]
  by_cases hfinite : magnitude < source.infinityBits
  · simp only [if_pos hfinite]
    obtain ⟨k, hk, hnearest⟩ := encodeRatio_nearest hprecision negative
      (source.units magnitude * twoTo target.unitPlaces) (Nat.two_pow_pos source.unitPlaces)
    have hvalue : ((source.units magnitude * twoTo target.unitPlaces : ℕ) : ℚ) / (2 ^ source.unitPlaces : ℕ) /
        2 ^ target.unitPlaces = source.value magnitude := by
      simp only [twoTo, Nat.pow_eq, value]
      push_cast
      field_simp
    rw [hvalue] at hnearest
    exact ⟨k, hk, hnearest⟩
  · simp only [if_neg hfinite]
    by_cases hinfinite : magnitude = source.infinityBits
    · simp only [if_pos hinfinite]
      exact ⟨_, rfl, rfl⟩
    · simp only [if_neg hinfinite]
      exact ⟨_, rfl, _, rfl, carries_quietPayload hprecision _⟩

/-- A pattern becomes what `convert` gives, and nothing else. -/
theorem converts_iff (hprecision : 2 ≤ target.precision) {x y : Nat} (hx : x < 2 * source.signPlace) :
    source.Converts target x y ↔ y = source.convert target x := by
  constructor
  · rintro ⟨negative, magnitude, result, rfl, hlt, rfl, hresult⟩
    obtain ⟨converted, hconvert, hconverted⟩ := convert_withSign hprecision negative hlt
    rw [hconvert, hresult.unique hconverted]
  · rintro rfl
    obtain ⟨negative, magnitude, rfl, hlt⟩ := exists_withSign hx
    obtain ⟨converted, hconvert, hconverted⟩ := convert_withSign hprecision negative hlt
    exact ⟨negative, magnitude, converted, rfl, hlt, hconvert, hconverted⟩

theorem Converts.lt {x y : Nat} (h : source.Converts target x y) : y < 2 * target.signPlace := by
  obtain ⟨negative, magnitude, result, _, _, rfl, hresult⟩ := h
  exact withSign_lt hresult.lt

end BinaryFormat

/-! ### Numbers of the three widths -/

theorem Half.toNat_lt (x : Half) : x.bits.toNat < 2 * BinaryFormat.half.signPlace := x.bits.toNat_lt

theorem Single.toNat_lt (x : Single) : x.bits.toNat < 2 * BinaryFormat.single.signPlace := x.bits.toNat_lt

theorem Double.toNat_lt (x : Double) : x.bits.toNat < 2 * BinaryFormat.double.signPlace := x.bits.toNat_lt

theorem Single.converts_ofNat {source : BinaryFormat} {x : Nat} (hx : x < 2 * source.signPlace) :
    source.Converts .single x (UInt32.ofNat (source.convert .single x)).toNat := by
  have hconverts := (BinaryFormat.converts_iff (show 2 ≤ BinaryFormat.single.precision by decide) hx).mpr rfl
  rwa [UInt32.toNat_ofNat_of_lt' hconverts.lt]

theorem Half.converts_ofNat {source : BinaryFormat} {x : Nat} (hx : x < 2 * source.signPlace) :
    source.Converts .half x (UInt16.ofNat (source.convert .half x)).toNat := by
  have hconverts := (BinaryFormat.converts_iff (show 2 ≤ BinaryFormat.half.precision by decide) hx).mpr rfl
  rwa [UInt16.toNat_ofNat_of_lt' hconverts.lt]

/-- A 64-bit number becomes its `toSingle` in 32 bits, and nothing else. -/
theorem Double.converts_iff {x : Double} {y : Single} :
    BinaryFormat.double.Converts .single x.bits.toNat y.bits.toNat ↔ y = x.toSingle := by
  have hconverts := Single.converts_ofNat x.toNat_lt
  rw [BinaryFormat.converts_iff (by decide) x.toNat_lt] at hconverts ⊢
  rw [← hconverts, UInt32.toNat_inj]
  constructor
  · intro h
    exact congrArg Single.mk h
  · rintro rfl
    rfl

/-- What is promised of the conversions between 16 and 32 bits: each gives the nearest number. -/
structure HalfConversion.Documented (c : HalfConversion) : Prop where
  narrow : ∀ x : Single, BinaryFormat.single.Converts .half x.bits.toNat (c.narrow x).bits.toNat
  widen : ∀ x : Half, BinaryFormat.half.Converts .single x.bits.toNat (c.widen x).bits.toNat

theorem HalfConversion.documented_interchange : interchange.Documented where
  narrow x := Half.converts_ofNat x.toNat_lt
  widen x := Single.converts_ofNat x.toNat_lt

end NetLowering
