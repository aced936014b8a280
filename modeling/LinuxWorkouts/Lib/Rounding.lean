import Mathlib

/-!
Numbers with `p` binary digits, as a floating-point format has them.

`roundTo p x` is the one nearest to `x`, the even one of two. The exponent has no bounds here, so
this is the format where neither overflow nor a subnormal result occurs. `abs_roundTo_sub_le` is the
relative error that an estimate of a computation starts from.
-/

namespace LinuxWorkouts.Rounding

def nearestEven (x : ℚ) : ℤ :=
  if x - ⌊x⌋ < 1 / 2 then ⌊x⌋
  else if 1 / 2 < x - ⌊x⌋ then ⌊x⌋ + 1
  else if ⌊x⌋ % 2 = 0 then ⌊x⌋ else ⌊x⌋ + 1

/-- The distance of neighbours among the numbers with `p` digits in the range of `x`. -/
def spacing (p : ℕ) (x : ℚ) : ℚ := 2 ^ (Int.log 2 |x| + 1 - p)

def roundTo (p : ℕ) (x : ℚ) : ℚ := nearestEven (x / spacing p x) * spacing p x

theorem abs_nearestEven_sub_le (x : ℚ) : |nearestEven x - x| ≤ 1 / 2 := by
  have hlow : (⌊x⌋ : ℚ) ≤ x := Int.floor_le x
  have hup : x < ⌊x⌋ + 1 := Int.lt_floor_add_one x
  unfold nearestEven
  rw [abs_le]
  split_ifs with hbelow habove
  all_goals
    push_cast
    constructor <;> linarith

theorem spacing_pos (p : ℕ) (x : ℚ) : 0 < spacing p x := zpow_pos two_pos _

theorem spacing_le (p : ℕ) {x : ℚ} (hx : x ≠ 0) : spacing p x ≤ 2 * (|x| / 2 ^ p) := by
  have hlog : (2 : ℚ) ^ Int.log 2 |x| ≤ |x| := by
    exact_mod_cast Int.zpow_log_le_self (R := ℚ) one_lt_two (abs_pos.mpr hx)
  rw [spacing, zpow_sub₀ two_ne_zero, zpow_add_one₀ two_ne_zero, zpow_natCast]
  calc 2 ^ Int.log 2 |x| * 2 / 2 ^ p ≤ |x| * 2 / 2 ^ p := by gcongr
    _ = 2 * (|x| / 2 ^ p) := by ring

@[simp] theorem roundTo_zero (p : ℕ) : roundTo p 0 = 0 := by
  simp [roundTo, nearestEven]

theorem abs_roundTo_sub_le (p : ℕ) (x : ℚ) : |roundTo p x - x| ≤ |x| / 2 ^ p := by
  rcases eq_or_ne x 0 with rfl | hx
  · simp
  have hpos := spacing_pos p x
  have hscaled : roundTo p x - x =
      (nearestEven (x / spacing p x) - x / spacing p x) * spacing p x := by
    rw [roundTo, sub_mul, div_mul_cancel₀ _ hpos.ne']
  calc |roundTo p x - x|
      = |nearestEven (x / spacing p x) - x / spacing p x| * spacing p x := by
        rw [hscaled, abs_mul, abs_of_pos hpos]
    _ ≤ 1 / 2 * (2 * (|x| / 2 ^ p)) := by
        gcongr
        · exact abs_nearestEven_sub_le _
        · exact spacing_le p hx
    _ = |x| / 2 ^ p := by ring

end LinuxWorkouts.Rounding
