import Mathlib.Tactic.Linarith
import Mathlib.Tactic.FieldSimp
import LinuxWorkouts.Lib.Elimination
import LinuxWorkouts.Lib.Loops
import LinuxWorkouts.LinearAlgebra.MatrixUtils

/-!
`get_determinant` of `matrix_utils.cpp`.

The function clears a column below the pivot and goes on with the next position. While it clears, it
multiplies the pivot row by every quotient, so that the row it ends with is not the one whose pivot
it takes into the product. `trail` is the matrix with the part that is done replaced by the
identity; its determinant, divided by the pivot, is what the loop keeps (`Clearing`).
-/

namespace LinuxWorkouts.LinearAlgebra

open Matrix (of updateRow updateCol)

/-- The first row from the position on whose entry is not zero; `-1` is `none`. -/
def tryFindNonzeroEl {n : Nat} (matrix : Rows n n) (col : Fin n) : Option (Fin n) :=
  (List.finRange n).find? fun i => col ≤ i ∧ isZeroLimit (matrix i col) ≠ 0

def choosePivot {n : Nat} (matrix : Rows n n) (pos : Fin n) : Option (ℚ × Rows n n) :=
  if isZeroLimit (matrix pos pos) = 0 then
    (tryFindNonzeroEl matrix pos).map fun i => (1 * -1, swapRows matrix pos i)
  else some (1, matrix)

/-- The body of the loop of `get_determinant`. -/
def clearBelow {n : Nat} (pos : Fin n) (matrix : Rows n n) (i : Fin n) : Rows n n :=
  if isZeroLimit (matrix i pos) = 0 then matrix
  else
    let diffCoeff := matrix i pos / matrix pos pos
    addRows (fillRow matrix pos (-1 * diffCoeff)) pos i

def getDeterminant {n : Nat} (matrix : Rows (n + 1) (n + 1)) (pos : Fin (n + 1)) : ℚ :=
  if h : pos.val = n then matrix pos pos
  else
    match choosePivot matrix pos with
    | none => 0
    | some (determinantSign, matrix) =>
      determinantSign * matrix pos pos *
        getDeterminant ((after pos).foldl (clearBelow pos) matrix) ⟨pos + 1, by omega⟩
termination_by n - pos

/-! ### The part that is left -/

def trail {n : Nat} (matrix : Rows n n) (pos : Nat) : Matrix (Fin n) (Fin n) ℚ :=
  of fun i j => if i.val < pos ∨ j.val < pos then if i = j then 1 else 0 else matrix i j

section Trail

variable {n : Nat} {matrix : Rows n n} {pos : Fin n}

theorem trail_apply (p : Nat) (i j : Fin n) : trail matrix p i j =
    if i.val < p ∨ j.val < p then if i = j then 1 else 0 else matrix i j := rfl

theorem trail_zero : trail matrix 0 = of matrix := by
  ext i j
  simp [trail_apply]

theorem trail_size : trail matrix n = 1 := by
  ext i j
  rw [trail_apply, if_pos (.inl i.isLt), Matrix.one_apply]

theorem trail_fillRow (d : ℚ) :
    trail (fillRow matrix pos d) pos =
      (trail matrix pos).updateRow pos (d • trail matrix pos pos) := by
  ext a b
  rw [trail_apply, Matrix.updateRow_apply, fillRow_apply]
  by_cases ha : a = pos
  · subst ha
    rw [if_pos rfl, if_pos rfl]
    simp only [Pi.smul_apply, trail_apply]
    split_ifs <;> simp_all
  · rw [if_neg ha, if_neg ha, trail_apply]

theorem trail_addRows {i : Fin n} (hi : pos < i) :
    trail (addRows matrix pos i) pos =
      (trail matrix pos).updateRow i (trail matrix pos i + trail matrix pos pos) := by
  ext a b
  rw [trail_apply, Matrix.updateRow_apply, addRows_apply]
  by_cases ha : a = i
  · subst ha
    rw [if_pos rfl, if_pos rfl]
    simp only [Pi.add_apply, trail_apply]
    split_ifs <;> grind
  · rw [if_neg ha, if_neg ha, trail_apply]

theorem trail_swapRows {i : Fin n} (hi : pos ≤ i) :
    trail (swapRows matrix pos i) pos = (trail matrix pos).submatrix (Equiv.swap pos i) id := by
  ext a b
  rw [trail_apply, Matrix.submatrix_apply, trail_apply, swapRows_apply, Equiv.swap_apply_def]
  split_ifs <;> grind

theorem det_trail_of_cleared (h : ∀ i, pos < i → matrix i pos = 0) :
    (trail matrix pos).det = matrix pos pos * (trail matrix (pos + 1)).det := by
  have hcol : trail matrix pos =
      (trail matrix pos).updateCol pos (matrix pos pos • Pi.single pos 1) := by
    ext a b
    rw [Matrix.updateCol_apply]
    split
    · next hb =>
        subst hb
        rw [trail_apply]
        rcases lt_trichotomy a b with hab | rfl | hab
        · simp [hab, hab.ne]
        · simp
        · simp [hab.not_gt, hab.ne', h a hab]
    · rfl
  have hrest :
      ((trail matrix pos).updateCol pos (Pi.single pos 1)).updateRow pos (Pi.single pos 1) =
        trail matrix (pos + 1) := by
    ext a b
    rw [Matrix.updateRow_apply, Matrix.updateCol_apply, trail_apply, trail_apply]
    simp only [Pi.single_apply]
    grind
  rw [hcol, Matrix.det_updateCol_smul, Elimination.det_updateCol_single, hrest]

end Trail

/-! ### The loop -/

section Loop

variable {n : Nat} {start matrix : Rows n n} {pos : Fin n}

/-- What the loop keeps: the pivot is not zero, and the determinant has changed with it alone. -/
structure Clearing (start matrix : Rows n n) (pos : Fin n) : Prop where
  pivot : matrix pos pos ≠ 0
  det : (trail matrix pos).det * start pos pos = (trail start pos).det * matrix pos pos

theorem clearBelow_pos (h : matrix pos pos ≠ 0) {i : Fin n} (hi : pos < i) :
    clearBelow pos matrix i pos pos ≠ 0 ∧ clearBelow pos matrix i i pos = 0 := by
  unfold clearBelow
  split
  · next hzero => exact ⟨h, by rwa [isZeroLimit_eq] at hzero⟩
  · next hne =>
      rw [isZeroLimit_eq] at hne
      simp only [addRows_apply, fillRow_apply, if_neg hi.ne, if_neg hi.ne', if_true, Pi.add_apply,
        Pi.smul_apply, smul_eq_mul]
      constructor
      · exact mul_ne_zero (mul_ne_zero (by norm_num) (div_ne_zero hne h)) h
      · field_simp
        ring

theorem clearBelow_other {i j : Fin n} (hpos : j ≠ pos) (hi : j ≠ i) :
    clearBelow pos matrix i j = matrix j := by
  unfold clearBelow
  split
  · rfl
  · rw [addRows_apply, if_neg hi, fillRow_apply, if_neg hpos]

theorem Clearing.step (h : Clearing start matrix pos) {i : Fin n} (hi : pos < i) :
    Clearing start (clearBelow pos matrix i) pos := by
  refine ⟨(clearBelow_pos h.pivot hi).1, ?_⟩
  unfold clearBelow
  split
  · exact h.det
  · dsimp only
    generalize -1 * (matrix i pos / matrix pos pos) = d
    have hpivot : addRows (fillRow matrix pos d) pos i pos pos = d * matrix pos pos := by
      simp only [addRows_apply, fillRow_apply, if_neg hi.ne, if_true, Pi.smul_apply, smul_eq_mul]
    have hdet : (trail (addRows (fillRow matrix pos d) pos i) pos).det =
        d * (trail matrix pos).det := by
      rw [trail_addRows hi, Matrix.det_updateRow_add_self _ hi.ne', trail_fillRow,
        Matrix.det_updateRow_smul, Matrix.updateRow_eq_self]
    rw [hpivot, hdet, mul_assoc, h.det]
    ring

theorem Clearing.loop (h : matrix pos pos ≠ 0) :
    Clearing matrix ((after pos).foldl (clearBelow pos) matrix) pos ∧
      ∀ i, pos < i → (after pos).foldl (clearBelow pos) matrix i pos = 0 := by
  have hloop := Loops.foldl_each (f := clearBelow pos) (s := matrix) (l := after pos)
    (I := fun m => Clearing matrix m pos) (Q := fun i m => m i pos = 0) ⟨h, rfl⟩ ?_
  · exact ⟨hloop.1, fun i hi => hloop.2 i (mem_after.mpr hi)⟩
  · intro i hi m hclear
    rw [mem_after] at hi
    refine ⟨hclear.step hi, (clearBelow_pos hclear.pivot hi).2, fun j hj hne hzero => ?_⟩
    rw [clearBelow_other (mem_after.mp hj).ne' hne]
    exact hzero

theorem det_trail_loop (h : matrix pos pos ≠ 0) :
    (trail matrix pos).det =
      matrix pos pos * (trail ((after pos).foldl (clearBelow pos) matrix) (pos + 1)).det := by
  obtain ⟨hclear, hzero⟩ := Clearing.loop h
  have hdet := hclear.det
  rw [det_trail_of_cleared hzero] at hdet
  have hcancel := mul_right_cancel₀ hclear.pivot
    (a := (trail ((after pos).foldl (clearBelow pos) matrix) (pos + 1)).det * matrix pos pos)
    (c := (trail matrix pos).det) (by rw [← hdet]; ring)
  rw [← hcancel, mul_comm]

theorem choosePivot_spec (matrix : Rows n n) (pos : Fin n) :
    match choosePivot matrix pos with
    | none => ∀ i, pos ≤ i → matrix i pos = 0
    | some (sign, m) => m pos pos ≠ 0 ∧ (trail matrix pos).det = sign * (trail m pos).det := by
  unfold choosePivot
  by_cases hzero : matrix pos pos = 0
  · rw [isZeroLimit_eq, if_pos hzero]
    cases hfind : tryFindNonzeroEl matrix pos with
    | none =>
      intro i hi
      have hnot := List.find?_eq_none.mp hfind i (List.mem_finRange i)
      simpa [hi] using hnot
    | some i =>
      have hi : pos ≤ i ∧ matrix i pos ≠ 0 := by simpa using List.find?_some hfind
      have hne : pos ≠ i := by
        rintro rfl
        exact hi.2 hzero
      refine ⟨?_, ?_⟩
      · rw [swapRows_apply, if_pos rfl]
        exact hi.2
      · rw [trail_swapRows hi.1, Matrix.det_permute, Equiv.Perm.sign_swap hne]
        simp
  · rw [isZeroLimit_eq, if_neg hzero]
    exact ⟨hzero, (one_mul _).symm⟩

end Loop

theorem getDeterminant_eq_trail {n : Nat} (matrix : Rows (n + 1) (n + 1)) (pos : Fin (n + 1)) :
    getDeterminant matrix pos = (trail matrix pos).det := by
  fun_induction getDeterminant matrix pos with
  | case1 matrix pos h =>
    rw [det_trail_of_cleared fun i hi => absurd i.isLt (by omega), h, trail_size, Matrix.det_one,
      mul_one]
  | case2 matrix pos h hnone =>
    have hspec := choosePivot_spec matrix pos
    rw [hnone] at hspec
    rw [det_trail_of_cleared fun i hi => hspec i hi.le, hspec pos le_rfl, zero_mul]
  | case3 matrix pos h sign m hsome ih =>
    have hspec := choosePivot_spec matrix pos
    rw [hsome] at hspec
    rw [ih, hspec.2, det_trail_loop hspec.1, mul_assoc]

/-- **`get_determinant` is the determinant.** -/
theorem getDeterminant_eq_det {n : Nat} (matrix : Rows (n + 1) (n + 1)) :
    getDeterminant matrix 0 = (of matrix).det := by
  rw [getDeterminant_eq_trail, Fin.val_zero, trail_zero]

end LinuxWorkouts.LinearAlgebra
