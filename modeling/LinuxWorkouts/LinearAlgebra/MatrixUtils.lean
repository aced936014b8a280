import Mathlib.Data.List.FinRange
import Mathlib.Algebra.BigOperators.Fin
import Mathlib.Data.Rat.Defs
import Mathlib.Algebra.Order.Ring.Unbundled.Rat

/-!
The matrix functions of `utils/math/linear_algebra/matrix_utils.cpp`.

Doubles are exact rationals, and the two functions that round small differences away are exact with
them: `is_zero_limit` tests for zero and `get_limit` does nothing. A matrix is a function of the row
and the column, so that every row has the same length. Each row operation has one lemma, which gives
every row of the result.
-/

namespace LinuxWorkouts.LinearAlgebra

open Function List

abbrev Rows (r c : Nat) := Fin r → Fin c → ℚ

def isZeroLimit (num : ℚ) : ℚ := if num = 0 then 0 else num

@[simp]
theorem isZeroLimit_eq (num : ℚ) : isZeroLimit num = num := by
  unfold isZeroLimit
  split
  · next h => exact h.symm
  · rfl

def getLimit (num : ℚ) : ℚ := num

/-- The indices of a loop that starts at `pos + 1`. -/
def after {k : Nat} (pos : Fin k) : List (Fin k) := (finRange k).filter (pos < ·)

@[simp]
theorem mem_after {k : Nat} {pos i : Fin k} : i ∈ after pos ↔ pos < i := by
  simp [after]

variable {r c : Nat}

def addRows (matrix : Rows r c) (rowA rowB : Fin r) : Rows r c :=
  update matrix rowB fun i => isZeroLimit (matrix rowB i + matrix rowA i)

def fillRow (matrix : Rows r c) (row : Fin r) (diffCoeff : ℚ) : Rows r c :=
  update matrix row fun i => matrix row i * diffCoeff

def swapRows (matrix : Rows r c) (rowA rowB : Fin r) : Rows r c :=
  update (update matrix rowB (matrix rowA)) rowA (matrix rowB)

/-- How many of the rows have an entry that is not zero in the first `m` columns. -/
def findRank (matrix : Rows r c) (m : Nat) : Nat :=
  (finRange r).countP fun i =>
    (finRange c).any fun j => j.val < m ∧ isZeroLimit (matrix i j) ≠ 0

def dotProduct (vect1 vect2 : Fin r → ℚ) : ℚ :=
  (finRange r).foldl (fun sum i => getLimit (sum + getLimit (vect1 i * vect2 i))) 0

def makeTransposeMatrix (matrix : Rows r c) : Rows c r := fun i j => matrix j i

theorem addRows_apply (matrix : Rows r c) (rowA rowB i : Fin r) :
    addRows matrix rowA rowB i = if i = rowB then matrix rowB + matrix rowA else matrix i := by
  rw [addRows, update_apply]
  split
  · funext j
    exact isZeroLimit_eq _
  · rfl

theorem fillRow_apply (matrix : Rows r c) (row i : Fin r) (diffCoeff : ℚ) :
    fillRow matrix row diffCoeff i = if i = row then diffCoeff • matrix row else matrix i := by
  rw [fillRow, update_apply]
  split
  · funext j
    exact mul_comm _ _
  · rfl

theorem swapRows_apply (matrix : Rows r c) (rowA rowB i : Fin r) :
    swapRows matrix rowA rowB i =
      if i = rowA then matrix rowB else if i = rowB then matrix rowA else matrix i := by
  rw [swapRows, update_apply, update_apply]

theorem swapRows_eq_swap (matrix : Rows r c) (rowA rowB i : Fin r) :
    swapRows matrix rowA rowB i = matrix (Equiv.swap rowA rowB i) := by
  rw [swapRows_apply, Equiv.swap_apply_def]
  split_ifs <;> rfl

theorem findRank_eq_card (matrix : Rows r c) (m : Nat) :
    findRank matrix m = (Finset.univ.filter fun i => ∃ j, j.val < m ∧ matrix i j ≠ 0).card := by
  have hrow : ∀ i, ((finRange c).any fun j => j.val < m ∧ isZeroLimit (matrix i j) ≠ 0) =
      decide (∃ j, j.val < m ∧ matrix i j ≠ 0) := by
    intro i
    rw [Bool.eq_iff_iff]
    simp
  rw [findRank, countP_eq_length_filter, Finset.card_def, Finset.filter_val, Fin.univ_def]
  simp only [hrow]
  rfl

theorem dotProduct_eq_sum (vect1 vect2 : Fin r → ℚ) :
    dotProduct vect1 vect2 = ∑ i, vect1 i * vect2 i := by
  simp only [dotProduct, getLimit]
  rw [← foldl_map (f := fun i => vect1 i * vect2 i), ← sum_eq_foldl, Fin.sum_univ_def]

end LinuxWorkouts.LinearAlgebra
