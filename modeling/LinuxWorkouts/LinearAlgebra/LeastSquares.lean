import LinuxWorkouts.Lib.NormalEquations
import LinuxWorkouts.LinearAlgebra.Verdict

/-!
`utils/math/linear_algebra/least_squares_solver.cpp`.

`least_squares` transposes the matrix with the right sides in its last column and multiplies the
rows of the result with each other, so that the products with the last one are the right sides of
the normal equations. `solve` gives them to `gaussian_method`.
-/

namespace LinuxWorkouts.LinearAlgebra

open Matrix (of)

variable {r c : Nat}

def leastSquares (matrix : Rows (r + 1) (c + 1)) : Rows c (c + 1) :=
  let transposeMatrix := makeTransposeMatrix matrix
  fun i j => dotProduct (transposeMatrix i.castSucc) (transposeMatrix j)

/-- The call in `solve`. -/
def solve (matrix : Rows (r + 1) (c + 1)) : Outcome c :=
  gaussianMethod (Nat.le_succ c) (leastSquares matrix)

theorem leastSquares_augment (A : Matrix (Fin (r + 1)) (Fin c) ℚ) (b : Fin (r + 1) → ℚ) :
    leastSquares (augment A b) = augment (A.transpose * A) (A.transpose.mulVec b) := by
  funext i j
  simp only [leastSquares, dotProduct_eq_sum]
  cases j using Fin.lastCases with
  | last =>
    simp only [makeTransposeMatrix, augment, Fin.snoc_castSucc, Fin.snoc_last]
    rfl
  | cast j =>
    simp only [makeTransposeMatrix, augment, Fin.snoc_castSucc]
    rfl

/-- **Least squares.** With independent columns the result is a minimum. -/
theorem solve_minimises (A : Matrix (Fin (r + 1)) (Fin (c + 1)) ℚ) (b : Fin (r + 1) → ℚ)
    (h : LinearIndependent ℚ A.col) :
    ∃ x, solve (augment A b) = .consistAndOneSolution (fun i => some (x i)) ∧
      ∀ y, ∑ i, (A.mulVec x i - b i) ^ 2 ≤ ∑ i, (A.mulVec y i - b i) ^ 2 := by
  have hdet := NormalEquations.det_ne_zero h
  obtain ⟨x, hx, -⟩ := existsUnique_mulVec hdet (A.transpose.mulVec b)
  refine ⟨x, ?_, NormalEquations.sum_sq_le hx⟩
  rw [solve, leastSquares_augment, ← hx]
  exact gaussianMethod_of_det_ne_zero hdet

/-- The mean of two measurements. -/
theorem solve_minimises_mean : ∃ x,
    solve (augment (of ![![1], ![1]]) ![1, 4]) = .consistAndOneSolution (fun i => some (x i)) ∧
      ∀ y, ∑ i, ((of ![![1], ![1]]).mulVec x i - ![1, 4] i) ^ 2 ≤
        ∑ i, ((of ![![1], ![(1 : ℚ)]]).mulVec y i - ![1, 4] i) ^ 2 := by
  refine solve_minimises _ _ (Matrix.mulVec_injective_iff.mp fun x y hxy => funext fun j => ?_)
  have hrow : ∑ j : Fin 1, (1 : ℚ) * x j = ∑ j : Fin 1, 1 * y j := congrFun hxy 0
  rw [Fin.fin_one_eq_zero j]
  simpa using hrow

end LinuxWorkouts.LinearAlgebra
