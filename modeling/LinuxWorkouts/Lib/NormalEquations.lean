import Mathlib.LinearAlgebra.Matrix.ToLinearEquiv
import Mathlib.LinearAlgebra.Matrix.DotProduct
import Mathlib.LinearAlgebra.Matrix.ToLin

/-!
The normal equations of a least squares problem, over any ordered field: they are regular if the
columns are independent, and what solves them is a minimum.
-/

namespace LinuxWorkouts.NormalEquations

open Matrix

variable {m n K : Type*} [Fintype m] [Fintype n] [Field K] {A : Matrix m n K}

theorem residual_orthogonal {b : m → K} {x : n → K} (h : (Aᵀ * A) *ᵥ x = Aᵀ *ᵥ b) (z : n → K) :
    (A *ᵥ x - b) ⬝ᵥ (A *ᵥ z) = 0 := by
  have hresidual : Aᵀ *ᵥ (A *ᵥ x - b) = 0 := by
    rw [mulVec_sub, mulVec_mulVec, h, sub_self]
  rw [dotProduct_mulVec, ← mulVec_transpose, hresidual, zero_dotProduct]

variable [LinearOrder K] [IsStrictOrderedRing K]

theorem det_ne_zero [DecidableEq n] (h : LinearIndependent K A.col) : (Aᵀ * A).det ≠ 0 := by
  intro hdet
  obtain ⟨v, hv, hzero⟩ := exists_mulVec_eq_zero_iff.mpr hdet
  -- A vector in the kernel of the product has an image of length zero.
  have hself : (A *ᵥ v) ⬝ᵥ (A *ᵥ v) = 0 := by
    rw [dotProduct_mulVec, ← mulVec_transpose, mulVec_mulVec, hzero, zero_dotProduct]
  have himage : A *ᵥ v = A *ᵥ 0 := by
    rw [dotProduct_self_eq_zero.mp hself, mulVec_zero]
  exact hv (mulVec_injective_iff.mpr h himage)

theorem sum_sq_le {b : m → K} {x : n → K} (h : (Aᵀ * A) *ᵥ x = Aᵀ *ᵥ b) (y : n → K) :
    ∑ i, ((A *ᵥ x) i - b i) ^ 2 ≤ ∑ i, ((A *ᵥ y) i - b i) ^ 2 := by
  have hsum (z : n → K) : ∑ i, ((A *ᵥ z) i - b i) ^ 2 = (A *ᵥ z - b) ⬝ᵥ (A *ᵥ z - b) :=
    Finset.sum_congr rfl fun i _ => sq _
  have hsplit : A *ᵥ y - b = (A *ᵥ x - b) + A *ᵥ (y - x) := by
    rw [mulVec_sub]
    abel
  have hcross := residual_orthogonal h (y - x)
  have hpos : 0 ≤ (A *ᵥ (y - x)) ⬝ᵥ (A *ᵥ (y - x)) := Finset.sum_nonneg fun i _ => mul_self_nonneg _
  rw [hsum, hsum, hsplit, add_dotProduct, dotProduct_add, dotProduct_add, hcross,
    dotProduct_comm (A *ᵥ (y - x)) (A *ᵥ x - b), hcross, add_zero, zero_add]
  exact le_add_of_nonneg_right hpos

end LinuxWorkouts.NormalEquations
