import Mathlib.Tactic.Ring
import Mathlib.Algebra.Module.Pi
import Mathlib.Algebra.Module.LinearMap.Defs
import Mathlib.Algebra.BigOperators.Ring.Finset
import LinuxWorkouts.Lib.Loops
import LinuxWorkouts.LinearAlgebra.MatrixUtils

/-!
Elimination and back substitution in `utils/math/linear_algebra/linear_system_solver.cpp`.

A system of `r` equations in `c` unknowns has the right sides in its last column. With at most
`c + 1` rows every row has a column for its position, as the functions here need; with one row more
the last pivot would be looked for among the right sides.

* `solves_eliminate` and `eliminate_cleared` say what the elimination keeps and what it reaches.
* `findRoots_eq` is the back substitution. A division by zero has no rational result, and
  neither has what is computed with it.
-/

namespace LinuxWorkouts.LinearAlgebra

open Function List

variable {r c k : Nat}

/-! ### The functions -/

def clearRow (startRow : Fin r) (startCol : Fin k) (matrix : Rows r k) (i : Fin r) : Rows r k :=
  if isZeroLimit (matrix i startCol) = 0 then matrix
  else
    let diffCoeff := matrix startRow startCol / matrix i startCol
    if isZeroLimit diffCoeff = 0 then swapRows matrix startRow i
    else addRows (fillRow matrix i (-1 * diffCoeff)) startRow i

def tryMakeRowEchelonForm (hshape : r ≤ k) (matrix : Rows r k) (startPos : Fin r) : Rows r k :=
  (after startPos).foldl (clearRow startPos (startPos.castLE hshape)) matrix

/-- The first loop of `gaussian_method`. -/
def eliminate (hshape : r ≤ k) (matrix : Rows r k) : Rows r k :=
  ((finRange r).filter fun i => i.val < r - 1).foldl (tryMakeRowEchelonForm hshape) matrix

def divide (a b : ℚ) : Option ℚ := if b = 0 then none else some (a / b)

/-- `right_side_val` after the loop of `find_xi`. -/
def rightSideVal (cells : Fin (c + 1) → ℚ) (res : Fin c → Option ℚ) (row : Fin c) : Option ℚ :=
  (after row).foldlM (fun val i => (res i).map fun x => val - x * cells i.castSucc)
    (cells (Fin.last c))

def findXi (hrows : c ≤ r) (matrix : Rows r (c + 1)) (row : Fin c) (res : Fin c → Option ℚ) :
    Option ℚ :=
  (rightSideVal (matrix (row.castLE hrows)) res row).bind
    (divide · (matrix (row.castLE hrows) row.castSucc))

def findRoots (hrows : c ≤ r) (matrix : Rows r (c + 1)) : Fin c → Option ℚ :=
  (finRange c).reverse.foldl
    (fun res i => update res i (findXi hrows matrix i res)) fun _ => some 0

/-! ### A step of the elimination -/

section ClearRow

variable {matrix : Rows r k} {s i : Fin r} {t : Fin k}

theorem clearRow_cases (matrix : Rows r k) (t : Fin k) (hne : s ≠ i) :
    (matrix i t = 0 ∧ clearRow s t matrix i = matrix) ∨
      (matrix s t = 0 ∧ clearRow s t matrix i = swapRows matrix s i) ∨
      ∃ d : ℚ, d ≠ 0 ∧ d * matrix i t = matrix s t ∧
        clearRow s t matrix i = update matrix i (matrix s - d • matrix i) := by
  unfold clearRow
  simp only [isZeroLimit_eq]
  split_ifs with hzero hdiff
  · exact .inl ⟨hzero, rfl⟩
  · exact .inr (.inl ⟨(div_eq_zero_iff.mp hdiff).resolve_right hzero, rfl⟩)
  · refine .inr (.inr ⟨_, hdiff, div_mul_cancel₀ _ hzero, ?_⟩)
    funext a
    rw [addRows_apply, fillRow_apply, fillRow_apply, fillRow_apply, if_pos rfl, if_neg hne,
      update_apply]
    split
    · rw [neg_one_mul, neg_smul, neg_add_eq_sub]
    · rfl

theorem clearRow_self (hne : s ≠ i) : clearRow s t matrix i i t = 0 := by
  rcases clearRow_cases matrix t hne with
    ⟨hzero, heq⟩ | ⟨hzero, heq⟩ | ⟨d, -, hd, heq⟩
  · rw [heq, hzero]
  · rw [heq, swapRows_apply, if_neg hne.symm, if_pos rfl, hzero]
  · rw [heq, update_self, Pi.sub_apply, Pi.smul_apply, smul_eq_mul, hd, sub_self]

theorem clearRow_of_ne (hne : s ≠ i) {a : Fin r} (hs : a ≠ s) (hi : a ≠ i) :
    clearRow s t matrix i a = matrix a := by
  rcases clearRow_cases matrix t hne with
    ⟨-, heq⟩ | ⟨-, heq⟩ | ⟨d, -, -, heq⟩
  · rw [heq]
  · rw [heq, swapRows_apply, if_neg hs, if_neg hi]
  · rw [heq, update_of_ne hi]

theorem clearRow_column (hne : s ≠ i) {j : Fin k} (hs : matrix s j = 0) (hi : matrix i j = 0)
    (a : Fin r) : clearRow s t matrix i a j = matrix a j := by
  rcases clearRow_cases matrix t hne with
    ⟨-, heq⟩ | ⟨-, heq⟩ | ⟨d, -, -, heq⟩
  · rw [heq]
  · rw [heq, swapRows_apply]
    split_ifs with has hai
    · rw [has, hs, hi]
    · rw [hai, hs, hi]
    · rfl
  · rw [heq, update_apply]
    split_ifs with hai
    · rw [hai, Pi.sub_apply, Pi.smul_apply, smul_eq_mul, hs, hi, mul_zero, sub_zero]
    · rfl

theorem forall_clearRow (hne : s ≠ i) (φ : (Fin k → ℚ) →ₗ[ℚ] ℚ) :
    (∀ a, φ (clearRow s t matrix i a) = 0) ↔ ∀ a, φ (matrix a) = 0 := by
  rcases clearRow_cases matrix t hne with
    ⟨-, heq⟩ | ⟨-, heq⟩ | ⟨d, hd, -, heq⟩
  · rw [heq]
  · simp only [heq, swapRows_eq_swap]
    exact (Equiv.swap s i).forall_congr_right (q := fun a => φ (matrix a) = 0)
  · rw [heq]
    constructor
    · intro h a
      by_cases hai : a = i
      · have hs := h s
        have hi := h i
        rw [update_of_ne hne] at hs
        rw [update_self, map_sub, map_smul, hs, zero_sub, neg_eq_zero, smul_eq_mul] at hi
        rw [hai]
        exact (mul_eq_zero.mp hi).resolve_left hd
      · have ha := h a
        rwa [update_of_ne hai] at ha
    · intro h a
      rw [update_apply]
      split_ifs
      · rw [map_sub, map_smul, h, h, smul_zero, sub_zero]
      · exact h a

end ClearRow

/-! ### The elimination -/

section Eliminate

variable {hshape : r ≤ k} {matrix : Rows r k}

/-- Below the diagonal there is nothing left in the column of the position. -/
def Cleared (hshape : r ≤ k) (matrix : Rows r k) (pos : Fin r) : Prop :=
  ∀ i, pos < i → matrix i (pos.castLE hshape) = 0

theorem tryMakeRowEchelonForm_cleared (s : Fin r) :
    Cleared hshape (tryMakeRowEchelonForm hshape matrix s) s := by
  have hloop := Loops.foldl_each (f := clearRow s (s.castLE hshape)) (s := matrix) (l := after s)
    (I := fun _ => True) (Q := fun i m => m i (s.castLE hshape) = 0) trivial ?_
  · exact fun i hi => hloop.2 i (mem_after.mpr hi)
  · intro i hi m _
    rw [mem_after] at hi
    refine ⟨trivial, clearRow_self hi.ne, fun j hj hne hzero => ?_⟩
    rw [clearRow_of_ne hi.ne (mem_after.mp hj).ne' hne]
    exact hzero

theorem Cleared.tryMakeRowEchelonForm {s j : Fin r} (h : Cleared hshape matrix j) (hjs : j < s) :
    Cleared hshape (tryMakeRowEchelonForm hshape matrix s) j := by
  refine foldlRecOn (motive := fun m => Cleared hshape m j) _ _ h fun m hm i hi a ha => ?_
  have hsi : s < i := mem_after.mp hi
  rw [clearRow_column hsi.ne (hm s hjs) (hm i (hjs.trans hsi))]
  exact hm a ha

theorem forall_tryMakeRowEchelonForm (s : Fin r) (φ : (Fin k → ℚ) →ₗ[ℚ] ℚ) :
    (∀ a, φ (tryMakeRowEchelonForm hshape matrix s a) = 0) ↔ ∀ a, φ (matrix a) = 0 := by
  refine foldlRecOn (motive := fun m : Rows r k => (∀ a, φ (m a) = 0) ↔ ∀ a, φ (matrix a) = 0)
    _ _ Iff.rfl fun m hm i hi => ?_
  rw [forall_clearRow (mem_after.mp hi).ne, hm]

theorem eliminate_cleared (j : Fin r) : Cleared hshape (eliminate hshape matrix) j := by
  have hsorted : ((finRange r).filter fun i => i.val < r - 1).Pairwise (· < ·) :=
    (pairwise_lt_finRange r).filter _
  have hloop := Loops.foldl_invariant (f := tryMakeRowEchelonForm hshape) (s := matrix)
    (l := (finRange r).filter fun i => i.val < r - 1)
    (P := fun done m => ∀ j ∈ done, Cleared hshape m j) (by simp) ?_
  · by_cases hj : j.val < r - 1
    · exact hloop j (by simp [hj])
    · exact fun i hi => absurd i.isLt (by omega)
  · intro done i rest m hl hdone j hj
    rcases mem_append.mp hj with hj | hj
    · exact (hdone j hj).tryMakeRowEchelonForm (Loops.rel_of_mem_done hsorted hl hj)
    · rw [mem_singleton.mp hj]
      exact tryMakeRowEchelonForm_cleared i

theorem forall_eliminate (φ : (Fin k → ℚ) →ₗ[ℚ] ℚ) :
    (∀ a, φ (eliminate hshape matrix a) = 0) ↔ ∀ a, φ (matrix a) = 0 := by
  refine foldlRecOn (motive := fun m : Rows r k => (∀ a, φ (m a) = 0) ↔ ∀ a, φ (matrix a) = 0)
    _ _ Iff.rfl fun m hm i _ => ?_
  rw [forall_tryMakeRowEchelonForm, hm]

end Eliminate

/-! ### Solutions -/

section Solves

variable {matrix : Rows r (c + 1)} {x : Fin c → ℚ}

def Solves (matrix : Rows r (c + 1)) (x : Fin c → ℚ) : Prop :=
  ∀ i, ∑ j, matrix i j.castSucc * x j = matrix i (Fin.last c)

def residual (x : Fin c → ℚ) : (Fin (c + 1) → ℚ) →ₗ[ℚ] ℚ where
  toFun row := ∑ j, row j.castSucc * x j - row (Fin.last c)
  map_add' a b := by
    simp only [Pi.add_apply, add_mul, Finset.sum_add_distrib]
    ring
  map_smul' t a := by
    simp only [Pi.smul_apply, smul_eq_mul, mul_assoc, ← Finset.mul_sum, RingHom.id_apply]
    ring

theorem solves_iff_residual : Solves matrix x ↔ ∀ i, residual x (matrix i) = 0 :=
  forall_congr' fun _ => sub_eq_zero.symm

theorem solves_eliminate {hshape : r ≤ c + 1} :
    Solves (eliminate hshape matrix) x ↔ Solves matrix x := by
  rw [solves_iff_residual, solves_iff_residual, forall_eliminate]

end Solves

/-! ### Back substitution -/

section BackSubstitution

variable {x : Fin c → ℚ}

theorem sum_after (row : Fin c) (f : Fin c → ℚ) :
    ((after row).map f).sum = ∑ j with row < j, f j := by
  have hnodup : (after row).Nodup := (nodup_finRange c).filter _
  rw [← sum_toFinset f hnodup]
  congr 1
  ext j
  simp

theorem foldlM_sub (cells : Fin (c + 1) → ℚ) {res : Fin c → Option ℚ} :
    ∀ (l : List (Fin c)) (val : ℚ), (∀ i ∈ l, res i = some (x i)) →
      l.foldlM (fun val i => (res i).map fun x => val - x * cells i.castSucc) val =
        some (val - (l.map fun i => cells i.castSucc * x i).sum)
  | [], val, _ => by simp
  | i :: l, val, h => by
      have hrest := foldlM_sub cells l (val - x i * cells i.castSucc) fun j hj =>
        h j (mem_cons_of_mem i hj)
      rw [foldlM_cons, h i mem_cons_self, Option.map_some, Option.bind_eq_bind,
        Option.bind_some, hrest, map_cons, sum_cons, sub_sub, mul_comm (x i)]

theorem rightSideVal_eq {cells : Fin (c + 1) → ℚ} {res : Fin c → Option ℚ} {row : Fin c}
    (hres : ∀ j, row < j → res j = some (x j)) (hlow : ∀ j, j < row → cells j.castSucc = 0)
    (hx : ∑ j, cells j.castSucc * x j = cells (Fin.last c)) :
    rightSideVal cells res row = some (cells row.castSucc * x row) := by
  rw [rightSideVal, foldlM_sub _ _ _ fun i hi => hres i (mem_after.mp hi), sum_after, ← hx]
  -- Of the terms that are left only the one of the row itself is not zero.
  have hsplit := Finset.sum_filter_add_sum_filter_not Finset.univ (row < ·)
    fun j => cells j.castSucc * x j
  have hsingle : ∑ j with ¬ row < j, cells j.castSucc * x j = cells row.castSucc * x row := by
    refine Finset.sum_eq_single row (fun j hj hne => ?_) fun hnot => ?_
    · have hle : j ≤ row := not_lt.mp (Finset.mem_filter.mp hj).2
      rw [hlow j (lt_of_le_of_ne hle hne), zero_mul]
    · exact absurd (Finset.mem_filter.mpr ⟨Finset.mem_univ row, lt_irrefl row⟩) hnot
  rw [← hsplit, hsingle, add_sub_cancel_left]

theorem findRoots_eq {hrows : c ≤ r} {matrix : Rows r (c + 1)}
    (hlow : ∀ i j : Fin c, j < i → matrix (i.castLE hrows) j.castSucc = 0)
    (hpivot : ∀ i : Fin c, matrix (i.castLE hrows) i.castSucc ≠ 0)
    (hx : ∀ i : Fin c, ∑ j, matrix (i.castLE hrows) j.castSucc * x j =
      matrix (i.castLE hrows) (Fin.last c)) :
    findRoots hrows matrix = fun i => some (x i) := by
  have hsorted : (finRange c).reverse.Pairwise (· > ·) :=
    pairwise_reverse.mpr (pairwise_lt_finRange c)
  have hloop := Loops.foldl_invariant
    (f := fun res i => update res i (findXi hrows matrix i res)) (s := fun _ => some 0)
    (l := (finRange c).reverse) (P := fun done res => ∀ j ∈ done, res j = some (x j))
    (by simp) ?_
  · exact funext fun i => hloop i (by simp)
  · intro done i rest res hl hdone j hj
    have hlater : ∀ j, i < j → res j = some (x j) := fun j hij =>
      hdone j (Loops.mem_done_of_not_rel hsorted hl (by simp) hij.ne' hij.not_gt)
    have hxi : findXi hrows matrix i res = some (x i) := by
      rw [findXi, rightSideVal_eq hlater (hlow i) (hx i), Option.bind_some, divide,
        if_neg (hpivot i), mul_div_cancel_left₀ _ (hpivot i)]
    rw [update_apply]
    split
    · next hji => rw [hxi, hji]
    · next hji => exact hdone j (by simpa [hji] using hj)

end BackSubstitution

end LinuxWorkouts.LinearAlgebra
