import Mathlib.Tactic.Linarith
import Mathlib.LinearAlgebra.Matrix.Block
import Mathlib.LinearAlgebra.Matrix.NonsingularInverse
import LinuxWorkouts.Lib.Elimination
import LinuxWorkouts.LinearAlgebra.Solver

/-!
The verdict of `gaussian_method`.

After the elimination the ranks are counted as rows that are not zero, although a column without a
pivot leaves several rows that begin with the same unknown. `gaussianMethod_augment` is the case of
a regular matrix, where this cannot happen. `gaussianMethod_isRight_iff` says which coefficients
make the verdict right whatever the right sides are and however the equations are written;
`isRight_verdict_iff` reads it off the eliminated matrix. That there is no solution is never said
wrongly.
-/

namespace LinuxWorkouts.LinearAlgebra

open Finset

open Matrix (of mulVec)

variable {r c : Nat}

theorem findRank_le (matrix : Rows r c) (m : Nat) : findRank matrix m ≤ r :=
  List.countP_le_length.trans_eq (List.length_finRange)

/-- The result, with what is stored in `solution`. -/
inductive Outcome (c : Nat) where
  | consistAndOneSolution (solution : Fin c → Option ℚ)
  | consistAndInfSolution
  | notConsist

/-- `gaussian_method` behind the elimination. -/
def verdict (matrix : Rows r (c + 1)) : Outcome c :=
  if findRank matrix c < findRank matrix (c + 1) then .notConsist
  else if h : c > findRank matrix c then .consistAndInfSolution
  else .consistAndOneSolution (findRoots ((not_lt.mp h).trans (findRank_le matrix c)) matrix)

def gaussianMethod (hshape : r ≤ c + 1) (matrix : Rows r (c + 1)) : Outcome c :=
  if r = 0 then .notConsist else verdict (eliminate hshape matrix)

/-! ### The eliminated matrix -/

section Triangular

variable {matrix : Rows r (c + 1)} {x : Fin c → ℚ}

def Contradictory (matrix : Rows r (c + 1)) : Prop :=
  ∃ i, (∀ j : Fin c, matrix i j.castSucc = 0) ∧ matrix i (Fin.last c) ≠ 0

def Pivots (matrix : Rows r (c + 1)) : Prop :=
  ∀ j : Fin c, ∃ i : Fin r, i.val = j.val ∧ matrix i j.castSucc ≠ 0

def Triangular (matrix : Rows r (c + 1)) : Prop :=
  ∀ (i : Fin r) (j : Fin c), j.val < i.val → matrix i j.castSucc = 0

theorem eliminate_triangular {hshape : r ≤ c + 1} : Triangular (eliminate hshape matrix) :=
  fun i j hij => eliminate_cleared ⟨j, hij.trans i.isLt⟩ i hij

theorem rank_lt_iff : findRank matrix c < findRank matrix (c + 1) ↔ Contradictory matrix := by
  rw [findRank_eq_card, findRank_eq_card]
  constructor
  · intro hlt
    by_contra hnot
    refine hlt.not_ge (card_le_card fun i hi => ?_)
    obtain ⟨-, j, -, hj⟩ := mem_filter.mp hi
    refine mem_filter.mpr ⟨mem_univ i, ?_⟩
    by_contra hzero
    push Not at hzero
    refine hnot ⟨i, fun j => hzero j.castSucc j.isLt, fun hlast => hj ?_⟩
    cases j using Fin.lastCases with
    | last => exact hlast
    | cast j => exact hzero j.castSucc j.isLt
  · rintro ⟨i, hzero, hlast⟩
    refine card_lt_card (ssubset_iff_of_subset ?_ |>.mpr ⟨i, ?_, ?_⟩)
    · intro a ha
      obtain ⟨-, j, hj, hne⟩ := mem_filter.mp ha
      exact mem_filter.mpr ⟨mem_univ a, j, Nat.lt_succ_of_lt hj, hne⟩
    · exact mem_filter.mpr ⟨mem_univ i, Fin.last c, Nat.lt_succ_self c, hlast⟩
    · intro hi
      obtain ⟨-, j, hj, hne⟩ := mem_filter.mp hi
      exact hne (hzero ⟨j, hj⟩)

theorem not_solves_of_contradictory (h : Contradictory matrix) : ¬ Solves matrix x := by
  obtain ⟨i, hzero, hlast⟩ := h
  intro hx
  refine hlast ((hx i).symm.trans (sum_eq_zero fun j _ => ?_))
  rw [hzero j, zero_mul]

def coefficients (matrix : Rows r (c + 1)) : Matrix (Fin r) (Fin c) ℚ :=
  of fun i j => matrix i j.castSucc

theorem solves_iff_mulVec :
    Solves matrix x ↔ (coefficients matrix).mulVec x = fun i => matrix i (Fin.last c) :=
  funext_iff.symm

theorem card_rows_le (k : Nat) : (univ.filter fun i : Fin r => i.val < k).card ≤ k := by
  have hle : (univ.filter fun i : Fin r => i.val < k).card ≤ (range k).card :=
    card_le_card_of_injOn Fin.val (fun i hi => by simpa using hi) Fin.val_injective.injOn
  rwa [card_range] at hle

theorem Pivots.le_rows (h : Pivots matrix) : c ≤ r := by
  by_contra hlt
  obtain ⟨i, hi, -⟩ := h ⟨r, not_le.mp hlt⟩
  exact i.isLt.ne hi

theorem Pivots.apply_ne_zero (h : Pivots matrix) (hrows : c ≤ r) (j : Fin c) :
    matrix (j.castLE hrows) j.castSucc ≠ 0 := by
  obtain ⟨i, hi, hne⟩ := h j
  have heq : i = j.castLE hrows := Fin.ext hi
  rwa [← heq]

theorem Pivots.le_rank (h : Pivots matrix) : c ≤ findRank matrix c := by
  rw [findRank_eq_card]
  have hcard := card_le_card_of_injOn (s := univ) (Fin.castLE h.le_rows)
    (t := univ.filter fun i => ∃ j, j.val < c ∧ matrix i j ≠ 0)
    (fun j _ => mem_coe.mpr (mem_filter.mpr
      ⟨mem_univ _, j.castSucc, j.isLt, h.apply_ne_zero _ j⟩))
    (Fin.castLE_injective h.le_rows).injOn
  rwa [card_univ, Fintype.card_fin] at hcard

theorem exists_kernel_of_no_pivot (htri : Triangular matrix) {j : Fin c}
    (hj : ∀ i : Fin r, i.val = j.val → matrix i j.castSucc = 0) :
    ∃ y ≠ 0, (coefficients matrix).mulVec y = 0 ∧ ∀ l, j < l → y l = 0 := by
  have hrows : ∀ i ∉ univ.filter fun i : Fin r => i.val < j.val, ∀ a ∈ Finset.Iic j,
      coefficients matrix i a = 0 := by
    intro i hi a ha
    have hia : j.val ≤ i.val := by simpa using hi
    have haj : a ≤ j := mem_Iic.mp ha
    rcases (Nat.le_trans haj hia).lt_or_eq with hlt | heq
    · exact htri i a hlt
    · have hja : a = j := Fin.ext (by omega)
      exact hja ▸ hj i (by omega)
  have hcard : (univ.filter fun i : Fin r => i.val < j.val).card < (Finset.Iic j).card := by
    rw [Fin.card_Iic]
    exact Nat.lt_succ_of_le (card_rows_le j)
  obtain ⟨y, hne, hy, hafter⟩ := Elimination.exists_mulVec_eq_zero_of_few_rows _ _ hrows hcard
  exact ⟨y, hne, hy, fun l hl => hafter l (by simpa using hl)⟩

theorem exists_kernel_of_not_pivots (htri : Triangular matrix) (h : ¬ Pivots matrix) :
    ∃ y ≠ 0, (coefficients matrix).mulVec y = 0 := by
  unfold Pivots at h
  push Not at h
  obtain ⟨j, hj⟩ := h
  obtain ⟨y, hne, hy, -⟩ := exists_kernel_of_no_pivot htri hj
  exact ⟨y, hne, hy⟩

theorem exists_kernel_of_rank_lt (h : findRank matrix c < c) :
    ∃ y ≠ 0, (coefficients matrix).mulVec y = 0 := by
  have hrows : ∀ i ∉ univ.filter fun i => ∃ j, j.val < c ∧ matrix i j ≠ 0,
      ∀ j ∈ univ, coefficients matrix i j = 0 := by
    intro i hi j _
    by_contra hne
    exact hi (mem_filter.mpr ⟨mem_univ i, j.castSucc, j.isLt, hne⟩)
  obtain ⟨y, hne, hy, -⟩ := Elimination.exists_mulVec_eq_zero_of_few_rows _ _ hrows
    (by rwa [← findRank_eq_card, card_univ, Fintype.card_fin])
  exact ⟨y, hne, hy⟩

theorem infinite_of_kernel (hx : Solves matrix x)
    (hker : ∃ y ≠ 0, (coefficients matrix).mulVec y = 0) : {x | Solves matrix x}.Infinite := by
  obtain ⟨y, hne, hy⟩ := hker
  simp only [solves_iff_mulVec] at hx ⊢
  exact Elimination.infinite_setOf_mulVec_eq hx hy hne

theorem not_existsUnique_of_infinite (h : {x | Solves matrix x}.Infinite) :
    ¬ ∃! x, Solves matrix x := by
  rintro ⟨x, -, hunique⟩
  exact h ((Set.finite_singleton x).subset hunique)

theorem pivots_of_existsUnique (htri : Triangular matrix) (h : ∃! x, Solves matrix x) :
    Pivots matrix := by
  by_contra hnot
  obtain ⟨x, hx⟩ := h.exists
  exact not_existsUnique_of_infinite
    (infinite_of_kernel hx (exists_kernel_of_not_pivots htri hnot)) h

theorem Pivots.existsUnique (h : Pivots matrix) (htri : Triangular matrix)
    (hnot : ¬ Contradictory matrix) : ∃! x, Solves matrix x := by
  let N : Matrix (Fin c) (Fin c) ℚ := of fun i j => matrix (i.castLE h.le_rows) j.castSucc
  have hupper : N.IsUpperTriangular := fun i j hij => htri (i.castLE h.le_rows) j hij
  have hdet : N.det ≠ 0 := by
    rw [Matrix.det_of_isUpperTriangular hupper]
    exact prod_ne_zero_iff.mpr fun j _ => h.apply_ne_zero h.le_rows j
  have hunit : IsUnit N := (Matrix.isUnit_iff_isUnit_det N).mpr hdet.isUnit
  obtain ⟨x, hx⟩ := Matrix.mulVec_surjective_iff_isUnit.mpr hunit
    fun i => matrix (i.castLE h.le_rows) (Fin.last c)
  refine ⟨x, fun i => ?_, fun y hy => ?_⟩
  · by_cases hi : i.val < c
    · exact congrFun hx ⟨i, hi⟩
    · have hzero : ∀ j : Fin c, matrix i j.castSucc = 0 := fun j => htri i j (by omega)
      have hlast : matrix i (Fin.last c) = 0 := by
        by_contra hne
        exact hnot ⟨i, hzero, hne⟩
      rw [hlast]
      exact sum_eq_zero fun j _ => by rw [hzero j, zero_mul]
  · apply Matrix.mulVec_injective_iff_isUnit.mpr hunit
    rw [hx]
    exact funext fun i => hy (i.castLE h.le_rows)

theorem verdict_of_solves (hp : Pivots matrix) (htri : Triangular matrix) (hx : Solves matrix x) :
    verdict matrix = .consistAndOneSolution fun i => some (x i) := by
  have hrank : ¬ findRank matrix c < findRank matrix (c + 1) := fun hlt =>
    not_solves_of_contradictory (rank_lt_iff.mp hlt) hx
  rw [verdict, if_neg hrank, dif_neg (not_lt.mpr hp.le_rank)]
  congr 1
  exact findRoots_eq (fun i j hij => htri _ j hij) (fun i => hp.apply_ne_zero _ i) fun i => hx _

end Triangular

/-! ### Regular systems -/

section Regular

theorem gaussianMethod_of_existsUnique {hshape : r ≤ c + 1} {matrix : Rows r (c + 1)}
    {x : Fin c → ℚ}
    (hr : r ≠ 0) (h : ∃! x, Solves matrix x) (hx : Solves matrix x) :
    gaussianMethod hshape matrix = .consistAndOneSolution fun i => some (x i) := by
  have hsolves : Solves (eliminate hshape matrix) x := solves_eliminate.mpr hx
  have hunique : ∃! x, Solves (eliminate hshape matrix) x := by
    simpa only [solves_eliminate] using h
  rw [gaussianMethod, if_neg hr]
  exact verdict_of_solves (pivots_of_existsUnique eliminate_triangular hunique)
    eliminate_triangular hsolves

def augment (A : Matrix (Fin r) (Fin c) ℚ) (b : Fin r → ℚ) : Rows r (c + 1) :=
  fun i => Fin.snoc (A i) (b i)

theorem coefficients_augment (A : Matrix (Fin r) (Fin c) ℚ) (b : Fin r → ℚ) :
    coefficients (augment A b) = A := by
  ext i j
  simp [coefficients, augment]

theorem solves_augment {A : Matrix (Fin r) (Fin c) ℚ} {b : Fin r → ℚ} {x : Fin c → ℚ} :
    Solves (augment A b) x ↔ A.mulVec x = b := by
  have hright : (fun i => augment A b i (Fin.last c)) = b := funext fun i => Fin.snoc_last ..
  rw [solves_iff_mulVec, coefficients_augment, hright]

theorem existsUnique_mulVec {n : Nat} {A : Matrix (Fin n) (Fin n) ℚ} (hA : A.det ≠ 0)
    (b : Fin n → ℚ) : ∃! x, A.mulVec x = b := by
  have hunit : IsUnit A := (Matrix.isUnit_iff_isUnit_det A).mpr hA.isUnit
  exact Function.Bijective.existsUnique ⟨Matrix.mulVec_injective_iff_isUnit.mpr hunit,
    Matrix.mulVec_surjective_iff_isUnit.mpr hunit⟩ b

theorem gaussianMethod_of_det_ne_zero {n : Nat} {A : Matrix (Fin (n + 1)) (Fin (n + 1)) ℚ}
    {x : Fin (n + 1) → ℚ} (hA : A.det ≠ 0) :
    gaussianMethod (Nat.le_succ _) (augment A (A.mulVec x)) =
      .consistAndOneSolution fun i => some (x i) := by
  refine gaussianMethod_of_existsUnique (Nat.succ_ne_zero n) ?_ (solves_augment.mpr rfl)
  simpa only [solves_augment] using existsUnique_mulVec hA (A.mulVec x)

/-- **Regular systems.** The result is the solution, which is the only one. -/
theorem gaussianMethod_augment {n : Nat} (A : Matrix (Fin (n + 1)) (Fin (n + 1)) ℚ)
    (b : Fin (n + 1) → ℚ) (hA : A.det ≠ 0) :
    ∃ x, gaussianMethod (Nat.le_succ _) (augment A b) =
        .consistAndOneSolution (fun i => some (x i)) ∧
      A.mulVec x = b ∧ ∀ y, A.mulVec y = b → y = x := by
  obtain ⟨x, rfl, hunique⟩ := existsUnique_mulVec hA b
  exact ⟨x, gaussianMethod_of_det_ne_zero hA, rfl, hunique⟩

theorem gaussianMethod_augment_two : ∃ x,
    gaussianMethod (Nat.le_succ _) (augment (of ![![0, 1], ![2, 1]]) ![1, 3]) =
        .consistAndOneSolution (fun i => some (x i)) ∧
      (of ![![(0 : ℚ), 1], ![2, 1]]).mulVec x = ![1, 3] ∧
      ∀ y, (of ![![(0 : ℚ), 1], ![2, 1]]).mulVec y = ![1, 3] → y = x :=
  gaussianMethod_augment _ _ (by rw [Matrix.det_fin_two]; simp)

end Regular

/-! ### All systems -/

section All

variable {matrix : Rows r (c + 1)}

/-- Each of the three results is given exactly for the systems it stands for. -/
def IsRight (matrix : Rows r (c + 1)) (outcome : Outcome c) : Prop :=
  (outcome = .notConsist ↔ ∀ x, ¬ Solves matrix x) ∧
    (outcome = .consistAndInfSolution ↔ {x | Solves matrix x}.Infinite) ∧
    ((∃ solution, outcome = .consistAndOneSolution solution) ↔ ∃! x, Solves matrix x)

theorem isRight_notConsist : IsRight matrix .notConsist ↔ ∀ x, ¬ Solves matrix x := by
  constructor
  · intro h
    exact h.1.mp rfl
  · intro h
    refine ⟨iff_of_true rfl h, iff_of_false nofun fun hinf => ?_, iff_of_false nofun ?_⟩
    · obtain ⟨x, hx⟩ := hinf.nonempty
      exact h x hx
    · rintro ⟨x, hx, -⟩
      exact h x hx

theorem isRight_inf : IsRight matrix .consistAndInfSolution ↔ {x | Solves matrix x}.Infinite := by
  constructor
  · intro h
    exact h.2.1.mp rfl
  · intro h
    obtain ⟨x, hx⟩ := h.nonempty
    exact ⟨iff_of_false nofun fun hnone => hnone x hx, iff_of_true rfl h,
      iff_of_false nofun (not_existsUnique_of_infinite h)⟩

theorem isRight_one {solution : Fin c → Option ℚ} :
    IsRight matrix (.consistAndOneSolution solution) ↔ ∃! x, Solves matrix x := by
  constructor
  · intro h
    exact h.2.2.mp ⟨solution, rfl⟩
  · intro h
    obtain ⟨x, hx⟩ := h.exists
    exact ⟨iff_of_false nofun fun hnone => hnone x hx,
      iff_of_false nofun fun hinf => not_existsUnique_of_infinite hinf h, iff_of_true ⟨_, rfl⟩ h⟩

theorem isRight_verdict_iff (htri : Triangular matrix) :
    IsRight matrix (verdict matrix) ↔
      Contradictory matrix ∨ Pivots matrix ∨ (∃ x, Solves matrix x) ∧ findRank matrix c < c := by
  unfold verdict
  by_cases hcontra : Contradictory matrix
  · rw [if_pos (rank_lt_iff.mpr hcontra), isRight_notConsist]
    exact iff_of_true (fun x => not_solves_of_contradictory hcontra) (.inl hcontra)
  · rw [if_neg (rank_lt_iff.not.mpr hcontra)]
    by_cases hrank : findRank matrix c < c
    · rw [dif_pos hrank, isRight_inf]
      constructor
      · intro hinf
        exact .inr (.inr ⟨hinf.nonempty, hrank⟩)
      · rintro (h | hp | ⟨⟨x, hx⟩, -⟩)
        · exact absurd h hcontra
        · exact absurd hp.le_rank (not_le.mpr hrank)
        · exact infinite_of_kernel hx (exists_kernel_of_rank_lt hrank)
    · rw [dif_neg hrank, isRight_one]
      constructor
      · intro h
        exact .inr (.inl (pivots_of_existsUnique htri h))
      · rintro (h | hp | ⟨-, hlt⟩)
        · exact absurd h hcontra
        · exact hp.existsUnique htri hcontra
        · exact absurd hlt hrank

theorem isRight_gaussianMethod_iff {hshape : r ≤ c + 1} (hr : 0 < r) :
    IsRight matrix (gaussianMethod hshape matrix) ↔
      IsRight (eliminate hshape matrix) (verdict (eliminate hshape matrix)) := by
  simp only [IsRight, gaussianMethod, if_neg hr.ne', solves_eliminate]

/-! ### Systems with leading columns -/

open Elimination (LeadingColumns Combines)

theorem exists_solves_of_first (k : Fin c)
    (hdiag : ∀ j, j < k → ∃ i : Fin r, i.val = j.val ∧ matrix i j.castSucc ≠ 0)
    (hzero : ∀ i : Fin r, k.val ≤ i.val → ∀ j : Fin c, matrix i j.castSucc = 0)
    (htri : Triangular matrix) (hnot : ¬ Contradictory matrix) : ∃ x, Solves matrix x := by
  let first : Rows r (k.val + 1) :=
    augment ((coefficients matrix).submatrix id (Fin.castLE k.isLt.le)) fun i =>
      matrix i (Fin.last c)
  have hcell : ∀ i (j : Fin k), first i j.castSucc = matrix i (j.castLE k.isLt.le).castSucc := by
    simp [first, augment, coefficients]
  have hright : ∀ i, first i (Fin.last k) = matrix i (Fin.last c) := by
    simp [first, augment]
  have hpivots : Pivots first := by
    intro j
    obtain ⟨i, hi, hne⟩ := hdiag (j.castLE k.isLt.le) j.isLt
    exact ⟨i, hi, by rwa [hcell]⟩
  have hfirst : ¬ Contradictory first := by
    rintro ⟨i, hi, hne⟩
    rw [hright] at hne
    refine hnot ⟨i, hzero i ?_, hne⟩
    by_contra hlt
    obtain ⟨a, ha, hdiag⟩ := hpivots ⟨i, not_le.mp hlt⟩
    rw [Fin.ext ha] at hdiag
    exact hdiag (hi ⟨i, not_le.mp hlt⟩)
  obtain ⟨x, hx, -⟩ :=
    hpivots.existsUnique (fun i j hij => by rw [hcell]; exact htri i _ hij) hfirst
  refine ⟨fun j => if h : j.val < k then x ⟨j, h⟩ else 0, fun i => ?_⟩
  rw [← hright, ← hx i]
  refine (sum_of_injOn (Fin.castLE k.isLt.le) (Fin.castLE_injective _).injOn
    (fun j _ => mem_coe.mpr (mem_univ _)) (fun j _ hj => ?_) fun j _ => ?_).symm
  · have hge : ¬ j.val < k := fun hlt => hj ⟨⟨j, hlt⟩, by simp⟩
    simp [hge]
  · simp [hcell]

theorem isRight_verdict_of_leadingColumns (htri : Triangular matrix)
    (h : LeadingColumns (coefficients matrix)) : IsRight matrix (verdict matrix) := by
  rw [isRight_verdict_iff htri]
  by_cases hcontra : Contradictory matrix
  · exact .inl hcontra
  by_cases hpivots : ∃ k, Combines (coefficients matrix) k k
  · -- Up to the first column that those before it give there are pivots, and nothing below.
    obtain ⟨k, hk, hmin⟩ := WellFounded.has_min (wellFounded_lt (α := Fin c)) _ hpivots
    have hdiag : ∀ j, j < k → ∃ i : Fin r, i.val = j.val ∧ matrix i j.castSucc ≠ 0 := by
      intro j hj
      by_contra hnone
      push Not at hnone
      obtain ⟨y, hne, hy, hafter⟩ := exists_kernel_of_no_pivot htri hnone
      obtain ⟨l, hl, hcombines⟩ := Elimination.exists_combines_of_mulVec_eq_zero hy hne hafter
      exact hmin l hcombines (hl.trans_lt hj)
    have hzero : ∀ i : Fin r, k.val ≤ i.val → ∀ j : Fin c, matrix i j.castSucc = 0 := by
      intro i hi j
      rcases lt_or_ge j k with hlt | hge
      · exact htri i j (lt_of_lt_of_le hlt hi)
      · exact (h k hk j hge).apply_eq_zero (f := LinearMap.proj i) fun l hl =>
          htri i l (lt_of_lt_of_le hl hi)
    refine .inr (.inr ⟨exists_solves_of_first k hdiag hzero htri hcontra, ?_⟩)
    rw [findRank_eq_card]
    refine (card_le_card fun i hi => ?_).trans_lt ((card_rows_le k.val).trans_lt k.isLt)
    obtain ⟨-, j, hj, hne⟩ := mem_filter.mp hi
    refine mem_filter.mpr ⟨mem_univ i, ?_⟩
    by_contra hge
    exact hne (hzero i (not_lt.mp hge) ⟨j, hj⟩)
  · refine .inr (.inl ?_)
    intro j
    by_contra hnone
    push Not at hnone
    obtain ⟨y, hne, hy, hafter⟩ := exists_kernel_of_no_pivot htri hnone
    obtain ⟨l, -, hcombines⟩ := Elimination.exists_combines_of_mulVec_eq_zero hy hne hafter
    exact hpivots ⟨l, hcombines⟩

theorem coefficients_eliminate_mulVec {hshape : r ≤ c + 1} {x : Fin c → ℚ} :
    (coefficients (eliminate hshape matrix)).mulVec x = 0 ↔
      (coefficients matrix).mulVec x = 0 := by
  let φ : (Fin (c + 1) → ℚ) →ₗ[ℚ] ℚ := ∑ j, x j • LinearMap.proj j.castSucc
  have hform : (∀ i, φ (eliminate hshape matrix i) = 0) ↔ ∀ i, φ (matrix i) = 0 :=
    forall_eliminate φ
  simp only [φ, LinearMap.sum_apply, LinearMap.smul_apply, LinearMap.proj_apply, smul_eq_mul,
    mul_comm (x _)] at hform
  exact funext_iff.trans (hform.trans funext_iff.symm)

theorem eliminate_of_triangular {hshape : r ≤ c + 1} (h : Triangular matrix) :
    eliminate hshape matrix = matrix := by
  refine List.foldlRecOn (motive := fun m => m = matrix) _ _ rfl fun m hm s hs => ?_
  refine List.foldlRecOn (motive := fun m => m = matrix) _ _ hm fun m hm i hi => ?_
  have hsc : s.val < c := by
    have hlt : s.val < r - 1 := by simpa using hs
    omega
  have hzero : matrix i (s.castLE hshape) = 0 := h i ⟨s, hsc⟩ (mem_after.mp hi)
  rw [hm, clearRow, isZeroLimit_eq, if_pos hzero]

theorem gaussianMethod_isRight_of_leadingColumns {hshape : r ≤ c + 1} (hr : 0 < r)
    (h : LeadingColumns (coefficients matrix)) : IsRight matrix (gaussianMethod hshape matrix) := by
  rw [isRight_gaussianMethod_iff hr]
  refine isRight_verdict_of_leadingColumns eliminate_triangular ?_
  exact (Elimination.leadingColumns_congr fun x => coefficients_eliminate_mulVec).mpr h

theorem exists_misjudged {A : Matrix (Fin r) (Fin c) ℚ} (h : ¬ LeadingColumns A) :
    ∃ (B : Matrix (Fin c) (Fin c) ℚ) (b : Fin c → ℚ), 0 < c ∧
      (∀ x, B.mulVec x = 0 ↔ A.mulVec x = 0) ∧
      ¬ IsRight (augment B b) (gaussianMethod (Nat.le_succ c) (augment B b)) := by
  obtain ⟨T, k, htri, hpivot, ⟨l, hl⟩, hker, hother⟩ :=
    Elimination.exists_triangular_of_not_leadingColumns h
  refine ⟨T, Pi.single k 1, k.pos,
    fun x => ⟨fun hx => hother x fun i _ => congrFun hx i, hker x⟩, ?_⟩
  have htriangular : Triangular (augment T (Pi.single k 1)) := fun i j hij => by
    simpa [augment] using htri i j hij
  rw [isRight_gaussianMethod_iff k.pos, eliminate_of_triangular htriangular,
    isRight_verdict_iff htriangular]
  rintro (⟨i, hzero, hright⟩ | hpivots | ⟨⟨x, hx⟩, -⟩)
  · have hik : i = k := by
      by_contra hne
      exact hright (by simp [augment, hne])
    refine hl ?_
    simpa [augment, hik] using hzero l
  · refine hpivots.apply_ne_zero le_rfl k ?_
    simpa [augment] using hpivot
  · rw [solves_augment] at hx
    have hzero := hker x (hother x fun i hi => by rw [hx, Pi.single_eq_of_ne hi])
    simpa [hx] using congrFun hzero k

end All

end LinuxWorkouts.LinearAlgebra
