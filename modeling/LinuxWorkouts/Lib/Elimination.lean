import Mathlib.LinearAlgebra.Matrix.Adjugate
import Mathlib.LinearAlgebra.FiniteDimensional.Lemmas
import Mathlib.LinearAlgebra.Dimension.Constructions
import Mathlib.LinearAlgebra.Basis.VectorSpace

/-!
What elimination with rows rests on, over any field.

`det_updateCol_single` takes a pivot out of a determinant. `exists_mulVec_eq_zero_of_few_rows` finds
a vector in the kernel if few rows are needed for some of the columns. Elimination that looks for
its pivots on the diagonal needs `LeadingColumns`, which depends on the kernel alone;
`exists_triangular_of_not_leadingColumns` is a matrix on which it stops too early.
-/

namespace LinuxWorkouts.Elimination

open Matrix

section Determinant

variable {n R : Type*} [Fintype n] [DecidableEq n] [CommRing R]

theorem det_updateCol_single (A : Matrix n n R) (p : n) :
    (A.updateCol p (Pi.single p 1)).det =
      ((A.updateCol p (Pi.single p 1)).updateRow p (Pi.single p 1)).det := by
  have hcol : (A.updateCol p (Pi.single p 1)).updateCol p (Pi.single p 1) =
      A.updateCol p (Pi.single p 1) := Matrix.updateCol_idem ..
  calc (A.updateCol p (Pi.single p 1)).det
      = (A.updateCol p (Pi.single p 1)).cramer (Pi.single p 1) p := by rw [cramer_apply, hcol]
    _ = (A.updateCol p (Pi.single p 1)).adjugate p p := by
        rw [← transpose_apply (adjugate _), adjugate_transpose, adjugate_def, of_apply,
          transpose_transpose]
    _ = _ := adjugate_apply ..

end Determinant

section Kernel

variable {m n K : Type*} [Fintype n] [Field K]

theorem exists_mulVec_eq_zero_of_few_rows [DecidableEq n] {A : Matrix m n K} (J : Finset n)
    (rows : Finset m) (hrows : ∀ i ∉ rows, ∀ j ∈ J, A i j = 0) (hcard : rows.card < J.card) :
    ∃ y ≠ 0, A *ᵥ y = 0 ∧ ∀ j ∉ J, y j = 0 := by
  -- The rows of `rows` and the coordinates outside `J` are too few conditions.
  let f : (n → K) →ₗ[K] (rows → K) × ((Jᶜ : Finset n) → K) :=
    ((LinearMap.funLeft K K Subtype.val).comp A.mulVecLin).prod (LinearMap.funLeft K K Subtype.val)
  have hrank : Module.finrank K ((rows → K) × ((Jᶜ : Finset n) → K)) <
      Module.finrank K (n → K) := by
    have hle := J.card_le_univ
    rw [Module.finrank_prod, Module.finrank_fintype_fun_eq_card, Module.finrank_fintype_fun_eq_card,
      Module.finrank_fintype_fun_eq_card, Fintype.card_coe, Fintype.card_coe, Finset.card_compl]
    omega
  obtain ⟨y, hy, hne⟩ := Submodule.exists_mem_ne_zero_of_ne_bot (f.ker_ne_bot_of_finrank_lt hrank)
  have hf : f y = 0 := hy
  have houtside : ∀ j ∉ J, y j = 0 := fun j hj =>
    congrFun (congrArg Prod.snd hf) ⟨j, Finset.mem_compl.mpr hj⟩
  refine ⟨y, hne, funext fun i => ?_, houtside⟩
  by_cases hi : i ∈ rows
  · exact congrFun (congrArg Prod.fst hf) ⟨i, hi⟩
  · rw [mulVec, dotProduct]
    refine Finset.sum_eq_zero fun j _ => ?_
    by_cases hj : j ∈ J
    · rw [hrows i hi j hj, zero_mul]
    · rw [houtside j hj, mul_zero]

theorem infinite_setOf_mulVec_eq [Infinite K] {A : Matrix m n K} {b : m → K} {x y : n → K}
    (hx : A *ᵥ x = b) (hy : A *ᵥ y = 0) (hne : y ≠ 0) : {x | A *ᵥ x = b}.Infinite := by
  refine Set.infinite_of_injective_forall_mem (f := fun t : K => x + t • y) ?_ fun t => ?_
  · intro s t hst
    exact smul_left_injective K hne (add_left_cancel hst)
  · rw [Set.mem_ofPred_eq, mulVec_add, mulVec_smul, hx, hy, smul_zero, add_zero]

end Kernel

section Columns

variable {m K : Type*} [Field K] {c : Nat} {A : Matrix m (Fin c) K} {j l : Fin c} {x : Fin c → K}

def Combines (A : Matrix m (Fin c) K) (j l : Fin c) : Prop :=
  ∃ x : Fin c → K, (∀ i, j ≤ i → x i = 0) ∧ A *ᵥ x = A.col l

/-- As soon as a column is a combination of those before it, all later ones are combinations of
the same. The columns before it are then as many as the rank. -/
def LeadingColumns (A : Matrix m (Fin c) K) : Prop :=
  ∀ j, Combines A j j → ∀ l, j ≤ l → Combines A j l

theorem combines_iff : Combines A j l ↔
    ∃ x : Fin c → K, (∀ i, j ≤ i → x i = 0) ∧ A *ᵥ (x - Pi.single l 1) = 0 := by
  simp only [Combines, mulVec_sub, mulVec_single_one, sub_eq_zero]

theorem leadingColumns_congr {m' : Type*} {B : Matrix m' (Fin c) K}
    (h : ∀ x, A *ᵥ x = 0 ↔ B *ᵥ x = 0) : LeadingColumns A ↔ LeadingColumns B := by
  simp only [LeadingColumns, combines_iff, h]

theorem exists_combines_of_mulVec_eq_zero (hx : A *ᵥ x = 0) (hne : x ≠ 0)
    (hlast : ∀ i, j < i → x i = 0) : ∃ l ≤ j, Combines A l l := by
  classical
  obtain ⟨i, hi⟩ := Function.ne_iff.mp hne
  obtain ⟨l, hl, hmax⟩ :=
    (Finset.univ.filter fun i => x i ≠ 0).exists_maximal ⟨i, by simpa using hi⟩
  have hxl : x l ≠ 0 := by simpa using hl
  refine ⟨l, ?_, combines_iff.mpr ⟨Pi.single l 1 - (x l)⁻¹ • x, fun i hi => ?_, ?_⟩⟩
  · by_contra hjl
    exact hxl (hlast l (not_le.mp hjl))
  · rcases hi.eq_or_lt with rfl | hlt
    · simp [hxl]
    · have hxi : x i = 0 := by
        by_contra hne
        exact hlt.not_ge (hmax (by simpa using hne) hlt.le)
      simp [hxi, hlt.ne']
  · rw [sub_sub_cancel_left, mulVec_neg, mulVec_smul, hx, smul_zero, neg_zero]

/-! A linear form on the columns is a combination of the rows. -/

theorem form_mulVec (f : Module.Dual K (m → K)) (x : Fin c → K) :
    f (A *ᵥ x) = ∑ i, f (A.col i) * x i := by
  rw [mulVec_eq_sum, map_sum]
  refine Finset.sum_congr rfl fun i _ => ?_
  rw [op_smul_eq_smul, map_smul, smul_eq_mul, mul_comm]
  rfl

def Leads (A : Matrix m (Fin c) K) (f : Module.Dual K (m → K)) (i : Fin c) : Prop :=
  (∀ j, j < i → f (A.col j) = 0) ∧ f (A.col i) ≠ 0

theorem Combines.apply_eq_zero (h : Combines A j l) {f : Module.Dual K (m → K)}
    (hf : ∀ i, i < j → f (A.col i) = 0) : f (A.col l) = 0 := by
  obtain ⟨x, hx, hcol⟩ := h
  rw [← hcol, form_mulVec]
  refine Finset.sum_eq_zero fun i _ => ?_
  rcases lt_or_ge i j with hlt | hge
  · rw [hf i hlt, zero_mul]
  · rw [hx i hge, mul_zero]

theorem exists_form_of_not_combines (h : ¬ Combines A j l) :
    ∃ f : Module.Dual K (m → K), (∀ i, i < j → f (A.col i) = 0) ∧ f (A.col l) ≠ 0 := by
  let S := (Submodule.pi {i : Fin c | j ≤ i} fun _ => (⊥ : Submodule K K)).map A.mulVecLin
  have hnot : A.col l ∉ S := by
    rintro ⟨x, hx, hcol⟩
    exact h ⟨x, fun i hi => (Submodule.mem_bot K).mp (hx i hi), hcol⟩
  obtain ⟨f, hf, hker⟩ := Submodule.exists_le_ker_of_notMem hnot
  refine ⟨f, fun i hi => hker ⟨Pi.single i 1, fun a ha => ?_, mulVec_single_one A i⟩, hf⟩
  rw [Pi.single_eq_of_ne (hi.trans_le ha).ne']
  exact Submodule.zero_mem _

theorem apply_mulVec_eq_zero {F : Fin c → Module.Dual K (m → K)} {s : Set (Fin c)}
    (hF : ∀ i f, Leads A f i → i ∈ s ∧ Leads A (F i) i) (hx : ∀ i ∈ s, F i (A *ᵥ x) = 0)
    (f : Module.Dual K (m → K)) : f (A *ᵥ x) = 0 := by
  -- From the last column to the first, a form is made to begin further to the right.
  suffices hfrom : ∀ p ≤ c, ∀ f : Module.Dual K (m → K),
      (∀ i : Fin c, i.val < p → f (A.col i) = 0) → f (A *ᵥ x) = 0 from
    hfrom 0 (Nat.zero_le c) f fun i hi => absurd hi (Nat.not_lt_zero i)
  intro p hp
  induction hp using Nat.decreasingInduction with
  | self =>
    intro f hf
    rw [form_mulVec]
    exact Finset.sum_eq_zero fun i _ => by rw [hf i i.isLt, zero_mul]
  | of_succ p hp ih =>
    intro f hf
    by_cases hzero : f (A.col ⟨p, hp⟩) = 0
    · refine ih f fun i hi => ?_
      rcases (Nat.lt_succ_iff.mp hi).lt_or_eq with hlt | heq
      · exact hf i hlt
      · rwa [Fin.ext (b := ⟨p, hp⟩) heq]
    · obtain ⟨hmem, hlow, hlead⟩ := hF ⟨p, hp⟩ f ⟨fun i hi => hf i hi, hzero⟩
      have hrest := ih (f - (f (A.col ⟨p, hp⟩) / F ⟨p, hp⟩ (A.col ⟨p, hp⟩)) • F ⟨p, hp⟩)
        fun i hi => ?_
      · rwa [LinearMap.sub_apply, LinearMap.smul_apply, hx _ hmem, smul_zero, sub_zero] at hrest
      · rw [LinearMap.sub_apply, LinearMap.smul_apply, smul_eq_mul]
        rcases (Nat.lt_succ_iff.mp hi).lt_or_eq with hlt | heq
        · rw [hf i hlt, hlow i hlt, mul_zero, sub_zero]
        · rw [Fin.ext (b := ⟨p, hp⟩) heq, div_mul_cancel₀ _ hlead, sub_self]

theorem exists_triangular_of_not_leadingColumns (h : ¬ LeadingColumns A) :
    ∃ (T : Matrix (Fin c) (Fin c) K) (k : Fin c), (∀ i j, j < i → T i j = 0) ∧ T k k = 0 ∧
      (∃ l, T k l ≠ 0) ∧ (∀ x, A *ᵥ x = 0 → T *ᵥ x = 0) ∧
      ∀ x, (∀ i ≠ k, (T *ᵥ x) i = 0) → A *ᵥ x = 0 := by
  classical
  unfold LeadingColumns at h
  push Not at h
  obtain ⟨k, hk, l, -, hl⟩ := h
  obtain ⟨g, hg, hgl⟩ := exists_form_of_not_combines hl
  have hnone : ∀ f, ¬ Leads A f k := fun f hf => hf.2 (hk.apply_eq_zero hf.1)
  let F (i : Fin c) : Module.Dual K (m → K) :=
    if hi : ∃ f, Leads A f i then hi.choose else if i = k then g else 0
  have hFk : F k = g := by simp [F, hnone]
  have hF : ∀ i f, Leads A f i → i ≠ k ∧ Leads A (F i) i := by
    intro i f hf
    have hi : ∃ f, Leads A f i := ⟨f, hf⟩
    exact ⟨fun hik => hnone f (hik ▸ hf), by simpa only [F, dif_pos hi] using hi.choose_spec⟩
  have hmulVec : ∀ x i, (of (fun i j => F i (A.col j)) *ᵥ x) i = F i (A *ᵥ x) :=
    fun x i => (form_mulVec (F i) x).symm
  refine ⟨of fun i j => F i (A.col j), k, fun i j hij => ?_, ?_, ⟨l, ?_⟩, fun x hx => ?_,
    fun x hx => ?_⟩
  · by_cases hi : ∃ f, Leads A f i
    · simpa only [of_apply, F, dif_pos hi] using hi.choose_spec.1 j hij
    · by_cases hik : i = k
      · simpa only [of_apply, hik, hFk] using hg j (hik ▸ hij)
      · simp [F, hi, hik]
  · rw [of_apply, hFk]
    exact hk.apply_eq_zero hg
  · rwa [of_apply, hFk]
  · exact funext fun i => by rw [hmulVec, hx, map_zero, Pi.zero_apply]
  · refine funext fun a => apply_mulVec_eq_zero (s := {i | i ≠ k}) hF (fun i hi => ?_)
      (LinearMap.proj a)
    rw [← hmulVec]
    exact hx i hi

end Columns

end LinuxWorkouts.Elimination
