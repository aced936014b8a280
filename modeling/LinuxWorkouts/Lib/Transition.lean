import Mathlib

/-!
Runs of a deterministic step function over a list of inputs.

`step s i = none` means that the input is not possible in the state `s`; the run
ends there. `Always` and `Along` quantify over the states a run reaches, the
second together with the input that is given there, so a property that depends
on how a run goes on is stated without naming its prefixes. `always_of_along` is
the invariant rule and `along_of_always` (`along_of_always_of_run`) its converse for a condition
whose first violation shows in the next state. `run_refines` is the rule for comparing a run with
that of an abstract machine. `Ends` is for systems that come to an end:
`ends_of_rank` asks for a rank, `exists_run_of_rank` uses one to find a run that gets somewhere, and
`run_split` tells from the end of a run whether all its steps met a condition.
-/

namespace LinuxWorkouts.Transition

open Option List

variable {σ ι : Type*}

/-- The state after the inputs, `none` when one of them was not possible. -/
def run (step : σ → ι → Option σ) : σ → List ι → Option σ
  | s, [] => some s
  | s, i :: is => (step s i).bind fun s' => run step s' is

/-- `P` holds in every state the run reaches, the first one included. -/
def Always (step : σ → ι → Option σ) (P : σ → Prop) : σ → List ι → Prop
  | s, [] => P s
  | s, i :: is => P s ∧ ∀ s', step s i = some s' → Always step P s' is

/-- `G` holds of every input of the run in the state it is given in. -/
def Along (step : σ → ι → Option σ) (G : σ → ι → Prop) : σ → List ι → Prop
  | _, [] => True
  | s, i :: is => G s i ∧ ∀ s', step s i = some s' → Along step G s' is

/-- A guard that can be tested can be tested along a run. -/
instance decidableAlong {step : σ → ι → Option σ} {G : σ → ι → Prop}
    [∀ s i, Decidable (G s i)] : ∀ s is, Decidable (Along step G s is)
  | _, [] => .isTrue trivial
  | s, i :: is =>
    match h : step s i with
    | none => decidable_of_iff (G s i) (by simp [Along, h])
    | some s' =>
      have : Decidable (Along step G s' is) := decidableAlong s' is
      decidable_of_iff (G s i ∧ Along step G s' is) (by simp [Along, h])

/-- Every guarded run is finite, and one that cannot go on has reached `Q`. -/
def Ends (step : σ → ι → Option σ) (G : σ → ι → Prop) (Q : σ → Prop) (s : σ) : Prop :=
  ∃ bound, ∀ is s', Along step G s is → run step s is = some s' →
    is.length ≤ bound ∧ ((∀ i, G s' i → step s' i = none) → Q s')

variable {s s' : σ} {is : List ι} {Q : σ → Prop}

section Rules

variable {step : σ → ι → Option σ} {P I : σ → Prop} {G : σ → ι → Prop}

theorem Always.head (h : Always step P s is) : P s := by
  cases is with
  | nil => exact h
  | cons i is => exact h.1

theorem Always.imp (h : Always step P s is) (hPQ : ∀ s, P s → Q s) : Always step Q s is := by
  induction is generalizing s with
  | nil => exact hPQ s h
  | cons i is ih => exact ⟨hPQ s h.1, fun s' hs' => ih (h.2 s' hs')⟩

theorem Always.run (h : Always step P s is) (hrun : Transition.run step s is = some s') : P s' := by
  induction is generalizing s with
  | nil =>
    cases hrun
    exact h
  | cons i is ih =>
    obtain ⟨t, ht, hrun⟩ := bind_eq_some_iff.mp hrun
    exact ih (h.2 t ht) hrun

theorem always_of_along (hP : ∀ s, I s → P s)
    (hstep : ∀ s i s', i ∈ is → I s → G s i → step s i = some s' → I s') (h0 : I s)
    (hg : Along step G s is) : Always step P s is := by
  induction is generalizing s with
  | nil => exact hP s h0
  | cons i is ih =>
    refine ⟨hP s h0, fun s' hs' => ih (fun t j t' hj => hstep t j t' ?_) ?_ (hg.2 s' hs')⟩
    · exact mem_cons_of_mem _ hj
    · exact hstep s i s' mem_cons_self h0 hg.1 hs'

theorem always_of_step (is : List ι) (hstep : ∀ s i s', I s → step s i = some s' → I s')
    (h0 : I s) : Always step I s is := by
  induction is generalizing s with
  | nil => exact h0
  | cons i is ih => exact ⟨h0, fun s' hs' => ih (hstep s i s' h0 hs')⟩

theorem Along.imp {H : σ → ι → Prop} (hH : ∀ s i, I s → G s i → H s i)
    (hstep : ∀ s i s', I s → G s i → step s i = some s' → I s') (h0 : I s)
    (hg : Along step G s is) : Along step H s is := by
  induction is generalizing s with
  | nil => trivial
  | cons i is ih =>
    refine ⟨hH s i h0 hg.1, fun s' hs' => ih ?_ (hg.2 s' hs')⟩
    exact hstep s i s' h0 hg.1 hs'

theorem along_of_forall (h : ∀ s i, G s i) : Along step G s is := by
  induction is generalizing s with
  | nil => trivial
  | cons i is ih => exact ⟨h s i, fun _ _ => ih⟩

theorem along_of_always (hstep : ∀ s i s', i ∈ is → I s → G s i → step s i = some s' → I s')
    (hbad : ∀ s i, i ∈ is → I s → ¬ G s i → ∃ s', step s i = some s' ∧ ¬ P s') (h0 : I s)
    (h : Always step P s is) : Along step G s is := by
  induction is generalizing s with
  | nil => trivial
  | cons i is ih =>
    have hG : G s i := by
      by_contra hG
      obtain ⟨s', hs', hP⟩ := hbad s i mem_cons_self h0 hG
      exact hP (h.2 s' hs').head
    refine ⟨hG, fun s' hs' => ih ?_ ?_ ?_ (h.2 s' hs')⟩
    · exact fun t j t' hj => hstep t j t' (mem_cons_of_mem _ hj)
    · exact fun t j hj => hbad t j (mem_cons_of_mem _ hj)
    · exact hstep s i s' mem_cons_self h0 hG hs'

theorem along_of_always_of_run (hstep : ∀ s i s', I s → G s i → step s i = some s' → I s')
    (hbad : ∀ s i s', I s → step s i = some s' → ¬ G s i → ¬ P s') (h0 : I s)
    (hrun : run step s is = some s') (h : Always step P s is) : Along step G s is := by
  induction is generalizing s with
  | nil => trivial
  | cons i is ih =>
    obtain ⟨t, ht, hrun⟩ := bind_eq_some_iff.mp hrun
    have hG : G s i := by
      by_contra hG
      exact hbad s i t h0 ht hG (h.2 t ht).head
    refine ⟨hG, fun u hu => ?_⟩
    have hut : t = u := Option.some.inj (ht.symm.trans hu)
    subst hut
    exact ih (hstep s i t h0 hG ht) hrun (h.2 t ht)

theorem run_filter {R : σ → σ → Prop} {keep : ι → Bool} {t : σ}
    (hkeep : ∀ s t i s', i ∈ is → R s t → keep i → G s i → step s i = some s' →
      ∃ t', step t i = some t' ∧ R s' t')
    (hskip : ∀ s t i s', R s t → ¬ keep i → G s i → step s i = some s' → R s' t) (h0 : R s t)
    (hg : Along step G s is) (hrun : run step s is = some s') :
    ∃ t', run step t (is.filter keep) = some t' ∧ R s' t' := by
  induction is generalizing s t with
  | nil =>
    cases hrun
    exact ⟨t, rfl, h0⟩
  | cons i is ih =>
    obtain ⟨s₁, hs₁, hrun⟩ := bind_eq_some_iff.mp hrun
    have hkeep' := fun s t j s' hj => hkeep s t j s' (mem_cons_of_mem i hj)
    by_cases hi : keep i
    · obtain ⟨t₁, ht₁, hR⟩ := hkeep s t i s₁ mem_cons_self h0 hi hg.1 hs₁
      obtain ⟨t', ht', hR'⟩ := ih hkeep' hR (hg.2 s₁ hs₁) hrun
      refine ⟨t', ?_, hR'⟩
      rw [filter_cons_of_pos hi, run, ht₁, bind_some, ht']
    · obtain ⟨t', ht', hR'⟩ := ih hkeep' (hskip s t i s₁ h0 hi hg.1 hs₁) (hg.2 s₁ hs₁) hrun
      refine ⟨t', ?_, hR'⟩
      rw [filter_cons_of_neg hi, ht']

theorem run_refines {τ : Type*} {R : σ → τ → Prop} {abstractStep : τ → ι → τ} {t : τ}
    (hstep : ∀ s t i, R s t → G s i → ∃ s', step s i = some s' ∧ R s' (abstractStep t i))
    (h0 : R s t) (hg : Along step G s is) :
    ∃ s', run step s is = some s' ∧ R s' (is.foldl abstractStep t) := by
  induction is generalizing s t with
  | nil => exact ⟨s, rfl, h0⟩
  | cons i is ih =>
    obtain ⟨s₁, hs₁, hR⟩ := hstep s t i h0 hg.1
    obtain ⟨s', hrun, hR'⟩ := ih hR (hg.2 s₁ hs₁)
    refine ⟨s', ?_, hR'⟩
    rw [run, hs₁, bind_some, hrun]

theorem ends_of_rank {rank : σ → Nat}
    (hstep : ∀ s i s', I s → G s i → step s i = some s' → I s' ∧ rank s' < rank s)
    (hstuck : ∀ s, I s → (∀ i, G s i → step s i = none) → Q s) (h0 : I s) : Ends step G Q s := by
  have hrun : ∀ (is : List ι) (s s' : σ), I s → Along step G s is → run step s is = some s' →
      I s' ∧ is.length + rank s' ≤ rank s := by
    intro is
    induction is with
    | nil =>
      intro s s' hI _ hrun
      cases hrun
      exact ⟨hI, by simp⟩
    | cons i is ih =>
      intro s s' hI hg hrun
      obtain ⟨t, ht, hrun⟩ := bind_eq_some_iff.mp hrun
      obtain ⟨hIt, hlt⟩ := hstep s i t hI hg.1 ht
      obtain ⟨hI', hle⟩ := ih t s' hIt (hg.2 t ht) hrun
      refine ⟨hI', ?_⟩
      rw [length_cons]
      omega
  refine ⟨rank s, fun is s' hg hrunTo => ?_⟩
  obtain ⟨hI', hle⟩ := hrun is s s' h0 hg hrunTo
  exact ⟨by omega, hstuck s' hI'⟩

theorem exists_run_of_rank (rank : σ → Nat)
    (hstep : ∀ s, I s → ∃ i s', step s i = some s' ∧ (Q s' ∨ I s' ∧ rank s' < rank s)) (h0 : I s) :
    ∃ is s', run step s is = some s' ∧ Q s' := by
  induction hr : rank s using Nat.strong_induction_on generalizing s with
  | _ r ih =>
    obtain ⟨i, t, ht, hQ | ⟨hI, hlt⟩⟩ := hstep s h0
    · exact ⟨[i], t, by rw [run, ht]; rfl, hQ⟩
    · obtain ⟨is, s', hrun, hQ⟩ := ih (rank t) (hr ▸ hlt) hI rfl
      refine ⟨i :: is, s', ?_, hQ⟩
      rw [run, ht, bind_some, hrun]

theorem run_split {H : σ → ι → Prop} {J : σ → Prop}
    (hkeep : ∀ s i s', I s → G s i → H s i → step s i = some s' → I s')
    (hbreak : ∀ s i s', I s → G s i → ¬ H s i → step s i = some s' → J s')
    (hafter : ∀ s i s', J s → G s i → step s i = some s' → J s') (h0 : I s) (hg : Along step G s is)
    (hrun : run step s is = some s') :
    (Along step H s is → I s') ∧ (¬ Along step H s is → J s') := by
  have hJ : ∀ (is : List ι) (s : σ), J s → Along step G s is → run step s is = some s' → J s' := by
    intro is
    induction is with
    | nil =>
      intro s h _ hrun
      cases hrun
      exact h
    | cons i is ih =>
      intro s h hg hrun
      obtain ⟨t, ht, hrun⟩ := bind_eq_some_iff.mp hrun
      exact ih t (hafter s i t h hg.1 ht) (hg.2 t ht) hrun
  induction is generalizing s with
  | nil =>
    cases hrun
    exact ⟨fun _ => h0, fun h => absurd trivial h⟩
  | cons i is ih =>
    obtain ⟨t, ht, hrun⟩ := bind_eq_some_iff.mp hrun
    by_cases hH : H s i
    · obtain ⟨h1, h2⟩ := ih (hkeep s i t h0 hg.1 hH ht) (hg.2 t ht) hrun
      constructor
      · intro h
        exact h1 (h.2 t ht)
      · intro h
        apply h2
        intro hrest
        refine h ⟨hH, fun u hu => ?_⟩
        rw [ht] at hu
        exact Option.some.inj hu ▸ hrest
    · constructor
      · intro h
        exact absurd h.1 hH
      · intro _
        exact hJ is t (hbreak s i t h0 hg.1 hH ht) (hg.2 t ht) hrun

end Rules

end LinuxWorkouts.Transition
