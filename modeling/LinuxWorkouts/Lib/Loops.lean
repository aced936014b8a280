import Mathlib.Data.List.Basic

/-!
Loops over a list.

The invariant of `foldl_invariant` speaks of the part of the list that is done, and
`foldlM_invariant` is the rule for a loop that may have no result: it has one. `foldl_each` is for
steps that do something for their own element and do not undo it for the others. In a sorted list
the part that is done is what comes before the element at hand (`rel_of_mem_done`,
`mem_done_of_not_rel`).
-/

namespace LinuxWorkouts.Loops

open List

section Invariants

variable {ι σ : Type*} {P : List ι → σ → Prop} {l : List ι} {s : σ}

theorem foldlM_invariant {f : σ → ι → Option σ} (hinit : P [] s)
    (hstep : ∀ done i rest s, l = done ++ i :: rest → P done s →
      ∃ s', f s i = some s' ∧ P (done ++ [i]) s') :
    ∃ s', l.foldlM f s = some s' ∧ P l s' := by
  -- The induction is on the part that is left, for every part that is done.
  suffices h : ∀ rest done s, l = done ++ rest → P done s →
      ∃ s', rest.foldlM f s = some s' ∧ P l s' from h l [] s rfl hinit
  intro rest
  induction rest with
  | nil =>
    intro done s hl hP
    rw [append_nil] at hl
    exact ⟨s, rfl, hl ▸ hP⟩
  | cons i rest ih =>
    intro done s hl hP
    obtain ⟨s', hs', hP'⟩ := hstep done i rest s hl hP
    rw [foldlM_cons, hs']
    refine ih (done ++ [i]) s' ?_ hP'
    rw [hl, append_assoc, singleton_append]

theorem foldl_invariant {f : σ → ι → σ} (hinit : P [] s)
    (hstep : ∀ done i rest s, l = done ++ i :: rest → P done s → P (done ++ [i]) (f s i)) :
    P l (l.foldl f s) := by
  obtain ⟨s', hs', hP⟩ := foldlM_invariant (f := fun s i => some (f s i)) hinit
    fun done i rest s hl h => ⟨_, rfl, hstep done i rest s hl h⟩
  have hpure : l.foldlM (fun s i => some (f s i)) s = some (l.foldl f s) := foldlM_pure
  rw [Option.some.inj (hpure.symm.trans hs')]
  exact hP

theorem foldl_each {f : σ → ι → σ} {I : σ → Prop} {Q : ι → σ → Prop} (hinit : I s)
    (hstep : ∀ i ∈ l, ∀ s, I s →
      I (f s i) ∧ Q i (f s i) ∧ ∀ j ∈ l, j ≠ i → Q j s → Q j (f s i)) :
    I (l.foldl f s) ∧ ∀ i ∈ l, Q i (l.foldl f s) := by
  refine foldl_invariant (P := fun done s => I s ∧ ∀ i ∈ done, Q i s)
    ⟨hinit, fun _ h => absurd h not_mem_nil⟩ ?_
  rintro done i rest s hl ⟨hI, hdone⟩
  obtain ⟨hI', hQ, hkeep⟩ := hstep i (by simp [hl]) s hI
  refine ⟨hI', fun j hj => ?_⟩
  rcases eq_or_ne j i with rfl | hne
  · exact hQ
  · have hj' : j ∈ done := by simpa [hne] using hj
    exact hkeep j (by simp [hl, hj']) hne (hdone j hj')

end Invariants

section Sorted

variable {ι : Type*} {R : ι → ι → Prop} {l done rest : List ι} {i j : ι}

theorem rel_of_mem_done (hsorted : l.Pairwise R) (hl : l = done ++ i :: rest) (hj : j ∈ done) :
    R j i := by
  rw [hl, pairwise_append] at hsorted
  exact hsorted.2.2 j hj i mem_cons_self

theorem mem_done_of_not_rel (hsorted : l.Pairwise R) (hl : l = done ++ i :: rest) (hj : j ∈ l)
    (hne : j ≠ i) (hnot : ¬ R i j) : j ∈ done := by
  rw [hl, pairwise_append, pairwise_cons] at hsorted
  rw [hl, mem_append, mem_cons] at hj
  rcases hj with hj | rfl | hj
  · exact hj
  · exact absurd rfl hne
  · exact absurd (hsorted.2.1.1 j hj) hnot

end Sorted

end LinuxWorkouts.Loops
