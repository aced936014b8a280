import Mathlib

/-!
Shortest walks in a directed graph with weights.

The weight of an edge is a natural number, and 0 means that there is no edge. `Reaches v d` says
that a walk of total weight `d` leads to `v`, `IsDistance v d` that no walk is lighter.
`isDistance_of_frontier` is the rule for settling vertices one by one: among the edges that lead out
of the settled vertices, the one with the least total leads to a vertex whose distance is that
total. `IsDistance.add_sum_le` bounds the distances by the sum of all weights.
-/

namespace LinuxWorkouts.WeightedGraph

variable {α : Type*}

/-- A walk of total weight `d` leads from the source to the vertex. -/
inductive Reaches (weight : α → α → Nat) (source : α) : α → Nat → Prop
  | nil : Reaches weight source source 0
  | snoc {u v : α} {d : Nat} :
      Reaches weight source u d → weight u v ≠ 0 → Reaches weight source v (d + weight u v)

def IsDistance (weight : α → α → Nat) (source v : α) (d : Nat) : Prop :=
  IsLeast {d | Reaches weight source v d} d

variable {weight : α → α → Nat} {source v : α} {d : Nat}

theorem isDistance_source : IsDistance weight source source 0 := ⟨.nil, fun _ _ => Nat.zero_le _⟩

theorem Reaches.exists_frontier {S : Set α} (hsource : source ∈ S) (h : Reaches weight source v d)
    (hv : v ∉ S) :
    ∃ u ∈ S, ∃ w ∉ S, ∃ e, weight u w ≠ 0 ∧ Reaches weight source u e ∧ e + weight u w ≤ d := by
  induction h with
  | nil => exact absurd hsource hv
  | @snoc u v e hu hedge ih =>
    by_cases hmem : u ∈ S
    · exact ⟨u, hmem, v, hv, e, hedge, hu, le_rfl⟩
    · obtain ⟨x, hx, y, hy, f, hxy, hreach, hle⟩ := ih hmem
      exact ⟨x, hx, y, hy, f, hxy, hreach, hle.trans (Nat.le_add_right _ _)⟩

theorem isDistance_of_frontier {S : Set α} {dist : α → Nat} {p : α} (hsource : source ∈ S)
    (hdist : ∀ u ∈ S, IsDistance weight source u (dist u)) (hp : p ∈ S) (hv : v ∉ S)
    (hedge : weight p v ≠ 0)
    (hleast : ∀ u ∈ S, ∀ w ∉ S, weight u w ≠ 0 → dist p + weight p v ≤ dist u + weight u w) :
    IsDistance weight source v (dist p + weight p v) := by
  refine ⟨.snoc (hdist p hp).1 hedge, fun e he => ?_⟩
  obtain ⟨u, hu, w, hw, f, huw, hreach, hle⟩ := Reaches.exists_frontier hsource he hv
  calc
    dist p + weight p v ≤ dist u + weight u w := hleast u hu w hw huw
    _ ≤ f + weight u w := Nat.add_le_add_right ((hdist u hu).2 hreach) _
    _ ≤ e := hle

theorem IsDistance.exists_last (h : IsDistance weight source v d) (hd : d ≠ 0) :
    ∃ u e, IsDistance weight source u e ∧ weight u v ≠ 0 ∧ d = e + weight u v := by
  cases h.1 with
  | nil => exact absurd rfl hd
  | @snoc u _ e hu hedge =>
    refine ⟨u, e, ⟨hu, fun f hf => ?_⟩, hedge, rfl⟩
    exact Nat.le_of_add_le_add_right (h.2 (Reaches.snoc hf hedge))

section Total

variable [Fintype α]

open Classical in
noncomputable def near (weight : α → α → Nat) (source : α) (d : Nat) : Finset α :=
  {u | ∃ e < d, Reaches weight source u e}

theorem mem_near {u : α} : u ∈ near weight source d ↔ ∃ e < d, Reaches weight source u e := by
  simp [near]

theorem IsDistance.le_sum_near (h : IsDistance weight source v d) :
    d ≤ ∑ u ∈ near weight source d, ∑ w, weight u w := by
  classical
  induction d using Nat.strong_induction_on generalizing v with
  | _ d ih =>
    by_cases hd : d = 0
    · rw [hd]
      exact Nat.zero_le _
    · obtain ⟨u, e, hu, hedge, rfl⟩ := h.exists_last hd
      have hlt : e < e + weight u v := Nat.lt_add_of_pos_right (Nat.pos_of_ne_zero hedge)
      have hnot : u ∉ near weight source e := by
        rw [mem_near]
        rintro ⟨f, hf, hreach⟩
        exact absurd (hu.2 hreach) (Nat.not_le.mpr hf)
      have hsub : insert u (near weight source e) ⊆ near weight source (e + weight u v) := by
        intro x hx
        rw [mem_near]
        rcases Finset.mem_insert.mp hx with rfl | hx
        · exact ⟨e, hlt, hu.1⟩
        · obtain ⟨f, hf, hreach⟩ := mem_near.mp hx
          exact ⟨f, hf.trans hlt, hreach⟩
      have hrow : weight u v ≤ ∑ w, weight u w :=
        Finset.single_le_sum (fun _ _ => Nat.zero_le _) (Finset.mem_univ v)
      calc
        e + weight u v ≤ (∑ x ∈ near weight source e, ∑ w, weight x w) + ∑ w, weight u w :=
          Nat.add_le_add (ih e hlt hu) hrow
        _ = ∑ x ∈ insert u (near weight source e), ∑ w, weight x w := by
          rw [Finset.sum_insert hnot, Nat.add_comm]
        _ ≤ _ := Finset.sum_le_sum_of_subset hsub

theorem IsDistance.add_sum_le (h : IsDistance weight source v d) :
    d + ∑ w, weight v w ≤ ∑ u, ∑ w, weight u w := by
  classical
  have hnot : v ∉ near weight source d := by
    rw [mem_near]
    rintro ⟨e, he, hreach⟩
    exact absurd (h.2 hreach) (Nat.not_le.mpr he)
  calc
    d + ∑ w, weight v w ≤ (∑ u ∈ near weight source d, ∑ w, weight u w) + ∑ w, weight v w :=
      Nat.add_le_add_right h.le_sum_near _
    _ = ∑ u ∈ insert v (near weight source d), ∑ w, weight u w := by
      rw [Finset.sum_insert hnot, Nat.add_comm]
    _ ≤ _ := Finset.sum_le_sum_of_subset (Finset.subset_univ _)

end Total

end LinuxWorkouts.WeightedGraph
