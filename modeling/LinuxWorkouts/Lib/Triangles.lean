import Mathlib.Combinatorics.SimpleGraph.Clique
import Mathlib.Algebra.BigOperators.Group.Finset.Sigma

/-!
Triangles of a finite graph with ordered vertices, counted at their smallest vertex.

`card_cliqueFinset_three` reduces them to the adjacent pairs among the larger neighbours of a
vertex, and `card_adjacentPairs_insert` counts such pairs vertex by vertex, in any order.
-/

namespace LinuxWorkouts.Triangles

open Finset

variable {V : Type*} [LinearOrder V] {G : SimpleGraph V}

theorem eq_of_triple_eq {a b c a' b' c' : V} (hab : a < b) (hbc : b < c) (hab' : a' < b')
    (hbc' : b' < c') (h : ({a, b, c} : Finset V) = {a', b', c'}) : a = a' ∧ b = b' ∧ c = c' := by
  have hmem : ∀ x, (x = a ∨ x = b ∨ x = c) ↔ (x = a' ∨ x = b' ∨ x = c') := by
    intro x
    simpa using Finset.ext_iff.mp h x
  have ha := (hmem a).mp (.inl rfl)
  have ha' := (hmem a').mpr (.inl rfl)
  have hc := (hmem c).mp (.inr (.inr rfl))
  have hc' := (hmem c').mpr (.inr (.inr rfl))
  have hb := (hmem b).mp (.inr (.inl rfl))
  grind

theorem exists_sorted_triple {s : Finset V} (h : G.IsNClique 3 s) :
    ∃ a b c, a < b ∧ b < c ∧ G.Adj a b ∧ G.Adj a c ∧ G.Adj b c ∧ s = {a, b, c} := by
  obtain ⟨a, b, c, hab, hac, hbc, rfl⟩ := SimpleGraph.is3Clique_iff.mp h
  rcases lt_or_gt_of_ne hab.ne with h1 | h1 <;> rcases lt_or_gt_of_ne hac.ne with h2 | h2 <;>
    rcases lt_or_gt_of_ne hbc.ne with h3 | h3
  · exact ⟨a, b, c, h1, h3, hab, hac, hbc, rfl⟩
  · exact ⟨a, c, b, h2, h3, hac, hab, hbc.symm, by grind⟩
  · exact absurd (h1.trans (h3.trans h2)) (lt_irrefl a)
  · exact ⟨c, a, b, h2, h1, hac.symm, hbc.symm, hab, by grind⟩
  · exact ⟨b, a, c, h1, h2, hab.symm, hbc, hac, by grind⟩
  · exact absurd (h1.trans (h2.trans h3)) (lt_irrefl b)
  · exact ⟨b, c, a, h3, h2, hbc, hab.symm, hac.symm, by grind⟩
  · exact ⟨c, b, a, h3, h1, hbc.symm, hac.symm, hab.symm, by grind⟩

def sorted (v u : V) : V × V := if v < u then (v, u) else (u, v)

theorem sorted_injective (v : V) : Function.Injective (sorted v) := by
  intro a b hab
  unfold sorted at hab
  grind

variable [DecidableRel G.Adj]

def adjacentPairs (G : SimpleGraph V) [DecidableRel G.Adj] (q : Finset V) : Finset (V × V) :=
  (q ×ˢ q).filter fun p => p.1 < p.2 ∧ G.Adj p.1 p.2

theorem mem_adjacentPairs {q : Finset V} {p : V × V} :
    p ∈ adjacentPairs G q ↔ (p.1 ∈ q ∧ p.2 ∈ q) ∧ p.1 < p.2 ∧ G.Adj p.1 p.2 := by
  rw [adjacentPairs, mem_filter, mem_product]

theorem adjacentPairs_insert {q : Finset V} {v : V} :
    adjacentPairs G (insert v q) = (q.filter (G.Adj v)).image (sorted v) ∪ adjacentPairs G q := by
  ext ⟨a, b⟩
  simp only [mem_union, mem_image, mem_filter, mem_adjacentPairs, mem_insert, sorted]
  constructor
  · rintro ⟨⟨ha, hb⟩, hlt, hadj⟩
    rcases ha with rfl | ha
    · rcases hb with rfl | hb
      · exact absurd hlt (lt_irrefl _)
      · exact .inl ⟨b, ⟨hb, hadj⟩, if_pos hlt⟩
    · rcases hb with rfl | hb
      · exact .inl ⟨a, ⟨ha, hadj.symm⟩, if_neg hlt.not_gt⟩
      · exact .inr ⟨⟨ha, hb⟩, hlt, hadj⟩
  · rintro (⟨u, ⟨hu, hadj⟩, heq⟩ | ⟨⟨ha, hb⟩, hlt, hadj⟩)
    · split at heq
      · next hvu =>
          obtain ⟨rfl, rfl⟩ := Prod.mk.inj heq
          exact ⟨⟨.inl rfl, .inr hu⟩, hvu, hadj⟩
      · next hvu =>
          obtain ⟨rfl, rfl⟩ := Prod.mk.inj heq
          exact ⟨⟨.inr hu, .inl rfl⟩, lt_of_le_of_ne (not_lt.mp hvu) hadj.ne', hadj.symm⟩
    · exact ⟨⟨.inr ha, .inr hb⟩, hlt, hadj⟩

theorem card_adjacentPairs_insert {q : Finset V} {v : V} (hv : v ∉ q) :
    (adjacentPairs G (insert v q)).card =
      (q.filter (G.Adj v)).card + (adjacentPairs G q).card := by
  rw [adjacentPairs_insert, card_union_of_disjoint, card_image_of_injective _ (sorted_injective v)]
  -- A new pair has the new vertex in it.
  rw [disjoint_left]
  intro p hp hold
  obtain ⟨u, -, rfl⟩ := mem_image.mp hp
  have hmem := (mem_adjacentPairs.mp hold).1
  unfold sorted at hmem
  split at hmem
  · exact hv hmem.1
  · exact hv hmem.2

variable [Fintype V]

def above (G : SimpleGraph V) [DecidableRel G.Adj] (v : V) : Finset V :=
  univ.filter fun u => G.Adj v u ∧ v < u

theorem mem_above {u v : V} : u ∈ above G v ↔ G.Adj v u ∧ v < u := by
  simp [above]

theorem card_cliqueFinset_three :
    (G.cliqueFinset 3).card = ∑ v, (adjacentPairs G (above G v)).card := by
  rw [← card_sigma]
  symm
  refine card_bij (fun t _ => {t.1, t.2.1, t.2.2}) ?_ ?_ ?_
  · intro t ht
    obtain ⟨⟨ha, hb⟩, -, hadj⟩ := mem_adjacentPairs.mp (mem_sigma.mp ht).2
    rw [SimpleGraph.mem_cliqueFinset_iff, SimpleGraph.is3Clique_triple_iff]
    exact ⟨(mem_above.mp ha).1, (mem_above.mp hb).1, hadj⟩
  · rintro ⟨v, a, b⟩ ht ⟨v', a', b'⟩ ht' heq
    obtain ⟨⟨ha, -⟩, hlt, -⟩ := mem_adjacentPairs.mp (mem_sigma.mp ht).2
    obtain ⟨⟨ha', -⟩, hlt', -⟩ := mem_adjacentPairs.mp (mem_sigma.mp ht').2
    obtain ⟨rfl, rfl, rfl⟩ := eq_of_triple_eq (mem_above.mp ha).2 hlt (mem_above.mp ha').2 hlt' heq
    rfl
  · intro s hs
    obtain ⟨a, b, c, hab, hbc, h1, h2, h3, rfl⟩ :=
      exists_sorted_triple (SimpleGraph.mem_cliqueFinset_iff.mp hs)
    refine ⟨⟨a, b, c⟩, mem_sigma.mpr ⟨mem_univ a, mem_adjacentPairs.mpr ?_⟩, rfl⟩
    exact ⟨⟨mem_above.mpr ⟨h1, hab⟩, mem_above.mpr ⟨h2, hab.trans hbc⟩⟩, hbc, h3⟩

end LinuxWorkouts.Triangles
