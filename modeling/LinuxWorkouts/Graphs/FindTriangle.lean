import Mathlib.Tactic.Linarith
import Mathlib.Algebra.BigOperators.Fin
import Mathlib.Algebra.Order.BigOperators.Group.Finset
import LinuxWorkouts.Lib.AdjacencyLists
import LinuxWorkouts.Lib.Loops
import LinuxWorkouts.Lib.Triangles

/-!
The triangles of `utils/math/graphs/find_triangle/find_triangle.cpp`.

`trianglesCnt` puts the neighbours of a vertex that are still to come into a queue and colours them
blue. Each vertex taken from the queue turns red and counts its blue neighbours that are not red
yet, so that it counts the pairs with a vertex further back in the queue. The colours are copied for
every call; `visited` stays. The counter is a natural number, and `countTriangles_lt` says that it
fits into a `size_t` whenever `main` can read the graph.
-/

namespace LinuxWorkouts.FindTriangle

open Function List

open Triangles (adjacentPairs mem_adjacentPairs above mem_above card_adjacentPairs_insert
  card_cliqueFinset_three)

variable {n : Nat}

/-- The adjacency lists of a graph on the vertices 1 to `n` without loops and multiple edges. -/
structure Graph (n : Nat) where
  lists : Fin (n + 1) → List (Fin (n + 1))
  nodup : ∀ v, (lists v).Nodup
  symm : ∀ {u v}, v ∈ lists u → u ∈ lists v
  loopless : ∀ v, v ∉ lists v
  zero : lists 0 = []

structure VertexColors where
  isRed : Bool
  isBlue : Bool
  isBlack : Bool

abbrev Colors (n : Nat) := Fin (n + 1) → VertexColors

abbrev Visited (n : Nat) := Fin (n + 1) → Bool

/-! ### The functions -/

def setRed (vc : Colors n) (v : Fin (n + 1)) : Colors n :=
  update vc v { vc v with isRed := true }

def setBlue (vc : Colors n) (v : Fin (n + 1)) : Colors n :=
  update vc v { vc v with isBlue := true }

def setBlack (vc : Colors n) (v : Fin (n + 1)) : Colors n :=
  update vc v { vc v with isBlack := true }

/-- The body of the loop that fills the queue. -/
def enqueue (visited : Visited n) (s : List (Fin (n + 1)) × Colors n) (u : Fin (n + 1)) :
    List (Fin (n + 1)) × Colors n :=
  if visited u = false then (s.1 ++ [u], setBlue s.2 u) else s

/-- The body of the inner loop. -/
def countNeighbour (visited : Visited n) (s : Colors n × Nat) (u : Fin (n + 1)) : Colors n × Nat :=
  if (s.1 u).isRed = false ∧ visited u = false then
    let vc := setBlack s.1 u
    if (vc u).isBlack ∧ (vc u).isBlue then (vc, s.2 + 1) else (vc, s.2)
  else s

def drain (lists : Fin (n + 1) → List (Fin (n + 1))) (visited : Visited n) :
    List (Fin (n + 1)) → Colors n × Nat → Colors n × Nat
  | [], s => s
  | curVertex :: q, s =>
    drain lists visited q
      ((lists curVertex).foldl (countNeighbour visited) (setRed s.1 curVertex, s.2))

/-- The count, and `visited` as the call leaves it. -/
def trianglesCnt (lists : Fin (n + 1) → List (Fin (n + 1))) (vc : Colors n) (visited : Visited n)
    (vertex : Fin (n + 1)) : Nat × Visited n :=
  let vc := setRed vc vertex
  let visited := update visited vertex true
  let filled := (lists vertex).foldl (enqueue visited) ([], vc)
  ((drain lists visited filled.1 (filled.2, 0)).2, visited)

def noColors : Colors n := fun _ => ⟨false, false, false⟩

/-- The body of the loop of `main`. -/
def countFrom (lists : Fin (n + 1) → List (Fin (n + 1))) (s : Nat × Visited n) (i : Fin (n + 1)) :
    Nat × Visited n :=
  if s.2 i = false then
    let res := trianglesCnt lists noColors s.2 i
    (s.1 + res.1, res.2)
  else s

/-- What `main` prints. -/
def countTriangles (lists : Fin (n + 1) → List (Fin (n + 1))) : Nat :=
  ((finRange (n + 1)).tail.foldl (countFrom lists) (0, fun _ => false)).1

/-! ### The loops of a call -/

section Colors

variable (vc : Colors n) (v u : Fin (n + 1))

theorem setRed_isRed : (setRed vc v u).isRed = if u = v then true else (vc u).isRed := by
  rw [setRed, update_apply]
  split <;> rfl

theorem setRed_isBlue : (setRed vc v u).isBlue = (vc u).isBlue := by
  rw [setRed, update_apply]
  split
  · next h => rw [h]
  · rfl

theorem setBlue_isRed : (setBlue vc v u).isRed = (vc u).isRed := by
  rw [setBlue, update_apply]
  split
  · next h => rw [h]
  · rfl

theorem setBlue_isBlue : (setBlue vc v u).isBlue = if u = v then true else (vc u).isBlue := by
  rw [setBlue, update_apply]
  split <;> rfl

theorem setBlack_isRed : (setBlack vc v u).isRed = (vc u).isRed := by
  rw [setBlack, update_apply]
  split
  · next h => rw [h]
  · rfl

theorem setBlack_isBlue : (setBlack vc v u).isBlue = (vc u).isBlue := by
  rw [setBlack, update_apply]
  split
  · next h => rw [h]
  · rfl

theorem setBlack_self : (setBlack vc v v).isBlack = true := by
  rw [setBlack, update_self]

end Colors

section Loops

variable {lists : Fin (n + 1) → List (Fin (n + 1))} {visited : Visited n}

theorem foldl_enqueue (visited : Visited n) (l q : List (Fin (n + 1))) (vc : Colors n) :
    (l.foldl (enqueue visited) (q, vc)).1 = q ++ l.filter (visited · = false) ∧
      (∀ u, ((l.foldl (enqueue visited) (q, vc)).2 u).isRed = (vc u).isRed) ∧
      ∀ u, ((l.foldl (enqueue visited) (q, vc)).2 u).isBlue = true ↔
        (vc u).isBlue = true ∨ u ∈ l.filter (visited · = false) := by
  induction l generalizing q vc with
  | nil => simp
  | cons v l ih =>
    rw [foldl_cons, enqueue]
    by_cases hv : visited v = false
    · obtain ⟨hqueue, hred, hblue⟩ := ih (q ++ [v]) (setBlue vc v)
      rw [if_pos hv, filter_cons_of_pos (by simpa using hv)]
      refine ⟨by rw [hqueue, append_assoc, singleton_append], fun u => ?_, fun u => ?_⟩
      · rw [hred, setBlue_isRed]
      · rw [hblue, setBlue_isBlue, mem_cons]
        split <;> simp_all
    · rw [if_neg hv, filter_cons_of_neg (by simpa using hv)]
      exact ih q vc

/-- The vertices that a neighbour counts: blue, and neither red nor visited. -/
def Waiting (visited : Visited n) (vc : Colors n) (u : Fin (n + 1)) : Prop :=
  (vc u).isRed = false ∧ visited u = false ∧ (vc u).isBlue = true

instance (vc : Colors n) : DecidablePred (Waiting visited vc) := fun u =>
  inferInstanceAs (Decidable ((vc u).isRed = false ∧ visited u = false ∧ (vc u).isBlue = true))

theorem countNeighbour_snd (s : Colors n × Nat) (u : Fin (n + 1)) :
    (countNeighbour visited s u).2 = s.2 + if Waiting visited s.1 u then 1 else 0 := by
  unfold countNeighbour
  by_cases hnew : (s.1 u).isRed = false ∧ visited u = false
  · rw [if_pos hnew]
    dsimp only
    rw [setBlack_self, setBlack_isBlue]
    by_cases hblue : (s.1 u).isBlue = true
    · have hwaiting : Waiting visited s.1 u := ⟨hnew.1, hnew.2, hblue⟩
      rw [if_pos ⟨rfl, hblue⟩, if_pos hwaiting]
    · have hwaiting : ¬ Waiting visited s.1 u := fun h => hblue h.2.2
      rw [if_neg fun h => hblue h.2, if_neg hwaiting, add_zero]
  · have hwaiting : ¬ Waiting visited s.1 u := fun h => hnew ⟨h.1, h.2.1⟩
    rw [if_neg hnew, if_neg hwaiting, add_zero]

theorem countNeighbour_waiting (s : Colors n × Nat) (u w : Fin (n + 1)) :
    Waiting visited (countNeighbour visited s u).1 w ↔ Waiting visited s.1 w := by
  unfold countNeighbour
  split
  · dsimp only
    split
    · rw [Waiting, setBlack_isRed, setBlack_isBlue, Waiting]
    · rw [Waiting, setBlack_isRed, setBlack_isBlue, Waiting]
  · rfl

theorem foldl_countNeighbour (visited : Visited n) (l : List (Fin (n + 1))) (s : Colors n × Nat) :
    (l.foldl (countNeighbour visited) s).2 = s.2 + l.countP (Waiting visited s.1) ∧
      ∀ w, Waiting visited (l.foldl (countNeighbour visited) s).1 w ↔ Waiting visited s.1 w := by
  induction l generalizing s with
  | nil => exact ⟨rfl, fun w => Iff.rfl⟩
  | cons u l ih =>
    obtain ⟨hcount, hwaiting⟩ := ih (countNeighbour visited s u)
    have hsame : ∀ w, Waiting visited (countNeighbour visited s u).1 w ↔ Waiting visited s.1 w :=
      countNeighbour_waiting s u
    refine ⟨?_, fun w => (hwaiting w).trans (hsame w)⟩
    rw [foldl_cons, hcount, countNeighbour_snd, countP_cons]
    simp only [hsame, decide_eq_true_eq]
    omega

end Loops

/-! ### The counts -/

section Counts

def Graph.toSimpleGraph (g : Graph n) : SimpleGraph (Fin (n + 1)) where
  Adj u v := v ∈ g.lists u
  symm := ⟨fun _ _ h => g.symm h⟩
  loopless := ⟨g.loopless⟩

instance (g : Graph n) : DecidableRel g.toSimpleGraph.Adj := fun u v =>
  inferInstanceAs (Decidable (v ∈ g.lists u))

variable {g : Graph n} {visited : Visited n}

theorem adj_iff {u v : Fin (n + 1)} : g.toSimpleGraph.Adj u v ↔ v ∈ g.lists u := Iff.rfl

theorem countP_mem (v : Fin (n + 1)) (q : List (Fin (n + 1))) :
    (g.lists v).countP (· ∈ q) = (q.toFinset.filter (g.toSimpleGraph.Adj v)).card := by
  have hnodup : ((g.lists v).filter (· ∈ q)).Nodup := (g.nodup v).filter _
  rw [countP_eq_length_filter, ← toFinset_card_of_nodup hnodup]
  congr 1
  ext u
  simp [adj_iff, and_comm]

theorem drain_eq {q : List (Fin (n + 1))} (hq : q.Nodup) {s : Colors n × Nat}
    (hwaiting : ∀ u, Waiting visited s.1 u ↔ u ∈ q) :
    (drain g.lists visited q s).2 =
      s.2 + (adjacentPairs g.toSimpleGraph q.toFinset).card := by
  induction q generalizing s with
  | nil => rfl
  | cons v q ih =>
    obtain ⟨hv, hq⟩ := nodup_cons.mp hq
    have hrest : ∀ u, Waiting visited (setRed s.1 v) u ↔ u ∈ q := by
      intro u
      have hu := hwaiting u
      rw [mem_cons, Waiting] at hu
      rw [Waiting, setRed_isRed, setRed_isBlue]
      split
      · next huv => simp [huv, hv]
      · next huv => rw [hu, or_iff_right huv]
    obtain ⟨hcount, hsame⟩ := foldl_countNeighbour visited (g.lists v) (setRed s.1 v, s.2)
    rw [drain, ih hq fun u => (hsame u).trans (hrest u), hcount]
    simp only [hrest]
    rw [countP_mem, toFinset_cons, card_adjacentPairs_insert (by simpa using hv), add_assoc]

theorem ne_zero_of_mem {u v : Fin (n + 1)} (h : u ∈ g.lists v) : u ≠ 0 := by
  rintro rfl
  have hback := g.symm h
  rw [g.zero] at hback
  exact not_mem_nil hback

theorem trianglesCnt_eq {vertex : Fin (n + 1)}
    (hvisited : ∀ u, visited u = true ↔ u ≠ 0 ∧ u < vertex) :
    (trianglesCnt g.lists noColors visited vertex).1 =
      (adjacentPairs g.toSimpleGraph (above g.toSimpleGraph vertex)).card := by
  have hnot : ∀ u ∈ g.lists vertex,
      update visited vertex true u = false ↔ vertex < u := by
    intro u hu
    have hne : u ≠ vertex := fun h => g.loopless vertex (h ▸ hu)
    rw [update_of_ne hne, ← Bool.not_eq_true, hvisited]
    have hzero := ne_zero_of_mem hu
    omega
  obtain ⟨hqueue, hred, hblue⟩ := foldl_enqueue (update visited vertex true)
    (g.lists vertex) [] (setRed noColors vertex)
  unfold trianglesCnt
  dsimp only
  rw [hqueue, nil_append, drain_eq ((g.nodup vertex).filter _), Nat.zero_add]
  · congr 2
    ext u
    rw [mem_toFinset, mem_filter, decide_eq_true_eq, mem_above, adj_iff]
    exact and_congr_right (hnot u)
  · intro u
    rw [Waiting, hred, hblue, setRed_isRed, setRed_isBlue, mem_filter, decide_eq_true_eq]
    constructor
    · rintro ⟨-, -, h | h⟩
      · exact absurd h (by simp [noColors])
      · exact h
    · rintro ⟨hmem, hfree⟩
      have hne : u ≠ vertex := fun h => g.loopless vertex (h ▸ hmem)
      exact ⟨by rw [if_neg hne]; rfl, hfree, .inr ⟨hmem, hfree⟩⟩

theorem trianglesCnt_snd (lists : Fin (n + 1) → List (Fin (n + 1))) (vc : Colors n)
    (vertex : Fin (n + 1)) :
    (trianglesCnt lists vc visited vertex).2 = update visited vertex true := rfl

theorem adjacentPairs_above_zero :
    (adjacentPairs g.toSimpleGraph (above g.toSimpleGraph 0)).card = 0 := by
  rw [Finset.card_eq_zero, Finset.eq_empty_iff_forall_notMem]
  intro p hp
  have hadj := (mem_above.mp (mem_adjacentPairs.mp hp).1.1).1
  rw [adj_iff, g.zero] at hadj
  exact not_mem_nil hadj

theorem countTriangles_eq_sum (g : Graph n) :
    countTriangles g.lists =
      ∑ v, (adjacentPairs g.toSimpleGraph (above g.toSimpleGraph v)).card := by
  have hsplit : finRange (n + 1) = 0 :: (finRange (n + 1)).tail := by
    rw [finRange_succ]
    rfl
  have hsorted := pairwise_lt_finRange (n + 1)
  have hmem : ∀ u : Fin (n + 1), u ∈ (finRange (n + 1)).tail ↔ u ≠ 0 := by
    intro u
    have hu := mem_finRange u
    rw [hsplit] at hu hsorted
    have hpos := (pairwise_cons.mp hsorted).1
    constructor
    · intro h
      exact (hpos u h).ne'
    · intro h
      exact (mem_cons.mp hu).resolve_left h
  have hloop := Loops.foldl_invariant (f := countFrom g.lists) (s := (0, fun _ => false))
    (l := (finRange (n + 1)).tail)
    (P := fun done s => (∀ u, s.2 u = true ↔ u ∈ done) ∧ s.1 = (done.map fun v =>
      (adjacentPairs g.toSimpleGraph (above g.toSimpleGraph v)).card).sum) (by simp) ?_
  · rw [countTriangles, hloop.2, Fin.sum_univ_def, hsplit, map_cons, sum_cons,
      adjacentPairs_above_zero, Nat.zero_add]
    rfl
  · rintro done i rest ⟨cnt, visited⟩ hl ⟨hvisited, hcnt⟩
    have htail : (finRange (n + 1)).tail.Pairwise (· < ·) := hsorted.tail
    have hbefore : ∀ u, visited u = true ↔ u ≠ 0 ∧ u < i := by
      intro u
      rw [hvisited]
      constructor
      · intro hu
        exact ⟨(hmem u).mp (hl ▸ mem_append_left _ hu), Loops.rel_of_mem_done htail hl hu⟩
      · rintro ⟨hzero, hlt⟩
        exact Loops.mem_done_of_not_rel htail hl ((hmem u).mpr hzero) hlt.ne hlt.not_gt
    have hfree : visited i = false := by
      rw [← Bool.not_eq_true, hbefore]
      exact fun h => lt_irrefl i h.2
    rw [countFrom, if_pos hfree]
    dsimp only at hcnt ⊢
    rw [trianglesCnt_eq hbefore, trianglesCnt_snd]
    refine ⟨fun u => ?_, by rw [hcnt]; simp⟩
    rw [update_apply, mem_append, mem_singleton]
    split
    · next h => simp [h]
    · next h => rw [hvisited, or_iff_left h]

/-- **Triangles.** The printed number is that of the sets of three vertices that are pairwise
adjacent. -/
theorem countTriangles_eq_card (g : Graph n) :
    countTriangles g.lists = (g.toSimpleGraph.cliqueFinset 3).card := by
  rw [countTriangles_eq_sum, card_cliqueFinset_three]

theorem card_adjacentPairs_le (q : Finset (Fin (n + 1))) :
    (adjacentPairs g.toSimpleGraph q).card ≤ ∑ v, (g.lists v).length := by
  have hentries : ∑ v, (g.lists v).length =
      (Finset.univ.sigma fun v => (g.lists v).toFinset).card := by
    rw [Finset.card_sigma]
    exact Finset.sum_congr rfl fun v _ => (toFinset_card_of_nodup (g.nodup v)).symm
  rw [hentries]
  refine Finset.card_le_card_of_injOn (fun p => ⟨p.1, p.2⟩) ?_ ?_
  · intro p hp
    have hadj := (mem_adjacentPairs.mp (Finset.mem_coe.mp hp)).2.2
    exact Finset.mem_coe.mpr (Finset.mem_sigma.mpr
      ⟨Finset.mem_univ _, mem_toFinset.mpr (adj_iff.mp hadj)⟩)
  · rintro ⟨a, b⟩ - ⟨a', b'⟩ - h
    cases h
    rfl

theorem countTriangles_lt (hn : n < 2 ^ 31) (hm : ∑ v, (g.lists v).length < 2 ^ 32) :
    countTriangles g.lists < 2 ^ 64 := by
  rw [countTriangles_eq_sum]
  calc ∑ v, (adjacentPairs g.toSimpleGraph (above g.toSimpleGraph v)).card
      ≤ ∑ _v : Fin (n + 1), ∑ v, (g.lists v).length :=
        Finset.sum_le_sum fun v _ => card_adjacentPairs_le _
    _ = (n + 1) * ∑ v, (g.lists v).length := by
        rw [Finset.sum_const, Finset.card_univ, Fintype.card_fin, smul_eq_mul]
    _ < 2 ^ 64 := by nlinarith

end Counts

/-! ### Reading -/

section Reading

variable {edges : List (Fin (n + 1) × Fin (n + 1))}

def readGraph (edges : List (Fin (n + 1) × Fin (n + 1))) : Fin (n + 1) → List (Fin (n + 1)) :=
  AdjacencyLists.ofEdges edges

/-- No loops, and no edge twice, in either direction. -/
structure Simple (edges : List (Fin (n + 1) × Fin (n + 1))) : Prop where
  ne_zero : ∀ e ∈ edges, e.1 ≠ 0 ∧ e.2 ≠ 0
  ne : ∀ e ∈ edges, e.1 ≠ e.2
  once : edges.Pairwise fun e e' => e' ≠ e ∧ e' ≠ e.swap

theorem Simple.nodup (h : Simple edges) (v : Fin (n + 1)) : (readGraph edges v).Nodup := by
  rw [readGraph, AdjacencyLists.ofEdges_apply, nodup_flatMap]
  constructor
  · intro e he
    have hne := h.ne e he
    unfold AdjacencyLists.ends
    split_ifs with h1 h2
    · exact absurd (h1.symm.trans h2) hne
    all_goals simp
  · refine h.once.imp fun {e e'} honce u hu hu' => ?_
    rcases AdjacencyLists.mem_ends.mp hu with rfl | rfl <;>
      rcases AdjacencyLists.mem_ends.mp hu' with rfl | rfl
    · exact honce.1 rfl
    · exact honce.2 rfl
    · exact honce.2 rfl
    · exact honce.1 rfl

theorem Simple.readGraph_zero (h : Simple edges) : readGraph edges 0 = [] := by
  refine eq_nil_iff_forall_not_mem.mpr fun u hmem => ?_
  rcases AdjacencyLists.mem_ofEdges.mp hmem with he | he
  · exact (h.ne_zero _ he).1 rfl
  · exact (h.ne_zero _ he).2 rfl

theorem Simple.not_mem_self (h : Simple edges) (v : Fin (n + 1)) : v ∉ readGraph edges v := by
  intro hmem
  rcases AdjacencyLists.mem_ofEdges.mp hmem with he | he
  · exact h.ne _ he rfl
  · exact h.ne _ he rfl

/-- What `main` builds from a simple list of edges are adjacency lists of a graph. -/
def Graph.read (edges : List (Fin (n + 1) × Fin (n + 1))) (h : Simple edges) : Graph n where
  lists := readGraph edges
  nodup := h.nodup
  symm hmem := AdjacencyLists.mem_ofEdges.mpr (AdjacencyLists.mem_ofEdges.mp hmem).symm
  loopless := h.not_mem_self
  zero := h.readGraph_zero

/-- **`main`**: the edges read determine the graph whose triangles are counted, and the number is
below the limit of the counter. -/
theorem countTriangles_read (h : Simple edges) (hn : n + 1 < 2 ^ 31) (hm : edges.length < 2 ^ 31) :
    (∀ u v, (Graph.read edges h).toSimpleGraph.Adj u v ↔ (u, v) ∈ edges ∨ (v, u) ∈ edges) ∧
      countTriangles (readGraph edges) = ((Graph.read edges h).toSimpleGraph.cliqueFinset 3).card ∧
      countTriangles (readGraph edges) < 2 ^ 64 := by
  refine ⟨fun u v => AdjacencyLists.mem_ofEdges, ?_, ?_⟩
  · rw [card_cliqueFinset_three]
    exact countTriangles_eq_sum (Graph.read edges h)
  refine countTriangles_lt (g := Graph.read edges h) (by omega) ?_
  have hsum : ∑ v, (readGraph edges v).length = 2 * edges.length :=
    AdjacencyLists.sum_length_ofEdges edges
  have hlists : ∑ v, ((Graph.read edges h).lists v).length = 2 * edges.length := hsum
  omega

theorem countTriangles_read_three :
    countTriangles (readGraph (n := 3) [(1, 2), (2, 3), (3, 1)]) < 2 ^ 64 :=
  (countTriangles_read ⟨by decide, by decide, by decide⟩ (by decide) (by decide)).2.2

end Reading

end LinuxWorkouts.FindTriangle
