import Mathlib.Data.Fintype.Card
import LinuxWorkouts.Lib.AdjacencyLists
import LinuxWorkouts.Lib.EulerTrails
import LinuxWorkouts.Lib.Loops

/-!
The decision of `utils/math/graphs/eulerian_cycle`: is there an Eulerian cycle?

`checkIfEulerianCycleExists` searches the graph from vertex 1 and looks at the lengths of the
adjacency lists, in which a loop stands twice. `simpleDfs` has fuel for its recursion; the number of
vertices that are not visited is enough (`simpleDfs_explored`). `check_iff` connects the decision
with closed trails through all edges and vertices.
-/

namespace LinuxWorkouts.Eulerian

open Function List

open EulerTrails (Trail degree)

variable {n : Nat}

/-! ### The functions -/

structure GraphInfo (n : Nat) where
  adjacencyList : Fin (n + 2) → List (Fin (n + 2))
  edgeMap : Fin (n + 2) × Fin (n + 2) → Int

def increment (edgeMap : Fin (n + 2) × Fin (n + 2) → Int) (edge : Fin (n + 2) × Fin (n + 2)) :
    Fin (n + 2) × Fin (n + 2) → Int :=
  update edgeMap edge (edgeMap edge + 1)

/-- The body of the loop of `readGraphInfo`. -/
def readEdge (info : GraphInfo n) (edge : Fin (n + 2) × Fin (n + 2)) : GraphInfo n where
  adjacencyList := AdjacencyLists.addEdge info.adjacencyList edge
  edgeMap := increment (increment info.edgeMap edge) edge.swap

def readGraphInfo (edges : List (Fin (n + 2) × Fin (n + 2))) : GraphInfo n :=
  edges.foldl readEdge ⟨fun _ => [], fun _ => 0⟩

/-- `none`: out of fuel. -/
def simpleDfs (adjacencyList : Fin (n + 2) → List (Fin (n + 2))) :
    Nat → (Fin (n + 2) → Bool) → Fin (n + 2) → Option (Fin (n + 2) → Bool)
  | 0, _, _ => none
  | fuel + 1, visited, vertex =>
    (adjacencyList vertex).foldlM
      (fun visited next =>
        if visited next = false then simpleDfs adjacencyList fuel visited next else some visited)
      (update visited vertex true)

def isConnected (adjacencyList : Fin (n + 2) → List (Fin (n + 2))) : Option Bool :=
  (simpleDfs adjacencyList (n + 2) (fun _ => false) 1).map fun visited =>
    (finRange (n + 2)).tail.all visited

/-- The verdict, and the degrees, which stay zero if the graph is not connected. -/
def checkIfEulerianCycleExists (adjacencyList : Fin (n + 2) → List (Fin (n + 2))) :
    Option (Bool × (Fin (n + 2) → Int)) :=
  (isConnected adjacencyList).map fun res =>
    if res = false then (res, fun _ => 0)
    else
      ((finRange (n + 2)).all fun index => (adjacencyList index).length % 2 = 0,
        fun index => if index > 0 then (adjacencyList index).length else 0)

/-! ### The search -/

variable {visited visited' : Fin (n + 2) → Bool} {vertex : Fin (n + 2)}

section Search

variable {adjacencyList : Fin (n + 2) → List (Fin (n + 2))}

/-- What a call of `simpleDfs` does to `visited`. -/
structure Explored (adjacencyList : Fin (n + 2) → List (Fin (n + 2)))
    (visited : Fin (n + 2) → Bool) (vertex : Fin (n + 2)) (visited' : Fin (n + 2) → Bool) :
    Prop where
  mono : ∀ v, visited v = true → visited' v = true
  start : visited' vertex = true
  sound : ∀ v, visited' v = true → visited v = true ∨
    Relation.ReflTransGen (fun u v => v ∈ adjacencyList u) vertex v
  closed : ∀ u, visited' u = true → visited u = false → ∀ v ∈ adjacencyList u, visited' v = true

/-- The same for the loop, when some of the neighbours are done. The vertex itself is not closed
before the loop has ended. -/
structure Exploring (adjacencyList : Fin (n + 2) → List (Fin (n + 2)))
    (visited : Fin (n + 2) → Bool) (vertex : Fin (n + 2)) (done : List (Fin (n + 2)))
    (visited' : Fin (n + 2) → Bool) : Prop where
  mono : ∀ v, visited v = true → visited' v = true
  start : visited' vertex = true
  sound : ∀ v, visited' v = true → visited v = true ∨
    Relation.ReflTransGen (fun u v => v ∈ adjacencyList u) vertex v
  closed : ∀ u, visited' u = true → visited u = false → u ≠ vertex →
    ∀ v ∈ adjacencyList u, visited' v = true
  done : ∀ v ∈ done, visited' v = true

theorem Exploring.init :
    Exploring adjacencyList visited vertex [] (update visited vertex true) := by
  have hold : ∀ v, v ≠ vertex → update visited vertex true v = visited v :=
    fun v hv => update_of_ne hv ..
  refine ⟨fun v hv => ?_, update_self .., fun v hv => ?_, fun u hu hfree hne => ?_, by simp⟩
  · by_cases h : v = vertex
    · rw [h, update_self]
    · rwa [hold v h]
  · by_cases h : v = vertex
    · exact .inr (h ▸ .refl)
    · rw [hold v h] at hv
      exact .inl hv
  · rw [hold u hne, hfree] at hu
    exact absurd hu Bool.false_ne_true

theorem Exploring.skip {next : Fin (n + 2)} {done : List (Fin (n + 2))}
    (h : Exploring adjacencyList visited vertex done visited') (hnext : visited' next = true) :
    Exploring adjacencyList visited vertex (done ++ [next]) visited' := by
  refine ⟨h.mono, h.start, h.sound, h.closed, fun v hv => ?_⟩
  rcases mem_append.mp hv with hv | hv
  · exact h.done v hv
  · rwa [mem_singleton.mp hv]

theorem Exploring.call {visited'' : Fin (n + 2) → Bool} {next : Fin (n + 2)}
    {done : List (Fin (n + 2))} (h : Exploring adjacencyList visited vertex done visited')
    (hedge : next ∈ adjacencyList vertex) (hcall : Explored adjacencyList visited' next visited'') :
    Exploring adjacencyList visited vertex (done ++ [next]) visited'' := by
  refine ⟨fun v hv => hcall.mono v (h.mono v hv), hcall.mono _ h.start, fun v hv => ?_,
    fun u hu hfree hne v hv => ?_, fun v hv => ?_⟩
  · rcases hcall.sound v hv with hv | hreach
    · exact h.sound v hv
    · exact .inr (.head hedge hreach)
  · cases hold : visited' u with
    | false => exact hcall.closed u hu hold v hv
    | true => exact hcall.mono v (h.closed u hold hfree hne v hv)
  · rcases mem_append.mp hv with hv | hv
    · exact hcall.mono v (h.done v hv)
    · rw [mem_singleton.mp hv]
      exact hcall.start

theorem Exploring.explored
    (h : Exploring adjacencyList visited vertex (adjacencyList vertex) visited') :
    Explored adjacencyList visited vertex visited' := by
  refine ⟨h.mono, h.start, h.sound, fun u hu hfree v hv => ?_⟩
  by_cases hne : u = vertex
  · exact h.done v (hne ▸ hv)
  · exact h.closed u hu hfree hne v hv

def unvisited (visited : Fin (n + 2) → Bool) : Nat :=
  (Finset.univ.filter fun v => visited v = false).card

theorem unvisited_lt (hmono : ∀ v, visited v = true → visited' v = true)
    (hfree : visited vertex = false) (hvertex : visited' vertex = true) :
    unvisited visited' < unvisited visited := by
  refine Finset.card_lt_card (Finset.ssubset_iff_of_subset ?_ |>.mpr ⟨vertex, ?_, ?_⟩)
  · intro v hv
    have hv' := (Finset.mem_filter.mp hv).2
    refine Finset.mem_filter.mpr ⟨Finset.mem_univ v, Bool.eq_false_iff.mpr fun hold => ?_⟩
    rw [hmono v hold] at hv'
    exact Bool.false_ne_true hv'.symm
  · exact Finset.mem_filter.mpr ⟨Finset.mem_univ vertex, hfree⟩
  · simp [hvertex]

theorem simpleDfs_explored {fuel : Nat} (hfree : visited vertex = false)
    (hfuel : unvisited visited ≤ fuel) :
    ∃ visited', simpleDfs adjacencyList fuel visited vertex = some visited' ∧
      Explored adjacencyList visited vertex visited' := by
  induction fuel generalizing visited vertex with
  | zero =>
    have hmarked : unvisited (fun _ : Fin (n + 2) => true) < unvisited visited :=
      unvisited_lt (fun _ _ => rfl) hfree rfl
    exact absurd hmarked (by omega)
  | succ fuel ih =>
    have hloop := Loops.foldlM_invariant
      (f := fun visited next => if visited next = false
        then simpleDfs adjacencyList fuel visited next else some visited)
      (l := adjacencyList vertex) (s := update visited vertex true)
      (P := Exploring adjacencyList visited vertex) .init ?_
    · obtain ⟨visited', hrun, hexploring⟩ := hloop
      exact ⟨visited', hrun, hexploring.explored⟩
    · intro done next rest visited' hl hexploring
      have hedge : next ∈ adjacencyList vertex := hl ▸ by simp
      by_cases hnext : visited' next = false
      · have hless := unvisited_lt hexploring.mono hfree hexploring.start
        obtain ⟨visited'', hrun, hcall⟩ := ih hnext (by omega)
        exact ⟨visited'', by rw [if_pos hnext, hrun], hexploring.call hedge hcall⟩
      · exact ⟨visited', if_neg hnext, hexploring.skip (Bool.not_eq_false _ ▸ hnext)⟩

theorem isConnected_eq (adjacencyList : Fin (n + 2) → List (Fin (n + 2))) :
    ∃ res, isConnected adjacencyList = some res ∧
      (res = true ↔ ∀ v, v ≠ 0 →
        Relation.ReflTransGen (fun u v => v ∈ adjacencyList u) 1 v) := by
  have hfuel : unvisited (fun _ : Fin (n + 2) => false) ≤ n + 2 :=
    (Finset.card_le_univ _).trans_eq (Fintype.card_fin _)
  obtain ⟨visited, hrun, hexplored⟩ : ∃ visited,
      simpleDfs adjacencyList (n + 2) (fun _ => false) 1 = some visited ∧
        Explored adjacencyList (fun _ => false) 1 visited := simpleDfs_explored rfl hfuel
  have hreach : ∀ v, visited v = true ↔
      Relation.ReflTransGen (fun u v => v ∈ adjacencyList u) 1 v := by
    intro v
    constructor
    · intro hv
      exact (hexplored.sound v hv).resolve_left Bool.false_ne_true
    · intro hv
      induction hv with
      | refl => exact hexplored.start
      | tail _ hstep ih => exact hexplored.closed _ ih rfl _ hstep
  refine ⟨_, by rw [isConnected, hrun, Option.map_some], ?_⟩
  rw [all_eq_true]
  refine forall_congr' fun v => ?_
  rw [hreach]
  refine imp_congr_left ?_
  rw [finRange_succ, tail_cons]
  constructor
  · intro hv
    obtain ⟨u, -, rfl⟩ := mem_map.mp hv
    exact Fin.succ_ne_zero u
  · intro hv
    exact mem_map.mpr ⟨v.pred hv, mem_finRange _, Fin.succ_pred v hv⟩

end Search

/-! ### The graph that is read -/

section Reading

variable {edges : List (Fin (n + 2) × Fin (n + 2))} {u v : Fin (n + 2)}

def edgeSet (edges : List (Fin (n + 2) × Fin (n + 2))) : Multiset (Sym2 (Fin (n + 2))) :=
  edges.map fun e => s(e.1, e.2)

theorem foldl_readEdge (info : GraphInfo n) :
    (edges.foldl readEdge info).adjacencyList =
      edges.foldl AdjacencyLists.addEdge info.adjacencyList := by
  induction edges generalizing info with
  | nil => rfl
  | cons edge edges ih => rw [foldl_cons, ih, foldl_cons, readEdge]

theorem readGraphInfo_adjacencyList :
    (readGraphInfo edges).adjacencyList = AdjacencyLists.ofEdges edges := foldl_readEdge _

theorem mem_adjacencyList :
    v ∈ (readGraphInfo edges).adjacencyList u ↔ s(u, v) ∈ edgeSet edges := by
  rw [readGraphInfo_adjacencyList, AdjacencyLists.mem_ofEdges, edgeSet, Multiset.mem_coe, mem_map]
  constructor
  · rintro (h | h)
    · exact ⟨_, h, rfl⟩
    · exact ⟨_, h, Sym2.eq_swap⟩
  · rintro ⟨⟨a, b⟩, hmem, heq⟩
    rcases Sym2.eq_iff.mp heq with ⟨rfl, rfl⟩ | ⟨rfl, rfl⟩
    · exact .inl hmem
    · exact .inr hmem

theorem length_adjacencyList :
    ((readGraphInfo edges).adjacencyList v).length = degree v (edgeSet edges) := by
  rw [readGraphInfo_adjacencyList, AdjacencyLists.ofEdges_apply]
  induction edges with
  | nil => rfl
  | cons edge edges ih =>
    have hends : (AdjacencyLists.ends v edge).length = EulerTrails.endsAt v s(edge.1, edge.2) := by
      rw [EulerTrails.endsAt_mk, AdjacencyLists.ends, length_append, apply_ite length,
        apply_ite length]
      rfl
    have hcons : edgeSet (edge :: edges) = s(edge.1, edge.2) ::ₘ edgeSet edges := rfl
    rw [flatMap_cons, length_append, ih, hends, hcons, EulerTrails.degree_cons]

/-- How often an edge stands in the list of a vertex, and in `edgeMap`: a loop twice. -/
def entries (u v : Fin (n + 2)) : Nat := if u = v then 2 else 1

theorem count_edgeSet_cons (edge : Fin (n + 2) × Fin (n + 2)) :
    entries u v * (edgeSet (edge :: edges)).count s(u, v) =
      entries u v * (edgeSet edges).count s(u, v) +
        ((if (u, v) = edge then 1 else 0) + if (u, v) = edge.swap then 1 else 0) := by
  obtain ⟨a, b⟩ := edge
  have hcons : edgeSet ((a, b) :: edges) = s(a, b) ::ₘ edgeSet edges := rfl
  rw [hcons, Multiset.count_cons, Nat.mul_add]
  unfold entries
  grind

theorem count_adjacencyList :
    ((readGraphInfo edges).adjacencyList u).count v =
      entries u v * (edgeSet edges).count s(u, v) := by
  rw [readGraphInfo_adjacencyList, AdjacencyLists.ofEdges_apply]
  induction edges with
  | nil => rfl
  | cons edge edges ih =>
    have hends : (AdjacencyLists.ends u edge).count v =
        (if (u, v) = edge then 1 else 0) + if (u, v) = edge.swap then 1 else 0 := by
      obtain ⟨a, b⟩ := edge
      unfold AdjacencyLists.ends
      grind
    rw [flatMap_cons, count_append, ih, hends, count_edgeSet_cons, Nat.add_comm]

theorem foldl_readEdge_edgeMap (info : GraphInfo n) :
    (edges.foldl readEdge info).edgeMap (u, v) =
      info.edgeMap (u, v) + (entries u v * (edgeSet edges).count s(u, v) : Nat) := by
  induction edges generalizing info with
  | nil => simp [edgeSet]
  | cons edge edges ih =>
    have hread : (readEdge info edge).edgeMap (u, v) = info.edgeMap (u, v) +
        ((if (u, v) = edge then 1 else 0) + if (u, v) = edge.swap then 1 else 0) := by
      simp only [readEdge, increment, update_apply]
      grind
    rw [foldl_cons, ih, hread, count_edgeSet_cons]
    split_ifs <;> omega

theorem readGraphInfo_edgeMap :
    (readGraphInfo edges).edgeMap (u, v) = (entries u v * (edgeSet edges).count s(u, v) : Nat) := by
  rw [readGraphInfo, foldl_readEdge_edgeMap, zero_add]

end Reading

/-! ### The decision -/

section Decision

/-- A multigraph on the vertices 1 to `n + 1`, with its edges in the order they are read. -/
structure Multigraph (n : Nat) where
  edges : List (Fin (n + 2) × Fin (n + 2))
  ne_zero : ∀ e ∈ edges, e.1 ≠ 0 ∧ e.2 ≠ 0

def HasEulerianCycle (g : Multigraph n) : Prop :=
  ∃ v vs, Trail v v vs (edgeSet g.edges) ∧ ∀ u, u ≠ 0 → u ∈ vs

variable {g : Multigraph n}

theorem ne_zero_of_edge {u v : Fin (n + 2)} (h : s(u, v) ∈ edgeSet g.edges) : u ≠ 0 := by
  obtain ⟨⟨a, b⟩, hmem, heq⟩ := mem_map.mp (Multiset.mem_coe.mp h)
  rcases Sym2.eq_iff.mp heq with ⟨rfl, -⟩ | ⟨-, rfl⟩
  · exact (g.ne_zero _ hmem).1
  · exact (g.ne_zero _ hmem).2

theorem hasEulerianCycle_iff :
    HasEulerianCycle g ↔
      (∀ v, v ≠ 0 → Relation.ReflTransGen (fun u v => s(u, v) ∈ edgeSet g.edges) 1 v) ∧
        ∀ v, Even (degree v (edgeSet g.edges)) := by
  constructor
  · rintro ⟨r, vs, htrail, hall⟩
    have hone : (1 : Fin (n + 2)) ∈ vs := hall 1 (by simp)
    exact ⟨fun v hv => htrail.reachable_of_mem hone (hall v hv), htrail.even_of_closed⟩
  · rintro ⟨hconn, heven⟩
    obtain ⟨vs, htrail⟩ := EulerTrails.exists_euler_trail (r := 1) heven fun x y hxy =>
      hconn x (ne_zero_of_edge hxy)
    exact ⟨1, vs, htrail, fun u hu => htrail.mem_of_reachable (hconn u hu)⟩

theorem check_eq (g : Multigraph n) :
    ∃ res, checkIfEulerianCycleExists (readGraphInfo g.edges).adjacencyList = some res ∧
      (res.1 = true ↔ HasEulerianCycle g) ∧
      (res.1 = true → ∀ v, res.2 v = degree v (edgeSet g.edges)) := by
  obtain ⟨res, hres, hconn⟩ := isConnected_eq (readGraphInfo g.edges).adjacencyList
  simp only [mem_adjacencyList] at hconn
  rw [checkIfEulerianCycleExists, hres, Option.map_some, hasEulerianCycle_iff, ← hconn]
  refine ⟨_, rfl, ?_⟩
  cases res with
  | false => simp
  | true =>
    rw [if_neg (by simp)]
    simp only [all_eq_true, mem_finRange, true_implies, decide_eq_true_eq,
      length_adjacencyList, Nat.even_iff, true_and]
    intro _ v
    split
    · rfl
    · next hzero =>
        have hv : v = 0 := by simpa using hzero
        subst hv
        have hnone : degree 0 (edgeSet g.edges) = 0 := by
          by_contra hne
          obtain ⟨y, hy⟩ := EulerTrails.exists_edge_of_degree hne
          exact ne_zero_of_edge hy rfl
        rw [hnone]
        rfl

/-- **The decision.** It is made, and it is whether there is an Eulerian cycle. -/
theorem check_iff (g : Multigraph n) :
    ∃ res vertexDegree,
      checkIfEulerianCycleExists (readGraphInfo g.edges).adjacencyList = some (res, vertexDegree) ∧
        (res = true ↔ HasEulerianCycle g) := by
  obtain ⟨⟨res, vertexDegree⟩, hrun, hiff, -⟩ := check_eq g
  exact ⟨res, vertexDegree, hrun, hiff⟩

end Decision

end LinuxWorkouts.Eulerian
