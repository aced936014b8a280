import LinuxWorkouts.Lib.WeightedGraph

/-!
Shortest paths in `c++/dijkstra.cpp`.

`dijkstra` rescans all edges of the settled vertices in every round, and settles the vertex that the
lightest of them leads to. If none does, the round goes on with the defaults: vertex 1 is settled,
again if it was before, at the distance `INT_MAX`.

An `int` sum or product that does not fit is undefined; there is no result then. `Settled` is the
state while every round settles a vertex (`Settled.step_cases`). `dijkstra_reachable_iff` and
`dijkstra_unreachable_iff` say for both kinds of targets exactly when the result is right.
-/

namespace LinuxWorkouts.Dijkstra

open Function List

open WeightedGraph (Reaches IsDistance isDistance_of_frontier isDistance_source)

def INT_MAX : Nat := 2147483647

/-- The matrix of a graph on the vertices 1 to `n`. Row and column 0 are not used. -/
structure Graph (n : Nat) where
  weight : Fin (n + 1) → Fin (n + 1) → Nat
  le_intMax : ∀ u v, weight u v ≤ INT_MAX
  zero_row : ∀ v, weight 0 v = 0
  zero_column : ∀ u, weight u 0 = 0

structure State (n : Nat) where
  dist : Fin (n + 1) → Nat
  visited : Fin (n + 1) → Bool
  activeVerts : List (Fin (n + 1))

/-- `min_dist` and `new_vertex`. -/
structure Choice (n : Nat) where
  minDist : Nat
  newVertex : Fin (n + 1)

section Model

variable {n : Nat} (g : Graph n)

def addInt (a b : Nat) : Option Nat := if a + b ≤ INT_MAX then some (a + b) else none

/-- The body of the inner loop. -/
def scanEdge (s : State n) (curVert : Fin (n + 1)) (best : Choice n) (i : Fin (n + 1)) :
    Option (Choice n) :=
  if g.weight curVert i = 0 then some best
  else
    (addInt (g.weight curVert i) (s.dist curVert)).map fun curDist =>
      if curDist < best.minDist ∧ s.visited i = false then ⟨curDist, i⟩ else best

/-- The inner loop, from vertex 1 on. -/
def scanVertex (s : State n) (best : Choice n) (curVert : Fin (n + 1)) : Option (Choice n) :=
  (finRange (n + 1)).tail.foldlM (scanEdge g s curVert) best

/-- The two loops of a round. -/
def scan (s : State n) : Option (Choice n) := s.activeVerts.foldlM (scanVertex g s) ⟨INT_MAX, 1⟩

def State.settle (s : State n) (best : Choice n) : State n where
  dist := update s.dist best.newVertex best.minDist
  visited := update s.visited best.newVertex true
  activeVerts := s.activeVerts ++ [best.newVertex]

def step (s : State n) : Option (State n) := (scan g s).map s.settle

/-- The outer loop; the first argument is how many rounds `inter_cnt` leaves. -/
def loop (targetVert : Fin (n + 1)) : Nat → State n → Option (State n)
  | 0, s => some s
  | rounds + 1, s =>
    if s.visited targetVert = false then (step g s).bind (loop targetVert rounds) else some s

def init (startVert : Fin (n + 1)) : State n where
  dist := update (fun _ => INT_MAX) startVert 0
  visited := update (fun _ => false) startVert true
  activeVerts := [startVert]

def dijkstra (startVert targetVert : Fin (n + 1)) : Option Int :=
  if n * n ≤ INT_MAX then
    (loop g targetVert (n * n) (init startVert)).map fun s =>
      if s.dist targetVert ≠ INT_MAX then (s.dist targetVert : Int) else -1
  else none

end Model

section Fields

variable {n : Nat} (s : State n) (best : Choice n) (startVert v : Fin (n + 1))

theorem settle_dist :
    (s.settle best).dist v = if v = best.newVertex then best.minDist else s.dist v :=
  update_apply ..

theorem settle_visited :
    (s.settle best).visited v = if v = best.newVertex then true else s.visited v :=
  update_apply ..

theorem mem_settle_activeVerts :
    v ∈ (s.settle best).activeVerts ↔ v ∈ s.activeVerts ∨ v = best.newVertex := by
  simp [State.settle]

theorem init_dist : (init startVert).dist v = if v = startVert then 0 else INT_MAX :=
  update_apply (fun _ => INT_MAX) startVert 0 v

theorem init_visited : (init startVert).visited v = if v = startVert then true else false :=
  update_apply (fun _ => false) startVert true v

theorem mem_init_activeVerts : v ∈ (init startVert).activeVerts ↔ v = startVert := mem_singleton

end Fields

/-! ### A round -/

section Round

variable {n : Nat} {g : Graph n} {s : State n} {best best' : Choice n}

def Fits (g : Graph n) (s : State n) (edge : Fin (n + 1) × Fin (n + 1)) : Prop :=
  g.weight edge.1 edge.2 ≠ 0 → g.weight edge.1 edge.2 + s.dist edge.1 ≤ INT_MAX

def Open (g : Graph n) (s : State n) (edge : Fin (n + 1) × Fin (n + 1)) : Prop :=
  g.weight edge.1 edge.2 ≠ 0 ∧ s.visited edge.2 = false

def edges (s : State n) : List (Fin (n + 1) × Fin (n + 1)) :=
  s.activeVerts.flatMap fun u => (finRange (n + 1)).tail.map fun v => (u, v)

theorem mem_edges {edge : Fin (n + 1) × Fin (n + 1)} :
    edge ∈ edges s ↔ edge.1 ∈ s.activeVerts ∧ edge.2 ≠ 0 := by
  have htail : ∀ v : Fin (n + 1), v ∈ (finRange (n + 1)).tail ↔ v ≠ 0 := by
    intro v
    rw [finRange_succ, tail_cons, mem_map]
    constructor
    · rintro ⟨w, -, rfl⟩
      exact Fin.succ_ne_zero w
    · intro hv
      exact ⟨v.pred hv, mem_finRange _, Fin.succ_pred v hv⟩
  obtain ⟨u, v⟩ := edge
  simp only [edges, mem_flatMap, mem_map, htail, Prod.mk.injEq]
  constructor
  · rintro ⟨_, hu, _, hv, rfl, rfl⟩
    exact ⟨hu, hv⟩
  · rintro ⟨hu, hv⟩
    exact ⟨u, hu, v, hv, rfl, rfl⟩

theorem mem_edges_of_weight {u v : Fin (n + 1)} (hu : u ∈ s.activeVerts) (huv : g.weight u v ≠ 0) :
    (u, v) ∈ edges s := by
  refine mem_edges.mpr ⟨hu, ?_⟩
  rintro rfl
  exact huv (g.zero_column u)

theorem scan_eq : scan g s =
    (edges s).foldlM (fun best edge => scanEdge g s edge.1 best edge.2) ⟨INT_MAX, 1⟩ := by
  rw [scan, edges]
  generalize (⟨INT_MAX, 1⟩ : Choice n) = best
  induction s.activeVerts generalizing best with
  | nil => rfl
  | cons u us ih =>
    rw [foldlM_cons, flatMap_cons, foldlM_append, foldlM_map]
    refine bind_congr fun best' => ?_
    exact ih best'

theorem scanEdge_cases (best : Choice n) {edge : Fin (n + 1) × Fin (n + 1)}
    (hfits : Fits g s edge) :
    ∃ next, scanEdge g s edge.1 best edge.2 = some next ∧
      ((next = best ∧ (Open g s edge → best.minDist ≤ g.weight edge.1 edge.2 + s.dist edge.1)) ∨
        (Open g s edge ∧ next = ⟨g.weight edge.1 edge.2 + s.dist edge.1, edge.2⟩ ∧
          next.minDist < best.minDist)) := by
  unfold scanEdge
  by_cases hzero : g.weight edge.1 edge.2 = 0
  · exact ⟨best, if_pos hzero, .inl ⟨rfl, fun hopen => absurd hzero hopen.1⟩⟩
  · rw [if_neg hzero, addInt, if_pos (hfits hzero), Option.map_some]
    refine ⟨_, rfl, ?_⟩
    by_cases htaken : g.weight edge.1 edge.2 + s.dist edge.1 < best.minDist ∧
        s.visited edge.2 = false
    · rw [if_pos htaken]
      exact .inr ⟨⟨hzero, htaken.2⟩, rfl, htaken.1⟩
    · rw [if_neg htaken]
      exact .inl ⟨rfl, fun hopen => not_lt.mp fun hlt => htaken ⟨hlt, hopen.2⟩⟩

/-- What a loop over edges leaves: the lightest of the open ones, or what it began with. -/
def Chosen (g : Graph n) (s : State n) (list : List (Fin (n + 1) × Fin (n + 1)))
    (best next : Choice n) : Prop :=
  (∀ edge ∈ list, Open g s edge → next.minDist ≤ g.weight edge.1 edge.2 + s.dist edge.1) ∧
    (next = best ∨ next.minDist < best.minDist ∧ ∃ edge ∈ list, Open g s edge ∧
      next = ⟨g.weight edge.1 edge.2 + s.dist edge.1, edge.2⟩)

theorem scanEdges_chosen {list : List (Fin (n + 1) × Fin (n + 1))}
    (hfits : ∀ edge ∈ list, Fits g s edge) (best : Choice n) :
    ∃ next, list.foldlM (fun best edge => scanEdge g s edge.1 best edge.2) best = some next ∧
      Chosen g s list best next := by
  induction list generalizing best with
  | nil => exact ⟨best, rfl, fun edge hedge => absurd hedge not_mem_nil, .inl rfl⟩
  | cons edge list ih =>
    obtain ⟨mid, hmid, hcase⟩ := scanEdge_cases best (hfits edge mem_cons_self)
    obtain ⟨next, hnext, hleast, hfrom⟩ := ih (fun e he => hfits e (mem_cons_of_mem _ he)) mid
    refine ⟨next, ?_, ?_, ?_⟩
    · rw [foldlM_cons, hmid]
      exact hnext
    · have hle : next.minDist ≤ mid.minDist := by
        rcases hfrom with rfl | ⟨hlt, -⟩
        · exact le_rfl
        · exact hlt.le
      rintro e he hopen
      rcases mem_cons.mp he with rfl | he
      · rcases hcase with ⟨rfl, hkeep⟩ | ⟨-, rfl, -⟩
        · exact hle.trans (hkeep hopen)
        · exact hle
      · exact hleast e he hopen
    · rcases hfrom with rfl | ⟨hlt, e, he, hopen, rfl⟩
      · rcases hcase with ⟨rfl, -⟩ | ⟨hopen, rfl, hlt⟩
        · exact .inl rfl
        · exact .inr ⟨hlt, edge, mem_cons_self, hopen, rfl⟩
      · refine .inr ⟨?_, e, mem_cons_of_mem _ he, hopen, rfl⟩
        rcases hcase with ⟨rfl, -⟩ | ⟨-, -, hmidlt⟩
        · exact hlt
        · exact hlt.trans hmidlt

theorem scan_chosen (hfits : ∀ edge ∈ edges s, Fits g s edge) :
    ∃ next, scan g s = some next ∧ Chosen g s (edges s) ⟨INT_MAX, 1⟩ next := by
  rw [scan_eq]
  exact scanEdges_chosen hfits _

theorem scan_eq_none {edge : Fin (n + 1) × Fin (n + 1)} (hedge : edge ∈ edges s)
    (hover : ¬ Fits g s edge) : scan g s = none := by
  obtain ⟨hzero, hlarge⟩ := Classical.not_imp.mp hover
  rw [scan_eq]
  obtain ⟨before, after, hsplit⟩ := append_of_mem hedge
  rw [hsplit, foldlM_append]
  refine Option.bind_eq_none_iff.mpr fun best _ => ?_
  rw [foldlM_cons, scanEdge, if_neg hzero, addInt, if_neg hlarge]
  rfl

end Round

/-! ### Settled vertices -/

section Settling

variable {n : Nat} {g : Graph n} {startVert targetVert : Fin (n + 1)} {s s' : State n}

/-- The vertices visited so far are at their distance, and nothing is known of the others. -/
structure Settled (g : Graph n) (startVert : Fin (n + 1)) (s : State n) : Prop where
  start_mem : startVert ∈ s.activeVerts
  nodup : s.activeVerts.Nodup
  ne_zero : ∀ v ∈ s.activeVerts, v ≠ 0
  visited_iff : ∀ v, s.visited v = true ↔ v ∈ s.activeVerts
  exact : ∀ v ∈ s.activeVerts, IsDistance g.weight startVert v (s.dist v)
  lt : ∀ v ∈ s.activeVerts, s.dist v < INT_MAX
  unknown : ∀ v ∉ s.activeVerts, s.dist v = INT_MAX

theorem Settled.init (hstart : startVert ≠ 0) : Settled g startVert (init startVert) where
  start_mem := (mem_init_activeVerts ..).mpr rfl
  nodup := nodup_singleton _
  ne_zero v hv := (mem_init_activeVerts ..).mp hv ▸ hstart
  visited_iff v := by
    rw [init_visited, mem_init_activeVerts]
    simp
  exact v hv := by
    rw [mem_init_activeVerts] at hv
    rw [init_dist, if_pos hv, hv]
    exact isDistance_source
  lt v hv := by
    rw [mem_init_activeVerts] at hv
    rw [init_dist, if_pos hv]
    exact Nat.zero_lt_succ _
  unknown v hv := by
    rw [mem_init_activeVerts] at hv
    rw [init_dist, if_neg hv]

theorem Settled.visited_eq_false (h : Settled g startVert s) {v : Fin (n + 1)} :
    s.visited v = false ↔ v ∉ s.activeVerts := by
  rw [← h.visited_iff, Bool.not_eq_true]

theorem length_le_of_nodup {list : List (Fin (n + 1))} (hnodup : list.Nodup)
    (hne : ∀ v ∈ list, v ≠ 0) : list.length ≤ n := by
  have hsub : list.toFinset ⊆ Finset.univ.erase 0 := by
    intro v hv
    exact Finset.mem_erase.mpr ⟨hne v (mem_toFinset.mp hv), Finset.mem_univ v⟩
  have hcard := Finset.card_le_card hsub
  rw [toFinset_card_of_nodup hnodup, Finset.card_erase_of_mem (Finset.mem_univ _),
    Finset.card_univ, Fintype.card_fin] at hcard
  exact hcard

section

variable (h : Settled g startVert s)
include h

theorem Settled.length_le : s.activeVerts.length ≤ n := length_le_of_nodup h.nodup h.ne_zero

theorem Settled.length_lt {v : Fin (n + 1)} (hv : v ≠ 0) (hnot : v ∉ s.activeVerts) :
    s.activeVerts.length < n := by
  refine length_le_of_nodup (nodup_cons.mpr ⟨hnot, h.nodup⟩) fun w hw => ?_
  rcases mem_cons.mp hw with rfl | hw
  · exact hv
  · exact h.ne_zero w hw

theorem Settled.exists_open {v : Fin (n + 1)} {d : Nat} (hv : v ∉ s.activeVerts)
    (hreach : Reaches g.weight startVert v d) :
    ∃ edge ∈ edges s, Open g s edge ∧ g.weight edge.1 edge.2 + s.dist edge.1 ≤ d := by
  obtain ⟨u, hu, w, hw, e, huw, hreach', hle⟩ :=
    hreach.exists_frontier (S := {v | v ∈ s.activeVerts}) h.start_mem hv
  refine ⟨(u, w), mem_edges_of_weight hu huw, ⟨huw, h.visited_eq_false.mpr hw⟩, ?_⟩
  have hdist := (h.exact u hu).2 hreach'
  dsimp only at hdist ⊢
  omega

theorem Settled.settle {edge : Fin (n + 1) × Fin (n + 1)} (hedge : edge ∈ edges s)
    (hopen : Open g s edge) (hlt : g.weight edge.1 edge.2 + s.dist edge.1 < INT_MAX)
    (hleast : ∀ e ∈ edges s, Open g s e →
      g.weight edge.1 edge.2 + s.dist edge.1 ≤ g.weight e.1 e.2 + s.dist e.1) :
    Settled g startVert (s.settle ⟨g.weight edge.1 edge.2 + s.dist edge.1, edge.2⟩) := by
  obtain ⟨u, v⟩ := edge
  obtain ⟨hu, hv0⟩ := mem_edges.mp hedge
  have hv : v ∉ s.activeVerts := h.visited_eq_false.mp hopen.2
  have hother : ∀ x ∈ s.activeVerts, x ≠ v := fun x hx heq => hv (heq ▸ hx)
  have hdistance : IsDistance g.weight startVert v (g.weight u v + s.dist u) := by
    rw [Nat.add_comm (g.weight u v)]
    refine isDistance_of_frontier (S := {v | v ∈ s.activeVerts}) h.start_mem h.exact hu hv
      hopen.1 ?_
    intro x hx w hw hxw
    have hle := hleast (x, w) (mem_edges_of_weight hx hxw) ⟨hxw, h.visited_eq_false.mpr hw⟩
    dsimp only at hle
    omega
  refine ⟨mem_append_left _ h.start_mem, ?_, ?_, ?_, ?_, ?_, ?_⟩
  · exact h.nodup.append (nodup_singleton v) (by simpa using hv)
  · intro x hx
    rcases (mem_settle_activeVerts ..).mp hx with hx | rfl
    · exact h.ne_zero x hx
    · exact hv0
  · intro x
    rw [settle_visited, mem_settle_activeVerts, ← h.visited_iff]
    split <;> simp [*]
  · intro x hx
    rcases (mem_settle_activeVerts ..).mp hx with hx | rfl
    · rw [settle_dist, if_neg (hother x hx)]
      exact h.exact x hx
    · rw [settle_dist, if_pos rfl]
      exact hdistance
  · intro x hx
    rcases (mem_settle_activeVerts ..).mp hx with hx | rfl
    · rw [settle_dist, if_neg (hother x hx)]
      exact h.lt x hx
    · rw [settle_dist, if_pos rfl]
      exact hlt
  · intro x hx
    rw [mem_settle_activeVerts, not_or] at hx
    rw [settle_dist, if_neg hx.2]
    exact h.unknown x hx.1

theorem Settled.step_cases :
    (step g s = none ∧ ∃ edge ∈ edges s, ¬ Fits g s edge) ∨
      (∃ s', step g s = some s' ∧ Settled g startVert s' ∧
        ∃ v, s'.activeVerts = s.activeVerts ++ [v]) ∨
      (step g s = some (s.settle ⟨INT_MAX, 1⟩) ∧ (∀ edge ∈ edges s, Fits g s edge) ∧
        ∀ edge ∈ edges s, Open g s edge → INT_MAX ≤ g.weight edge.1 edge.2 + s.dist edge.1) := by
  by_cases hfits : ∀ edge ∈ edges s, Fits g s edge
  · obtain ⟨next, hscan, hleast, hnext | ⟨hlt, edge, hedge, hopen, hnext⟩⟩ := scan_chosen hfits
    · subst hnext
      exact .inr (.inr ⟨by rw [step, hscan, Option.map_some], hfits, hleast⟩)
    · subst hnext
      refine .inr (.inl ⟨_, by rw [step, hscan, Option.map_some], ?_, edge.2, rfl⟩)
      exact h.settle hedge hopen hlt hleast
  · obtain ⟨edge, hedge⟩ := not_forall.mp hfits
    obtain ⟨hedge, hover⟩ := Classical.not_imp.mp hedge
    exact .inl ⟨by rw [step, scan_eq_none hedge hover, Option.map_none], edge, hedge, hover⟩

end

end Settling

/-! ### Runs -/

section Runs

variable {n : Nat} {g : Graph n} {startVert targetVert : Fin (n + 1)} {s : State n}

/-- Every sum of a distance below `INT_MAX` and the weight of an edge fits into an `int`. -/
def NoOverflow (g : Graph n) (startVert : Fin (n + 1)) : Prop :=
  ∀ v d, IsDistance g.weight startVert v d → d < INT_MAX →
    ∀ w, g.weight v w ≠ 0 → g.weight v w + d ≤ INT_MAX

theorem Settled.fits (h : Settled g startVert s) (hno : NoOverflow g startVert)
    {edge : Fin (n + 1) × Fin (n + 1)} (hedge : edge ∈ edges s) : Fits g s edge := by
  obtain ⟨hu, -⟩ := mem_edges.mp hedge
  exact hno edge.1 _ (h.exact edge.1 hu) (h.lt edge.1 hu) edge.2

theorem Settled.loop_reachable (h : Settled g startVert s) (hno : NoOverflow g startVert) {d : Nat}
    (hd : IsDistance g.weight startVert targetVert d) (hlt : d < INT_MAX) {rounds : Nat}
    (hrounds : n < rounds + s.activeVerts.length) :
    ∃ s', loop g targetVert rounds s = some s' ∧ s'.dist targetVert = d := by
  induction rounds generalizing s with
  | zero =>
    have hle := h.length_le
    omega
  | succ rounds ih =>
    by_cases hmem : targetVert ∈ s.activeVerts
    · refine ⟨s, ?_, (h.exact _ hmem).unique hd⟩
      rw [loop, if_neg (by rw [h.visited_eq_false]; exact not_not.mpr hmem)]
    · rw [loop, if_pos (h.visited_eq_false.mpr hmem)]
      rcases h.step_cases with ⟨-, edge, hedge, hover⟩ | ⟨s', hstep, h', v, hactive⟩ |
        ⟨-, -, hstuck⟩
      · exact absurd (h.fits hno hedge) hover
      · rw [hstep, Option.bind_some]
        refine ih h' ?_
        rw [hactive, length_append, length_singleton]
        omega
      · obtain ⟨edge, hedge, hopen, hle⟩ := h.exists_open hmem hd.1
        exact absurd (hstuck edge hedge hopen) (by omega)

def Stuck (g : Graph n) (s : State n) : Prop :=
  (∀ edge ∈ edges s, Fits g s edge) ∧
    ∀ edge ∈ edges s, Open g s edge → INT_MAX ≤ g.weight edge.1 edge.2 + s.dist edge.1

theorem Settled.noOverflow_of_stuck (h : Settled g startVert s) (hstuck : Stuck g s) :
    NoOverflow g startVert := by
  intro v d hd hlt w hw
  have hmem : v ∈ s.activeVerts := by
    by_contra hnot
    obtain ⟨edge, hedge, hopen, hle⟩ := h.exists_open hnot hd.1
    exact absurd (hstuck.2 edge hedge hopen) (by omega)
  have hfits := hstuck.1 (v, w) (mem_edges_of_weight hmem hw) hw
  rwa [(h.exact v hmem).unique hd] at hfits

theorem Settled.loop_unreachable (h : Settled g startVert s) (htarget : targetVert ≠ 0)
    (hun : ∀ d, ¬ Reaches g.weight startVert targetVert d) {rounds : Nat}
    (hrounds : n < rounds + s.activeVerts.length) :
    (loop g targetVert rounds s = none ∧ ¬ NoOverflow g startVert) ∨
      ∃ k s₁, loop g targetVert rounds s = loop g targetVert (k + 1) (s₁.settle ⟨INT_MAX, 1⟩) ∧
        Settled g startVert s₁ ∧ Stuck g s₁ := by
  have hnot : targetVert ∉ s.activeVerts := fun hmem => hun _ (h.exact _ hmem).1
  induction rounds generalizing s with
  | zero =>
    have hle := h.length_le
    omega
  | succ rounds ih =>
    rw [loop, if_pos (h.visited_eq_false.mpr hnot)]
    rcases h.step_cases with ⟨hnone, edge, hedge, hover⟩ | ⟨s', hstep, h', v, hactive⟩ |
      ⟨hstep, hfits, hstuck⟩
    · exact .inl ⟨by rw [hnone, Option.bind_none], fun hno => hover (h.fits hno hedge)⟩
    · rw [hstep, Option.bind_some]
      refine ih h' ?_ fun hmem => hun _ (h'.exact _ hmem).1
      rw [hactive, length_append, length_singleton]
      omega
    · have hlength := h.length_lt htarget hnot
      obtain ⟨k, rfl⟩ : ∃ k, rounds = k + 1 := ⟨rounds - 1, by omega⟩
      refine .inr ⟨k, s, ?_, h, hfits, hstuck⟩
      rw [hstep, Option.bind_some]

/-- The target is at `INT_MAX`, and no round changes that. -/
structure Waiting (g : Graph n) (targetVert : Fin (n + 1)) (s : State n) : Prop where
  stuck : Stuck g s
  dist : s.dist targetVert = INT_MAX

theorem step_of_stuck (hstuck : Stuck g s) : step g s = some (s.settle ⟨INT_MAX, 1⟩) := by
  obtain ⟨next, hscan, hleast, rfl | ⟨hlt, edge, hedge, hopen, rfl⟩⟩ := scan_chosen hstuck.1
  · rw [step, hscan, Option.map_some]
  · exact absurd (hstuck.2 edge hedge hopen) (Nat.not_le.mpr hlt)

theorem Waiting.settle (h : Waiting g targetVert s) (hone : ∀ w, g.weight 1 w = 0) :
    Waiting g targetVert (s.settle ⟨INT_MAX, 1⟩) := by
  have hsame : ∀ edge ∈ edges (s.settle ⟨INT_MAX, 1⟩), g.weight edge.1 edge.2 ≠ 0 →
      edge ∈ edges s ∧ (s.settle ⟨INT_MAX, 1⟩).dist edge.1 = s.dist edge.1 := by
    intro edge hedge hweight
    obtain ⟨hu, hv⟩ := mem_edges.mp hedge
    have hne : edge.1 ≠ 1 := by
      intro heq
      exact hweight (heq ▸ hone edge.2)
    refine ⟨mem_edges.mpr ⟨((mem_settle_activeVerts ..).mp hu).resolve_right hne, hv⟩, ?_⟩
    rw [settle_dist, if_neg hne]
  refine ⟨⟨fun edge hedge hweight => ?_, fun edge hedge hopen => ?_⟩, ?_⟩
  · obtain ⟨hold, hdist⟩ := hsame edge hedge hweight
    rw [hdist]
    exact h.stuck.1 edge hold hweight
  · obtain ⟨hold, hdist⟩ := hsame edge hedge hopen.1
    rw [hdist]
    refine h.stuck.2 edge hold ⟨hopen.1, ?_⟩
    have hvisited := hopen.2
    rw [settle_visited] at hvisited
    split at hvisited
    · cases hvisited
    · exact hvisited
  · rw [settle_dist, h.dist]
    split <;> rfl

theorem Waiting.loop (h : Waiting g targetVert s) (hone : ∀ w, g.weight 1 w = 0) (rounds : Nat) :
    ∃ s', loop g targetVert rounds s = some s' ∧ s'.dist targetVert = INT_MAX := by
  induction rounds generalizing s with
  | zero => exact ⟨s, rfl, h.dist⟩
  | succ rounds ih =>
    rw [Dijkstra.loop]
    split
    · rw [step_of_stuck h.stuck, Option.bind_some]
      exact ih (h.settle hone)
    · exact ⟨s, rfl, h.dist⟩

theorem Settled.loop_stuck (h : Settled g startVert s) (hstuck : Stuck g s)
    (hnot : targetVert ∉ s.activeVerts) (k : Nat) :
    if targetVert = 1 ∨ ∀ w, g.weight 1 w = 0 then
      ∃ s', loop g targetVert (k + 1) (s.settle ⟨INT_MAX, 1⟩) = some s' ∧
        s'.dist targetVert = INT_MAX
    else loop g targetVert (k + 1) (s.settle ⟨INT_MAX, 1⟩) = none := by
  have hwaiting : Waiting g targetVert s := ⟨hstuck, h.unknown _ hnot⟩
  by_cases hone : ∀ w, g.weight 1 w = 0
  · rw [if_pos (.inr hone)]
    exact (hwaiting.settle hone).loop hone (k + 1)
  · by_cases htarget : targetVert = 1
    · rw [if_pos (.inl htarget)]
      refine ⟨s.settle ⟨INT_MAX, 1⟩, ?_, ?_⟩
      · rw [loop, settle_visited, if_pos htarget, if_neg (by simp)]
      · rw [settle_dist, if_pos htarget]
    · rw [if_neg (not_or.mpr ⟨htarget, hone⟩)]
      obtain ⟨w, hw⟩ := not_forall.mp hone
      have hvisited : (s.settle ⟨INT_MAX, 1⟩).visited targetVert = false := by
        rw [settle_visited, if_neg htarget]
        exact h.visited_eq_false.mpr hnot
      have hedge : ((1, w) : Fin (n + 1) × Fin (n + 1)) ∈ edges (s.settle ⟨INT_MAX, 1⟩) :=
        mem_edges_of_weight ((mem_settle_activeVerts ..).mpr (.inr rfl)) hw
      have hover : ¬ Fits g (s.settle ⟨INT_MAX, 1⟩) (1, w) := by
        intro hfits
        have hsum := hfits hw
        rw [settle_dist, if_pos rfl] at hsum
        dsimp only at hsum
        omega
      rw [loop, if_pos hvisited, step, scan_eq_none hedge hover]
      rfl

end Runs

/-! ### The results -/

section Results

variable {n : Nat} {startVert targetVert : Fin (n + 1)}

theorem noOverflow_of_sum {g : Graph n} (hsum : ∑ u, ∑ v, g.weight u v < INT_MAX) :
    NoOverflow g startVert := by
  intro v d hd _ w _
  have hrow : g.weight v w ≤ ∑ x, g.weight v x :=
    Finset.single_le_sum (fun _ _ => Nat.zero_le _) (Finset.mem_univ w)
  have hle := hd.add_sum_le
  omega

/-- **A target that can be reached.** If all weights together are below `INT_MAX`, the result is the
least weight of a path as long as `verts_cnt * verts_cnt` fits into an `int`. -/
theorem dijkstra_reachable_iff (g : Graph n) (hstart : startVert ≠ 0)
    (hsum : ∑ u, ∑ v, g.weight u v < INT_MAX) {d : Nat}
    (hd : IsDistance g.weight startVert targetVert d) :
    dijkstra g startVert targetVert = some (d : Int) ↔ n * n ≤ INT_MAX := by
  unfold dijkstra
  by_cases hfit : n * n ≤ INT_MAX
  · have hlt : d < INT_MAX := by
      have hle := hd.add_sum_le
      omega
    have hrounds : n < n * n + (init startVert).activeVerts.length :=
      Nat.lt_succ_of_le (Nat.le_mul_self n)
    obtain ⟨s, hloop, hdist⟩ :=
      (Settled.init hstart).loop_reachable (noOverflow_of_sum hsum) hd hlt hrounds
    rw [if_pos hfit, hloop, Option.map_some, hdist, if_pos hlt.ne]
    exact iff_of_true rfl hfit
  · rw [if_neg hfit]
    exact iff_of_false (Option.some_ne_none _).symm hfit

def oneEdge (n : Nat) (u v : Fin (n + 1)) (hu : u ≠ 0) (hv : v ≠ 0) : Graph n where
  weight a b := if a = u ∧ b = v then 1 else 0
  le_intMax a b := by
    split <;> decide
  zero_row b := if_neg fun h => hu h.1.symm
  zero_column a := if_neg fun h => hv h.2.symm

section OneEdge

variable {u v : Fin (n + 1)} {hu : u ≠ 0} {hv : v ≠ 0}

theorem oneEdge_weight (a b : Fin (n + 1)) :
    (oneEdge n u v hu hv).weight a b = if a = u ∧ b = v then 1 else 0 := rfl

theorem isDistance_oneEdge (hne : u ≠ v) : IsDistance (oneEdge n u v hu hv).weight u v 1 := by
  have hweight : (oneEdge n u v hu hv).weight u v = 1 := if_pos ⟨rfl, rfl⟩
  constructor
  · have hreach : Reaches (oneEdge n u v hu hv).weight u v
        (0 + (oneEdge n u v hu hv).weight u v) := .snoc .nil (by rw [hweight]; exact one_ne_zero)
    rwa [hweight] at hreach
  · intro d hd
    cases hd with
    | nil => exact absurd rfl hne
    | snoc _ hedge => exact Nat.le_add_left_of_le (Nat.one_le_iff_ne_zero.mpr hedge)

theorem sum_oneEdge : ∑ a, ∑ b, (oneEdge n u v hu hv).weight a b = 1 := by
  simp only [oneEdge_weight, ite_and]
  simp

theorem reaches_oneEdge {startVert x : Fin (n + 1)} {d : Nat}
    (h : Reaches (oneEdge n u v hu hv).weight startVert x d) :
    x = startVert ∨ x = v ∧ startVert = u := by
  induction h with
  | nil => exact .inl rfl
  | @snoc a b d _ hedge ih =>
    rw [oneEdge_weight] at hedge
    obtain ⟨rfl, rfl⟩ : a = u ∧ b = v := by
      by_contra hnot
      exact hedge (if_neg hnot)
    rcases ih with rfl | ⟨rfl, rfl⟩
    · exact .inr ⟨rfl, rfl⟩
    · exact .inl rfl

end OneEdge

theorem dijkstra_reachable_one_edge :
    dijkstra (oneEdge 2 1 2 (by decide) (by decide)) 1 2 = some 1 :=
  (dijkstra_reachable_iff _ (by decide) (by rw [sum_oneEdge]; decide)
    (isDistance_oneEdge (by decide))).mpr (by decide)

/-- From 46341 vertices on the product in the test of the loop does not fit, and even one edge is
not found. -/
theorem large_graph_undefined :
    ∑ a, ∑ b, (oneEdge 46341 1 2 (by decide) (by decide)).weight a b < INT_MAX ∧
      IsDistance (oneEdge 46341 1 2 (by decide) (by decide)).weight 1 2 1 ∧
      dijkstra (oneEdge 46341 1 2 (by decide) (by decide)) 1 2 = none := by
  refine ⟨by rw [sum_oneEdge]; decide, isDistance_oneEdge (by decide), ?_⟩
  rw [dijkstra, if_neg (by decide)]

/-- **A target that cannot be reached.** The result is -1 exactly if the product and all sums up to
the last settled vertex fit, and the default vertex does no harm: it is the target, or no edge
leaves it. -/
theorem dijkstra_unreachable_iff (g : Graph n) (hstart : startVert ≠ 0) (htarget : targetVert ≠ 0)
    (hun : ∀ d, ¬ Reaches g.weight startVert targetVert d) :
    dijkstra g startVert targetVert = some (-1) ↔
      n * n ≤ INT_MAX ∧ NoOverflow g startVert ∧ (targetVert = 1 ∨ ∀ w, g.weight 1 w = 0) := by
  unfold dijkstra
  by_cases hfit : n * n ≤ INT_MAX
  · have hrounds : n < n * n + (init startVert).activeVerts.length :=
      Nat.lt_succ_of_le (Nat.le_mul_self n)
    rw [if_pos hfit]
    rcases (Settled.init hstart).loop_unreachable htarget hun hrounds with
      ⟨hnone, hover⟩ | ⟨k, s, hloop, hsettled, hstuck⟩
    · rw [hnone]
      exact iff_of_false (by simp) fun h => hover h.2.1
    · have hnot : targetVert ∉ s.activeVerts := fun hmem => hun _ (hsettled.exact _ hmem).1
      have hend := hsettled.loop_stuck hstuck hnot k
      have hno := hsettled.noOverflow_of_stuck hstuck
      rw [hloop]
      split at hend
      · next hharmless =>
          obtain ⟨s', hs', hdist⟩ := hend
          rw [hs', Option.map_some, hdist, if_neg (not_not.mpr rfl)]
          exact iff_of_true rfl ⟨hfit, hno, hharmless⟩
      · next hharm =>
          rw [hend]
          exact iff_of_false (by simp) fun h => hharm h.2.2
  · rw [if_neg hfit]
    exact iff_of_false (by simp) fun h => hfit h.1

end Results

/-- The edge leads to vertex 1 and no further. -/
theorem dijkstra_unreachable_one_edge :
    dijkstra (oneEdge 3 2 1 (by decide) (by decide)) 2 3 = some (-1) := by
  refine (dijkstra_unreachable_iff _ (by decide) (by decide) fun d hd => ?_).mpr
    ⟨by decide, noOverflow_of_sum (by rw [sum_oneEdge]; decide), .inr (by decide)⟩
  rcases reaches_oneEdge hd with h | ⟨h, -⟩
  · exact absurd h (by decide)
  · exact absurd h (by decide)

/-- No edge leaves vertex 2. The first round enters vertex 1 at `INT_MAX`, and the second one adds
the weight of the edge from there to vertex 3. -/
theorem default_vertex_overflows :
    (∀ d, ¬ Reaches (oneEdge 3 1 3 (by decide) (by decide)).weight 2 3 d) ∧
      dijkstra (oneEdge 3 1 3 (by decide) (by decide)) 2 3 = none := by
  refine ⟨fun d hd => ?_, by decide⟩
  rcases reaches_oneEdge hd with h | ⟨-, h⟩
  · exact absurd h (by decide)
  · exact absurd h (by decide)

end LinuxWorkouts.Dijkstra
