import LinuxWorkouts.Graphs.Eulerian

/-!
The vertices that `utils/math/graphs/eulerian_cycle` prints.

`printEulerianCycleVertices` prints a vertex when it is entered and takes its edges one after the
other, each with a call for the other end. When a call has returned, the next edge is taken from a
vertex that was printed long before. `unusedEdges` is what the first edges of the lists lead to: the
edges that are left when the walk from vertex 1 cannot go on.

The counters always stand for the edges that are left (`Counts`). The output passes through three
phases: a walk that goes on from the vertex printed last (`Descending`), a walk that only its
closing edge is missing from (`Closed`), and after a jump an output that can no longer be closed
(`Jumped`). `main_isCycle_iff`: the output is an Eulerian cycle exactly if the walk uses all edges.
-/

namespace LinuxWorkouts.Eulerian

open List

open EulerTrails (Trail degree consecutive)

variable {n : Nat}

/-! ### The functions -/

structure State (n : Nat) where
  vertexDegree : Fin (n + 2) → Int
  visitedEdges : Fin (n + 2) × Fin (n + 2) → Int
  out : List (Fin (n + 2))

def decrement {α : Type} [DecidableEq α] (f : α → Int) (a : α) : α → Int :=
  Function.update f a (f a - 1)

def State.print (s : State n) (vertex : Fin (n + 2)) : State n :=
  { s with out := s.out ++ [vertex] }

/-- The four decrements. -/
def State.take (s : State n) (vertex next : Fin (n + 2)) : State n where
  vertexDegree := decrement (decrement s.vertexDegree vertex) next
  visitedEdges := decrement (decrement s.visitedEdges (vertex, next)) (next, vertex)
  out := s.out

def tryEdge (call : State n → Fin (n + 2) → Option (State n)) (startVertex vertex : Fin (n + 2))
    (s : State n) (next : Fin (n + 2)) : Option (State n) :=
  if s.visitedEdges (vertex, next) > 0 ∧ s.visitedEdges (next, vertex) > 0 ∧
      s.vertexDegree next > 0 then
    let s := s.take vertex next
    if ¬ (next = startVertex ∧ s.vertexDegree next < 1) then call s next else some s
  else some s

/-- `none`: out of fuel. -/
def printEulerianCycleVertices (adjacencyList : Fin (n + 2) → List (Fin (n + 2)))
    (startVertex : Fin (n + 2)) : Nat → State n → Fin (n + 2) → Option (State n)
  | 0, _, _ => none
  | fuel + 1, s, vertex =>
    (adjacencyList vertex).foldlM
      (tryEdge (printEulerianCycleVertices adjacencyList startVertex fuel) startVertex vertex)
      (s.print vertex)

def printFrom (g : Multigraph n) (s : State n) (i : Fin (n + 2)) : Option (State n) :=
  if s.vertexDegree i > 1 then
    printEulerianCycleVertices (readGraphInfo g.edges).adjacencyList i (g.edges.length + 1) s i
  else some s

/-- The loop of `main` behind `YES`. -/
def printCycle (g : Multigraph n) (vertexDegree : Fin (n + 2) → Int) : Option (State n) :=
  (finRange (n + 2)).tail.foldlM (printFrom g)
    ⟨vertexDegree, (readGraphInfo g.edges).edgeMap, []⟩

/-- `main`; what is printed for `NONE` is `none`. -/
def main (g : Multigraph n) : Option (Option (State n)) :=
  (checkIfEulerianCycleExists (readGraphInfo g.edges).adjacencyList).bind fun res =>
    if res.1 = false then some none else (printCycle g res.2).map some

def IsCycle (E : Multiset (Sym2 (Fin (n + 2)))) (out : List (Fin (n + 2))) : Prop :=
  ∃ v rest, out = v :: rest ∧ Trail v v (out ++ [v]) E

/-- The walk that always takes the first edge of the vertex's list that is not used, until there is
none: the edges that it leaves. The last edge back to the start is used without going there. -/
def unusedEdges (adjacencyList : Fin (n + 2) → List (Fin (n + 2))) (start : Fin (n + 2)) :
    Nat → Multiset (Sym2 (Fin (n + 2))) → Fin (n + 2) → Multiset (Sym2 (Fin (n + 2)))
  | 0, R, _ => R
  | steps + 1, R, vertex =>
    match (adjacencyList vertex).find? fun next => s(vertex, next) ∈ R with
    | none => R
    | some next =>
      let R' := R.erase s(vertex, next)
      unusedEdges adjacencyList start steps R'
        (if next = start ∧ degree start R' = 0 then vertex else next)

/-! ### The counters -/

section Counters

variable {s : State n} {R : Multiset (Sym2 (Fin (n + 2)))} {vertex next : Fin (n + 2)}

/-- The counters stand for the edges `R` that are left. -/
structure Counts (s : State n) (R : Multiset (Sym2 (Fin (n + 2)))) : Prop where
  degree : ∀ v, s.vertexDegree v = degree v R
  edges : ∀ u v, s.visitedEdges (u, v) = (entries u v * R.count s(u, v) : Nat)

theorem Counts.print (h : Counts s R) (v : Fin (n + 2)) : Counts (s.print v) R :=
  ⟨h.degree, h.edges⟩

theorem Counts.condition_iff (h : Counts s R) :
    (s.visitedEdges (vertex, next) > 0 ∧ s.visitedEdges (next, vertex) > 0 ∧
      s.vertexDegree next > 0) ↔ s(vertex, next) ∈ R := by
  have hentries : ∀ u v : Fin (n + 2), 0 < entries u v := by
    intro u v
    unfold entries
    split <;> omega
  rw [h.edges, h.edges, h.degree, Sym2.eq_swap (a := next)]
  constructor
  · rintro ⟨hpos, -, -⟩
    exact Multiset.count_pos.mp (Nat.pos_of_mul_pos_left (Int.natCast_pos.mp hpos))
  · intro hmem
    have hcount : 0 < R.count s(vertex, next) := Multiset.count_pos.mpr hmem
    have hdegree := EulerTrails.degree_ne_zero next vertex (Sym2.eq_swap ▸ hmem)
    exact ⟨Int.natCast_pos.mpr (Nat.mul_pos (hentries _ _) hcount),
      Int.natCast_pos.mpr (Nat.mul_pos (hentries _ _) hcount), by omega⟩

theorem Counts.take (h : Counts s R) (hmem : s(vertex, next) ∈ R) :
    Counts (s.take vertex next) (R.erase s(vertex, next)) := by
  obtain ⟨D, rfl⟩ := Multiset.exists_cons_of_mem hmem
  rw [Multiset.erase_cons_head]
  constructor
  · intro v
    have hv := h.degree v
    rw [EulerTrails.degree_cons, EulerTrails.endsAt_mk] at hv
    simp only [State.take, decrement, Function.update_apply]
    grind
  · intro u v
    have huv := h.edges u v
    rw [Multiset.count_cons] at huv
    simp only [State.take, decrement, Function.update_apply]
    unfold entries at huv ⊢
    grind

end Counters

/-! ### The phases of the output -/

section Phases

variable {lists : Fin (n + 2) → List (Fin (n + 2))} {L E R : Multiset (Sym2 (Fin (n + 2)))}
  {start vertex next : Fin (n + 2)} {s : State n}

theorem unusedEdges_of_degree (hzero : degree vertex R = 0) (steps : Nat) :
    unusedEdges lists start steps R vertex = R := by
  cases steps with
  | zero => rfl
  | succ steps =>
    have hnone : (lists vertex).find? (fun next => s(vertex, next) ∈ R) = none := by
      rw [find?_eq_none]
      intro next _ hmem
      exact EulerTrails.degree_ne_zero vertex next (of_decide_eq_true hmem) hzero
    rw [unusedEdges, hnone]

theorem unusedEdges_take {done rest : List (Fin (n + 2))} (hl : lists vertex = done ++ next :: rest)
    (hdone : ∀ u ∈ done, s(vertex, u) ∉ R) (hmem : s(vertex, next) ∈ R) :
    unusedEdges lists start R.card R vertex =
      unusedEdges lists start (R.erase s(vertex, next)).card (R.erase s(vertex, next))
        (if next = start ∧ degree start (R.erase s(vertex, next)) = 0 then vertex else next) := by
  have hfind : (lists vertex).find? (fun next => s(vertex, next) ∈ R) = some next := by
    rw [hl, find?_append, find?_eq_none.mpr fun u hu => by simpa using hdone u hu]
    simp [hmem]
  rw [← Multiset.card_erase_add_one hmem, unusedEdges, hfind]

/-- The output is a walk that goes on from the vertex. As long as no edge back to the start has been
left out of the output, there is a way on. -/
structure Descending (lists : Fin (n + 2) → List (Fin (n + 2)))
    (L E : Multiset (Sym2 (Fin (n + 2))))
    (start : Fin (n + 2)) (s : State n) (R : Multiset (Sym2 (Fin (n + 2)))) (vertex : Fin (n + 2)) :
    Prop where
  unused : unusedEdges lists start R.card R vertex = L
  walk : ∃ W K, Trail start vertex s.out W ∧ W + K + R = E ∧
    (K = 0 ∧ (vertex = start → degree start R ≠ 0) ∨
      (∃ w, K = {s(w, start)}) ∧ degree start R = 0)

/-- The output is a walk without its last edge, and nothing is left at its two ends. -/
structure Closed (L E : Multiset (Sym2 (Fin (n + 2)))) (start : Fin (n + 2)) (s : State n)
    (R : Multiset (Sym2 (Fin (n + 2)))) : Prop where
  unused : R = L
  walk : ∃ p W, Trail start p s.out W ∧ W + {s(p, start)} + R = E ∧
    degree p R = 0 ∧ degree start R = 0

/-- The output goes on behind such a walk, with vertices that do not lead back to it. -/
structure Jumped (L E : Multiset (Sym2 (Fin (n + 2)))) (start : Fin (n + 2)) (s : State n)
    (R : Multiset (Sym2 (Fin (n + 2)))) : Prop where
  unused : L ≠ 0
  walk : ∃ p W before after, s.out = before ++ after ∧ after ≠ [] ∧ Trail start p before W ∧
    W + {s(p, start)} ≤ E ∧ degree p R = 0 ∧ degree start R = 0 ∧
    ∀ y ∈ after, y ≠ p ∧ y ≠ start

theorem take_print_out : ((s.take vertex next).print next).out = s.out ++ [next] := rfl

theorem add_erase {W K : Multiset (Sym2 (Fin (n + 2)))} {e : Sym2 (Fin (n + 2))} (he : e ∈ R)
    (hsum : W + K + R = E) : (e ::ₘ W) + K + R.erase e = E := by
  rw [← hsum, ← Multiset.cons_erase he, Multiset.erase_cons_head, Multiset.cons_add,
    Multiset.cons_add, Multiset.add_cons]

section

variable (h : Descending lists L E start s R vertex)
include h

theorem Descending.take (hmem : s(vertex, next) ∈ R)
    (hunused : unusedEdges lists start (R.erase s(vertex, next)).card (R.erase s(vertex, next))
      next = L) (hgo : next = start → degree start (R.erase s(vertex, next)) ≠ 0) :
    Descending lists L E start ((s.take vertex next).print next)
      (R.erase s(vertex, next)) next := by
  obtain ⟨W, K, htrail, hsum, hphase⟩ := h.walk
  refine ⟨hunused, s(vertex, next) ::ₘ W, K, htrail.snoc next, add_erase hmem hsum, ?_⟩
  rcases hphase with ⟨hK, -⟩ | ⟨hK, hzero⟩
  · exact .inl ⟨hK, hgo⟩
  · exact .inr ⟨hK, EulerTrails.degree_eq_zero_of_le (Multiset.erase_le _ R) hzero⟩

theorem Descending.close (hmem : s(vertex, start) ∈ R)
    (hunused : unusedEdges lists start (R.erase s(vertex, start)).card (R.erase s(vertex, start))
      vertex = L) (hzero : degree start (R.erase s(vertex, start)) = 0) :
    Descending lists L E start (s.take vertex start) (R.erase s(vertex, start)) vertex := by
  obtain ⟨W, K, htrail, hsum, hphase⟩ := h.walk
  have hstart : degree start R ≠ 0 := EulerTrails.degree_ne_zero start vertex (Sym2.eq_swap ▸ hmem)
  rcases hphase with ⟨rfl, -⟩ | ⟨-, hnone⟩
  · refine ⟨hunused, W, {s(vertex, start)}, htrail, ?_, .inr ⟨⟨vertex, rfl⟩, hzero⟩⟩
    have hstep := add_erase hmem hsum
    rwa [add_zero, ← Multiset.singleton_add, add_comm {s(vertex, start)} W] at hstep
  · exact absurd hnone hstart

theorem Descending.closed (heven : ∀ x, Even (degree x E)) (hzero : degree vertex R = 0) :
    Closed L E start s R := by
  obtain ⟨W, K, htrail, hsum, hphase⟩ := h.walk
  have hunused : R = L := (unusedEdges_of_degree hzero _).symm.trans h.unused
  have hW := htrail.even_degree vertex
  have hE := heven vertex
  rw [← hsum, EulerTrails.degree_add, EulerTrails.degree_add, hzero, add_zero] at hE
  rw [if_pos rfl] at hW
  rcases hphase with ⟨rfl, hopen⟩ | ⟨⟨w, rfl⟩, hnone⟩
  · by_cases hvertex : vertex = start
    · exact absurd hzero (hvertex ▸ hopen hvertex)
    · rw [EulerTrails.degree_zero] at hE
      rw [if_neg hvertex] at hW
      grind
  · have hw : w = vertex := by
      by_contra hne
      have hK : degree vertex {s(w, start)} = if vertex = start then 1 else 0 := by
        rw [← Multiset.cons_zero, EulerTrails.degree_cons, EulerTrails.endsAt_mk,
          if_neg (Ne.symm hne), EulerTrails.degree_zero, zero_add, add_zero]
      rw [hK] at hE
      grind
    subst hw
    exact ⟨hunused, w, W, htrail, hsum, hzero, hnone⟩

end

theorem ne_of_degree_eq_zero {x : Fin (n + 2)} (hmem : s(vertex, next) ∈ R) (hx : degree x R = 0) :
    vertex ≠ x ∧ next ≠ x := by
  constructor
  · rintro rfl
    exact EulerTrails.degree_ne_zero vertex next hmem hx
  · rintro rfl
    exact EulerTrails.degree_ne_zero next vertex (Sym2.eq_swap ▸ hmem) hx

theorem Closed.take (h : Closed L E start s R) (hmem : s(vertex, next) ∈ R) :
    next ≠ start ∧
      Jumped L E start ((s.take vertex next).print next) (R.erase s(vertex, next)) := by
  obtain ⟨p, W, htrail, hsum, hp, hstart⟩ := h.walk
  have hnext := (ne_of_degree_eq_zero hmem hstart).2
  have hle : R.erase s(vertex, next) ≤ R := Multiset.erase_le _ R
  refine ⟨hnext, ?_, p, W, s.out, [next], rfl, by simp, htrail, ?_,
    EulerTrails.degree_eq_zero_of_le hle hp, EulerTrails.degree_eq_zero_of_le hle hstart, ?_⟩
  · rintro rfl
    rw [h.unused] at hmem
    exact Multiset.notMem_zero _ hmem
  · rw [← hsum]
    exact Multiset.le_add_right _ _
  · intro y hy
    rw [mem_singleton.mp hy]
    exact ⟨(ne_of_degree_eq_zero hmem hp).2, hnext⟩

theorem Jumped.take (h : Jumped L E start s R) (hmem : s(vertex, next) ∈ R) :
    next ≠ start ∧
      Jumped L E start ((s.take vertex next).print next) (R.erase s(vertex, next)) := by
  obtain ⟨p, W, before, after, hout, hafter, htrail, hle, hp, hstart, hnot⟩ := h.walk
  have hnext := (ne_of_degree_eq_zero hmem hstart).2
  have herase : R.erase s(vertex, next) ≤ R := Multiset.erase_le _ R
  refine ⟨hnext, h.unused, p, W, before, after ++ [next], ?_, by simp, htrail, hle,
    EulerTrails.degree_eq_zero_of_le herase hp, EulerTrails.degree_eq_zero_of_le herase hstart, ?_⟩
  · rw [take_print_out, hout, append_assoc]
  · intro y hy
    rcases mem_append.mp hy with hy | hy
    · exact hnot y hy
    · rw [mem_singleton.mp hy]
      exact ⟨(ne_of_degree_eq_zero hmem hp).2, hnext⟩

theorem Jumped.not_isCycle (h : Jumped L E start s R) : ¬ IsCycle E s.out := by
  obtain ⟨p, W, before, after, hout, hafter, htrail, hle, -, -, hnot⟩ := h.walk
  rintro ⟨v, rest, hv, hcycle⟩
  have hstart : v = start := by
    obtain ⟨tail, rfl⟩ := htrail.exists_cons
    rw [hout] at hv
    exact (cons.inj hv).1.symm
  subst hstart
  have hsplit : E = W + consecutive (p :: (after ++ [v])) := by
    rw [← hcycle.consecutive_eq, hout, append_assoc, htrail.consecutive_append]
  have hmissing : s(p, v) ∉ consecutive (p :: (after ++ [v])) := by
    cases after with
    | nil => exact absurd rfl hafter
    | cons y ys =>
      have hrest := EulerTrails.notMem_consecutive_append (z := v) hnot
      have hy := hnot y mem_cons_self
      simp only [cons_append, consecutive] at hrest ⊢
      grind
  have hcount := Multiset.count_le_of_le s(p, v) hle
  rw [hsplit, Multiset.count_add, Multiset.count_add, Multiset.count_singleton_self,
    Multiset.count_eq_zero_of_notMem hmissing] at hcount
  omega

theorem Closed.isCycle (h : Closed L E start s 0) : IsCycle E s.out := by
  obtain ⟨p, W, htrail, hsum, -, -⟩ := h.walk
  obtain ⟨rest, hrest⟩ := htrail.exists_cons
  refine ⟨start, rest, hrest, ?_⟩
  have hedges : s(p, start) ::ₘ W = E := by
    rw [← hsum, add_zero, add_comm W, Multiset.singleton_add]
  rw [← hedges]
  exact htrail.snoc start

end Phases

/-! ### Calls -/

section Calls

variable {lists : Fin (n + 2) → List (Fin (n + 2))} {L E R R' R'' : Multiset (Sym2 (Fin (n + 2)))}
  {start vertex next : Fin (n + 2)} {s s' : State n} {done : List (Fin (n + 2))}

/-- What a call leaves: no edge at its vertex or at an end of an edge that it has taken. -/
structure Traversed (L E : Multiset (Sym2 (Fin (n + 2)))) (start : Fin (n + 2))
    (R : Multiset (Sym2 (Fin (n + 2)))) (vertex : Fin (n + 2)) (s' : State n)
    (R' : Multiset (Sym2 (Fin (n + 2)))) : Prop where
  counts : Counts s' R'
  le : R' ≤ R
  vertex : degree vertex R' = 0
  touched : ∀ x y, R'.count s(x, y) < R.count s(x, y) → degree y R' = 0
  phase : Closed L E start s' R' ∨ Jumped L E start s' R'

/-- The invariant of the loop. The list of the vertex still has an entry for every edge that is
left, and as long as the walk goes on from the vertex none of those that are done. -/
structure Traversing (lists : Fin (n + 2) → List (Fin (n + 2)))
    (L E : Multiset (Sym2 (Fin (n + 2))))
    (start : Fin (n + 2)) (R : Multiset (Sym2 (Fin (n + 2)))) (vertex : Fin (n + 2))
    (done : List (Fin (n + 2))) (s' : State n) (R' : Multiset (Sym2 (Fin (n + 2)))) : Prop where
  counts : Counts s' R'
  le : R' ≤ R
  left : ∀ u, s(vertex, u) ∈ R' →
    entries vertex u * R'.count s(vertex, u) + done.count u ≤ (lists vertex).count u
  touched : ∀ x y, R'.count s(x, y) < R.count s(x, y) → y = vertex ∨ degree y R' = 0
  phase : Descending lists L E start s' R' vertex ∧ (∀ u ∈ done, s(vertex, u) ∉ R') ∨
    Closed L E start s' R' ∨ Jumped L E start s' R'

theorem Traversing.skip (h : Traversing lists L E start R vertex done s R')
    (hnot : s(vertex, next) ∉ R') :
    Traversing lists L E start R vertex (done ++ [next]) s R' := by
  refine ⟨h.counts, h.le, fun u hu => ?_, h.touched, h.phase.imp_left fun hdesc => ⟨hdesc.1, ?_⟩⟩
  · have hne : u ≠ next := by
      rintro rfl
      exact hnot hu
    rw [count_append, count_singleton, if_neg (by simpa using hne.symm), add_zero]
    exact h.left u hu
  · exact forall_mem_append.mpr ⟨hdesc.2, forall_mem_singleton.mpr hnot⟩

theorem Traversing.take (h : Traversing lists L E start R vertex done s R')
    (hmem : s(vertex, next) ∈ R') (hcounts : Counts s' R'') (hle : R'' ≤ R'.erase s(vertex, next))
    (hnext : degree next R'' = 0)
    (htouched : ∀ x y, R''.count s(x, y) < (R'.erase s(vertex, next)).count s(x, y) →
      degree y R'' = 0)
    (hphase : Descending lists L E start s' R'' vertex ∧ (∀ u ∈ done, s(vertex, u) ∉ R'') ∨
      Closed L E start s' R'' ∨ Jumped L E start s' R'') :
    Traversing lists L E start R vertex (done ++ [next]) s' R'' := by
  have hle' : R'' ≤ R' := hle.trans (Multiset.erase_le _ R')
  have hnone : s(vertex, next) ∉ R'' := fun hin =>
    EulerTrails.degree_ne_zero next vertex (Sym2.eq_swap ▸ hin) hnext
  refine ⟨hcounts, hle'.trans h.le, fun u hu => ?_, fun x y hxy => ?_,
    hphase.imp_left fun hdesc => ⟨hdesc.1, forall_mem_append.mpr
      ⟨hdesc.2, forall_mem_singleton.mpr hnone⟩⟩⟩
  · have hleft := h.left u (Multiset.mem_of_le hle' hu)
    rw [count_append, count_singleton]
    by_cases hu' : u = next
    · subst hu'
      have hcount := Multiset.count_le_of_le s(vertex, u) hle
      rw [Multiset.count_erase_self] at hcount
      have hpos : 0 < R'.count s(vertex, u) := Multiset.count_pos.mpr hmem
      have hmul : entries vertex u * R''.count s(vertex, u) + 1 ≤
          entries vertex u * R'.count s(vertex, u) := by
        unfold entries
        split <;> omega
      simp only [beq_self_eq_true, if_true]
      omega
    · have hcount := Nat.mul_le_mul_left (entries vertex u)
        (Multiset.count_le_of_le s(vertex, u) hle')
      rw [if_neg (by simpa using Ne.symm hu')]
      omega
  · by_cases hlater : R''.count s(x, y) < (R'.erase s(vertex, next)).count s(x, y)
    · exact .inr (htouched x y hlater)
    · by_cases hedge : s(x, y) = s(vertex, next)
      · rcases Sym2.eq_iff.mp hedge with ⟨-, rfl⟩ | ⟨-, rfl⟩
        · exact .inr hnext
        · exact .inl rfl
      · rw [Multiset.count_erase_of_ne hedge] at hlater
        rcases h.touched x y (by omega) with hy | hy
        · exact .inl hy
        · exact .inr (EulerTrails.degree_eq_zero_of_le hle' hy)

theorem Traversing.traversed (h : Traversing lists L E start R vertex (lists vertex) s R')
    (heven : ∀ x, Even (degree x E)) : Traversed L E start R vertex s R' := by
  have hvertex : degree vertex R' = 0 := by
    by_contra hne
    obtain ⟨u, hu⟩ := EulerTrails.exists_edge_of_degree hne
    have hleft := h.left u hu
    have hpos : 0 < R'.count s(vertex, u) := Multiset.count_pos.mpr hu
    unfold entries at hleft
    split at hleft <;> omega
  refine ⟨h.counts, h.le, hvertex, fun x y hxy => ?_, ?_⟩
  · rcases h.touched x y hxy with rfl | hy
    · exact hvertex
    · exact hy
  · rcases h.phase with hdesc | hclosed | hjumped
    · exact .inl (hdesc.1.closed heven hvertex)
    · exact .inl hclosed
    · exact .inr hjumped

theorem Traversing.phase_take {rest : List (Fin (n + 2))}
    (h : Traversing lists L E start R vertex done s R') (hl : lists vertex = done ++ next :: rest)
    (hmem : s(vertex, next) ∈ R') :
    if next = start ∧ degree start (R'.erase s(vertex, next)) = 0 then
      Descending lists L E start (s.take vertex next) (R'.erase s(vertex, next)) vertex ∧
        ∀ u ∈ done, s(vertex, u) ∉ R'.erase s(vertex, next)
    else
      Descending lists L E start ((s.take vertex next).print next) (R'.erase s(vertex, next)) next ∨
        Jumped L E start ((s.take vertex next).print next) (R'.erase s(vertex, next)) := by
  rcases h.phase with ⟨hdesc, hdone⟩ | hclosed | hjumped
  · have hunused := (unusedEdges_take hl hdone hmem).symm.trans hdesc.unused
    split
    · next hskip =>
        rw [if_pos hskip] at hunused
        obtain ⟨rfl, hzero⟩ := hskip
        exact ⟨hdesc.close hmem hunused hzero,
          fun u hu hin => hdone u hu (Multiset.mem_of_mem_erase hin)⟩
    · next hgo =>
        rw [if_neg hgo] at hunused
        exact .inl (hdesc.take hmem hunused fun hstart hzero => hgo ⟨hstart, hzero⟩)
  · obtain ⟨hne, hjumped⟩ := hclosed.take hmem
    rw [if_neg fun hskip => hne hskip.1]
    exact .inr hjumped
  · obtain ⟨hne, hjumped⟩ := hjumped.take hmem
    rw [if_neg fun hskip => hne hskip.1]
    exact .inr hjumped

theorem Traversing.begin {edges : List (Fin (n + 2) × Fin (n + 2))} (hcounts : Counts s R)
    (hle : R ≤ edgeSet edges)
    (hphase : Descending (readGraphInfo edges).adjacencyList L E start (s.print vertex) R vertex ∨
      Jumped L E start (s.print vertex) R) :
    Traversing (readGraphInfo edges).adjacencyList L E start R vertex [] (s.print vertex) R := by
  refine ⟨hcounts.print vertex, le_rfl, fun u _ => ?_, fun x y hxy => absurd hxy (lt_irrefl _),
    hphase.imp (fun h => ⟨h, forall_mem_nil _⟩) .inr⟩
  rw [count_adjacencyList, count_nil, add_zero]
  exact Nat.mul_le_mul_left _ (Multiset.count_le_of_le _ hle)

theorem Traversing.tryEdge {call : State n → Fin (n + 2) → Option (State n)}
    (h : Traversing lists L E start R vertex done s R') {next : Fin (n + 2)}
    {rest : List (Fin (n + 2))} (hl : lists vertex = done ++ next :: rest)
    (hcall : ∀ s R', Counts s R' → R' < R →
      Descending lists L E start (s.print next) R' next ∨ Jumped L E start (s.print next) R' →
      ∃ s' R'', call s next = some s' ∧ Traversed L E start R' next s' R'') :
    ∃ s', Eulerian.tryEdge call start vertex s next = some s' ∧
      ∃ R'', Traversing lists L E start R vertex (done ++ [next]) s' R'' := by
  unfold Eulerian.tryEdge
  by_cases hmem : s(vertex, next) ∈ R'
  · rw [if_pos (h.counts.condition_iff.mpr hmem)]
    have htake := h.counts.take hmem
    have hskip : (next = start ∧ (s.take vertex next).vertexDegree next < 1) ↔
        next = start ∧ degree start (R'.erase s(vertex, next)) = 0 := by
      refine and_congr_right ?_
      rintro rfl
      rw [htake.degree]
      omega
    have hbegin := h.phase_take hl hmem
    dsimp only
    by_cases hstart : next = start ∧ degree start (R'.erase s(vertex, next)) = 0
    · rw [if_pos hstart] at hbegin
      rw [if_neg (not_not.mpr (hskip.mpr hstart))]
      exact ⟨_, rfl, _, h.take hmem htake le_rfl (hstart.1 ▸ hstart.2)
        (fun x y hxy => absurd hxy (lt_irrefl _)) (.inl hbegin)⟩
    · rw [if_neg hstart] at hbegin
      rw [if_pos (hskip.not.mpr hstart)]
      obtain ⟨s', R'', hrun, htraversed⟩ :=
        hcall _ _ htake ((Multiset.erase_lt.mpr hmem).trans_le h.le) hbegin
      exact ⟨s', hrun, R'', h.take hmem htraversed.counts htraversed.le htraversed.vertex
        htraversed.touched (.inr htraversed.phase)⟩
  · rw [if_neg (h.counts.condition_iff.not.mpr hmem)]
    exact ⟨s, rfl, R', h.skip hmem⟩

theorem printEulerianCycleVertices_traversed {edges : List (Fin (n + 2) × Fin (n + 2))}
    (heven : ∀ x, Even (degree x (edgeSet edges))) {fuel : Nat} (hcounts : Counts s R)
    (hle : R ≤ edgeSet edges) (hfuel : R.card < fuel)
    (hphase : Descending (readGraphInfo edges).adjacencyList L (edgeSet edges) start
      (s.print vertex)
      R vertex ∨ Jumped L (edgeSet edges) start (s.print vertex) R) :
    ∃ s' R', printEulerianCycleVertices (readGraphInfo edges).adjacencyList start fuel s vertex =
        some s' ∧ Traversed L (edgeSet edges) start R vertex s' R' := by
  induction fuel generalizing s R vertex with
  | zero => exact absurd hfuel (Nat.not_lt_zero _)
  | succ fuel ih =>
    have hloop := Loops.foldlM_invariant
      (f := tryEdge (printEulerianCycleVertices (readGraphInfo edges).adjacencyList start fuel)
        start vertex)
      (l := (readGraphInfo edges).adjacencyList vertex) (s := s.print vertex)
      (P := fun done s' => ∃ R', Traversing (readGraphInfo edges).adjacencyList L (edgeSet edges)
        start R vertex done s' R')
      ⟨R, .begin hcounts hle hphase⟩ ?_
    · obtain ⟨s', hrun, R', htraversing⟩ := hloop
      exact ⟨s', R', hrun, htraversing.traversed heven⟩
    · rintro done next rest s' hl ⟨R', htraversing⟩
      refine htraversing.tryEdge hl fun s'' R'' hcounts' hless hphase' => ?_
      have hcard := Multiset.card_lt_card hless
      exact ih hcounts' (hless.le.trans hle) (by omega) hphase'

end Calls

/-! ### The loop of `main` -/

section Main

variable {g : Multigraph n}

theorem degree_one_ne_zero (hedges : g.edges ≠ [])
    (hconn : ∀ v, v ≠ 0 → Relation.ReflTransGen (fun u v => s(u, v) ∈ edgeSet g.edges) 1 v) :
    degree 1 (edgeSet g.edges) ≠ 0 := by
  obtain ⟨⟨a, b⟩, hmem⟩ := exists_mem_of_ne_nil _ hedges
  have hedge : s(a, b) ∈ edgeSet g.edges := Multiset.mem_coe.mpr (mem_map.mpr ⟨_, hmem, rfl⟩)
  rcases Relation.ReflTransGen.cases_head (hconn a (g.ne_zero _ hmem).1) with h | ⟨c, hc, -⟩
  · rw [h]
    exact EulerTrails.degree_ne_zero a b hedge
  · exact EulerTrails.degree_ne_zero 1 c hc

def Multigraph.unusedEdges (g : Multigraph n) (start : Fin (n + 2)) :
    Multiset (Sym2 (Fin (n + 2))) :=
  Eulerian.unusedEdges (readGraphInfo g.edges).adjacencyList start g.edges.length (edgeSet g.edges)
    start

theorem Traversed.eq_zero {s : State n} {L R : Multiset (Sym2 (Fin (n + 2)))}
    (h : Traversed L (edgeSet g.edges) 1 (edgeSet g.edges) 1 s R)
    (hconn : ∀ v, v ≠ 0 → Relation.ReflTransGen (fun u v => s(u, v) ∈ edgeSet g.edges) 1 v) :
    R = 0 := by
  have hnone : ∀ v, Relation.ReflTransGen (fun u v => s(u, v) ∈ edgeSet g.edges) 1 v →
      degree v R = 0 := by
    intro v hv
    induction hv with
    | refl => exact h.vertex
    | @tail u v _ hstep ih =>
      refine h.touched u v ?_
      have hnot : s(u, v) ∉ R := fun hmem => EulerTrails.degree_ne_zero u v hmem ih
      rw [Multiset.count_eq_zero_of_notMem hnot]
      exact Multiset.count_pos.mpr hstep
  refine Multiset.eq_zero_of_forall_notMem fun e he => ?_
  induction e with
  | _ u v =>
    have hu := ne_zero_of_edge (Multiset.mem_of_le h.le he)
    exact EulerTrails.degree_ne_zero u v he (hnone u (hconn u hu))

theorem foldlM_printFrom {s : State n} (h : Counts s 0) (l : List (Fin (n + 2))) :
    l.foldlM (printFrom g) s = some s := by
  induction l with
  | nil => rfl
  | cons i l ih =>
    have hzero := h.degree i
    rw [EulerTrails.degree_zero] at hzero
    have hskip : printFrom g s i = some s := by
      rw [printFrom, hzero, if_neg (by decide)]
    rw [foldlM_cons, hskip]
    exact ih

theorem printCycle_eq (g : Multigraph n) {vertexDegree : Fin (n + 2) → Int} (hedges : g.edges ≠ [])
    (hcheck : checkIfEulerianCycleExists (readGraphInfo g.edges).adjacencyList =
      some (true, vertexDegree)) :
    ∃ s, printCycle g vertexDegree = some s ∧ Counts s 0 ∧
      (Closed (g.unusedEdges 1) (edgeSet g.edges) 1 s 0 ∨
        Jumped (g.unusedEdges 1) (edgeSet g.edges) 1 s 0) := by
  obtain ⟨res, hres, hiff, hdegree⟩ := check_eq g
  obtain rfl : (true, vertexDegree) = res := Option.some.inj (hcheck.symm.trans hres)
  obtain ⟨hconn, heven⟩ := hasEulerianCycle_iff.mp (hiff.mp rfl)
  have hone := degree_one_ne_zero hedges hconn
  have hcounts : Counts (⟨vertexDegree, (readGraphInfo g.edges).edgeMap, []⟩ : State n)
      (edgeSet g.edges) := ⟨hdegree rfl, fun u v => readGraphInfo_edgeMap⟩
  have hcard : (edgeSet g.edges).card = g.edges.length := by
    simp [edgeSet]
  have hbegin : Descending (readGraphInfo g.edges).adjacencyList (g.unusedEdges 1)
      (edgeSet g.edges) 1
      (State.print ⟨vertexDegree, (readGraphInfo g.edges).edgeMap, []⟩ 1) (edgeSet g.edges) 1 :=
    ⟨by rw [hcard, Multigraph.unusedEdges], 0, 0, .nil 1, by simp, .inl ⟨rfl, fun _ => hone⟩⟩
  obtain ⟨s, R, hrun, htraversed⟩ := printEulerianCycleVertices_traversed heven hcounts le_rfl
    (hcard.trans_lt (Nat.lt_succ_self _)) (.inl hbegin)
  obtain rfl := htraversed.eq_zero hconn
  refine ⟨s, ?_, htraversed.counts, htraversed.phase⟩
  have htwo : vertexDegree 1 > 1 := by
    have hdeg : vertexDegree 1 = degree 1 (edgeSet g.edges) := hdegree rfl 1
    obtain ⟨k, hk⟩ := heven 1
    omega
  have hfirst : printFrom g ⟨vertexDegree, (readGraphInfo g.edges).edgeMap, []⟩ 1 = some s := by
    rw [printFrom, if_pos htwo, hrun]
  rw [printCycle, finRange_succ, tail_cons, finRange_succ, map_cons,
    foldlM_cons, Fin.succ_zero_eq_one, hfirst]
  exact foldlM_printFrom htraversed.counts _

/-- **The output.** For a graph that is accepted the traversal ends with every edge taken, and what
it prints is an Eulerian cycle exactly if the walk of first edges from vertex 1 uses all edges. -/
theorem main_isCycle_iff (g : Multigraph n) (hedges : g.edges ≠ [])
    (haccepted : (checkIfEulerianCycleExists (readGraphInfo g.edges).adjacencyList).map Prod.fst =
      some true) :
    ∃ s, main g = some (some s) ∧ (∀ e, s.visitedEdges e = 0) ∧
      (IsCycle (edgeSet g.edges) s.out ↔ g.unusedEdges 1 = 0) := by
  obtain ⟨⟨res, vertexDegree⟩, hcheck, hres⟩ := Option.map_eq_some_iff.mp haccepted
  obtain rfl : res = true := hres
  obtain ⟨s, hrun, hcounts, hphase⟩ := printCycle_eq g hedges hcheck
  refine ⟨s, ?_, fun e => ?_, ?_⟩
  · rw [main, hcheck, Option.bind_some, if_neg (by simp), hrun, Option.map_some]
  · rw [hcounts.edges e.1 e.2, Multiset.count_zero, Nat.mul_zero]
    rfl
  · rcases hphase with hclosed | hjumped
    · exact iff_of_true hclosed.isCycle hclosed.unused.symm
    · exact iff_of_false hjumped.not_isCycle hjumped.unused

def triangle : Multigraph 2 where
  edges := [(1, 2), (2, 3), (3, 1)]
  ne_zero := by decide

theorem main_triangle :
    ∃ s, main triangle = some (some s) ∧ IsCycle (edgeSet triangle.edges) s.out := by
  obtain ⟨s, hrun, -, hiff⟩ := main_isCycle_iff triangle (by decide) (by decide)
  exact ⟨s, hrun, hiff.mpr (by decide)⟩

def bowtie : Multigraph 4 where
  edges := [(1, 2), (2, 3), (3, 1), (2, 4), (4, 5), (5, 2)]
  ne_zero := by decide

/-- The first triangle is printed as a whole before the second one begins: behind vertex 3 there is
vertex 4, and no edge between them. -/
theorem bowtie_misprinted :
    (checkIfEulerianCycleExists (readGraphInfo bowtie.edges).adjacencyList).map Prod.fst =
        some true ∧
      (main bowtie).map (Option.map State.out) = some (some [1, 2, 3, 4, 5, 2]) ∧
      ¬ IsCycle (edgeSet bowtie.edges) [1, 2, 3, 4, 5, 2] := by
  refine ⟨by decide, by decide, ?_⟩
  rintro ⟨v, rest, hv, hcycle⟩
  have hedge : s(3, 4) ∈ edgeSet bowtie.edges := by
    rw [← hcycle.consecutive_eq]
    simp [consecutive]
  exact absurd hedge (by decide)

end Main

end LinuxWorkouts.Eulerian
