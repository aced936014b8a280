import Mathlib

/-!
Distances in a directed graph, found by rounds of relaxation.

The graph is a relation. `distanceWithin limit i v` is the distance of `v` from the source if a path
of at most `i` steps leads there, cut off at `limit`, which also stands for "not found".
`distanceWithin_succ_le_iff` is the rule of the rounds: with one more step allowed, a vertex gets
the least of what it had and of what its predecessors had plus one.
-/

namespace LinuxWorkouts.ShortestPath

variable {α : Type*} (edge : α → α → Prop) (source : α)

def Walk : Nat → α → Prop
  | 0, v => v = source
  | n + 1, v => ∃ u, Walk n u ∧ edge u v

def IsDistance (v : α) (d : Nat) : Prop :=
  Walk edge source d v ∧ ∀ n < d, ¬ Walk edge source n v

noncomputable def distanceWithin (limit i : Nat) (v : α) : Nat :=
  sInf (insert limit {n | n ≤ i ∧ Walk edge source n v})

variable {edge source} {limit i n d : Nat} {v : α}

theorem distanceWithin_le_iff :
    distanceWithin edge source limit i v ≤ n ↔
      limit ≤ n ∨ ∃ m ≤ i, m ≤ n ∧ Walk edge source m v := by
  constructor
  · intro hle
    have hmem : distanceWithin edge source limit i v ∈
        insert limit {n | n ≤ i ∧ Walk edge source n v} :=
      Nat.sInf_mem ⟨limit, Set.mem_insert _ _⟩
    rcases hmem with heq | ⟨hi, hwalk⟩
    · exact .inl (heq ▸ hle)
    · exact .inr ⟨_, hi, hle, hwalk⟩
  · rintro (hlimit | ⟨m, hm, hmn, hwalk⟩)
    · exact (Nat.sInf_le (Set.mem_insert _ _)).trans hlimit
    · have hmem : m ∈ insert limit {n | n ≤ i ∧ Walk edge source n v} := .inr ⟨hm, hwalk⟩
      exact (Nat.sInf_le hmem).trans hmn

theorem distanceWithin_le_limit : distanceWithin edge source limit i v ≤ limit :=
  distanceWithin_le_iff.mpr (.inl (Nat.le_refl _))

theorem distanceWithin_zero [DecidableEq α] :
    distanceWithin edge source limit 0 v = if v = source then 0 else limit := by
  refine eq_of_forall_ge_iff fun n => ?_
  rw [distanceWithin_le_iff]
  split
  · next heq =>
      refine iff_of_true (.inr ⟨0, Nat.le_refl _, Nat.zero_le _, heq⟩) (Nat.zero_le _)
  · next hne =>
      constructor
      · rintro (hlimit | ⟨m, hm, -, hwalk⟩)
        · exact hlimit
        · obtain rfl : m = 0 := Nat.le_zero.mp hm
          exact absurd hwalk hne
      · exact .inl

theorem distanceWithin_succ_le_iff :
    distanceWithin edge source limit (i + 1) v ≤ n ↔
      distanceWithin edge source limit i v ≤ n ∨
        ∃ u, edge u v ∧ min limit (distanceWithin edge source limit i u + 1) ≤ n := by
  constructor
  · intro hle
    rcases distanceWithin_le_iff.mp hle with hlimit | ⟨m, hm, hmn, hwalk⟩
    · exact .inl (distanceWithin_le_iff.mpr (.inl hlimit))
    · cases m with
      | zero => exact .inl (distanceWithin_le_iff.mpr (.inr ⟨0, Nat.zero_le _, hmn, hwalk⟩))
      | succ m =>
        obtain ⟨u, hwalk, hedge⟩ := hwalk
        have hu : distanceWithin edge source limit i u ≤ m :=
          distanceWithin_le_iff.mpr (.inr ⟨m, by omega, Nat.le_refl _, hwalk⟩)
        exact .inr ⟨u, hedge, (min_le_right _ _).trans (by omega)⟩
  · rintro (hle | ⟨u, hedge, hle⟩)
    · rcases distanceWithin_le_iff.mp hle with hlimit | ⟨m, hm, hmn, hwalk⟩
      · exact distanceWithin_le_iff.mpr (.inl hlimit)
      · exact distanceWithin_le_iff.mpr (.inr ⟨m, by omega, hmn, hwalk⟩)
    · rcases min_le_iff.mp hle with hlimit | hle
      · exact distanceWithin_le_iff.mpr (.inl hlimit)
      · rcases distanceWithin_le_iff.mp (Nat.le_refl (distanceWithin edge source limit i u)) with
          hlimit | ⟨m, hm, hmu, hwalk⟩
        · exact distanceWithin_le_iff.mpr (.inl (by omega))
        · exact distanceWithin_le_iff.mpr (.inr ⟨m + 1, by omega, by omega, u, hwalk, hedge⟩)

theorem distanceWithin_eq_iff (hd : d < limit) :
    distanceWithin edge source limit i v = d ↔ IsDistance edge source v d ∧ d ≤ i := by
  constructor
  · rintro rfl
    rcases distanceWithin_le_iff.mp (Nat.le_refl (distanceWithin edge source limit i v)) with
      hlimit | ⟨m, hm, hle, hwalk⟩
    · omega
    · have hmin : ∀ n, Walk edge source n v → n ≤ i →
          distanceWithin edge source limit i v ≤ n := fun n hn hni =>
        distanceWithin_le_iff.mpr (.inr ⟨n, hni, Nat.le_refl _, hn⟩)
      have heq : m = distanceWithin edge source limit i v := le_antisymm hle (hmin m hwalk hm)
      rw [← heq]
      refine ⟨⟨hwalk, fun n hn hwalk' => ?_⟩, hm⟩
      have := hmin n hwalk' (by omega)
      omega
  · rintro ⟨⟨hwalk, hleast⟩, hdi⟩
    refine le_antisymm (distanceWithin_le_iff.mpr (.inr ⟨d, hdi, Nat.le_refl _, hwalk⟩)) ?_
    by_contra hlt
    rcases distanceWithin_le_iff.mp (Nat.le_refl (distanceWithin edge source limit i v)) with
      hlimit | ⟨m, -, hle, hwalk'⟩
    · omega
    · exact hleast m (by omega) hwalk'

theorem IsDistance.lt_length {vertices : List α} (hsource : source ∈ vertices)
    (hclosed : ∀ u v, edge u v → v ∈ vertices) (h : IsDistance edge source v d) :
    d < vertices.length := by
  -- A shortest walk has a vertex of each distance up to `d`.
  have hpath : ∃ l : List α, l.length = d + 1 ∧ l.Nodup ∧
      ∀ u ∈ l, u ∈ vertices ∧ ∃ n ≤ d, Walk edge source n u := by
    induction d generalizing v with
    | zero => exact ⟨[source], rfl, List.nodup_singleton source, by simpa [Walk] using hsource⟩
    | succ d ih =>
      obtain ⟨⟨u, hwalk, hedge⟩, hleast⟩ := h
      obtain ⟨l, hlength, hnodup, hl⟩ := ih
        ⟨hwalk, fun n hn hu => hleast (n + 1) (Nat.succ_lt_succ hn) ⟨u, hu, hedge⟩⟩
      refine ⟨v :: l, congrArg Nat.succ hlength, List.nodup_cons.mpr ⟨fun hv => ?_, hnodup⟩, ?_⟩
      · obtain ⟨-, n, hn, hv⟩ := hl v hv
        exact hleast n (Nat.lt_succ_of_le hn) hv
      · refine List.forall_mem_cons.mpr ⟨⟨hclosed u v hedge, d + 1, le_rfl, u, hwalk, hedge⟩, ?_⟩
        exact fun w hw => ⟨(hl w hw).1, (hl w hw).2.imp fun n hn => ⟨hn.1.trans d.le_succ, hn.2⟩⟩
  obtain ⟨l, hlength, hnodup, hl⟩ := hpath
  have := (List.subperm_of_subset hnodup fun u hu => (hl u hu).1).length_le
  omega

end LinuxWorkouts.ShortestPath
