import LinuxWorkouts.Tcp.ConnPool

/-!
What a full connection pool does with one more connection.

`store_connection` finds out that the pool is full when it has taken a bit already, and does not
give it back. In the runs here connections arrive at any time; `rejections` counts those that find
the pool full, and the bits that the word has lost are as many (`WordInv.next`), until the sign bit
of the mask takes all that are left.
-/

namespace LinuxWorkouts.ConnPool

open Transition

/-- A connection may arrive at any time; the other calls are about live ones. -/
def OnLive (s : State) : Op → Prop
  | .store _ _ => True
  | .threadCreated offset _ => offset ∈ s.offsets
  | .release offset => offset ∈ s.offsets

instance decidableOnLive (s : State) : (op : Op) → Decidable (OnLive s op)
  | .store _ _ => .isTrue trivial
  | .threadCreated offset _ => inferInstanceAs (Decidable (offset ∈ s.offsets))
  | .release offset => inferInstanceAs (Decidable (offset ∈ s.offsets))

def rejected (s : State) : Op → Nat
  | .store _ _ => if s.pool.size ≤ s.live.length then 1 else 0
  | _ => 0

def rejections : State → List Op → Nat
  | _, [] => 0
  | s, op :: ops =>
    rejected s op +
      match step s op with
      | some s' => rejections s' ops
      | none => 0

def State.withBitmap (s : State) (bitmap : BitVec 64) : State :=
  { s with pool := { s.pool with freeSpaceBitmap := bitmap } }

section Invariant

variable {size lost : Nat} {s s' : State} {op : Op}

section

variable (h : WordInv size lost s)
include h

theorem WordInv.mem_of_full (hfull : size ≤ s.live.length) {i : Nat} (hi : i < size) :
    i ∈ s.offsets := by
  by_contra hnot
  have hsub : (i :: s.offsets) ⊆ List.range size := by
    intro j hj
    rcases List.mem_cons.mp hj with rfl | hj
    · exact List.mem_range.mpr hi
    · exact List.mem_range.mpr (h.range j hj)
  have hle := (List.subperm_of_subset (List.nodup_cons.mpr ⟨hnot, h.nodup⟩) hsub).length_le
  rw [List.length_cons, List.length_range, State.offsets, List.length_map] at hle
  omega

theorem WordInv.bit_of_full (hfull : size ≤ s.live.length) (i : Nat) :
    s.pool.freeSpaceBitmap.getLsbD i =
      decide (size + lost ≤ i ∧ i < 63 ∧ size + lost < 32) := by
  rw [h.bits, decide_eq_decide]
  constructor
  · rintro ⟨hnot, hi | hi⟩
    · exact absurd (h.mem_of_full hfull hi) hnot
    · exact hi
  · intro hi
    refine ⟨fun hmem => ?_, .inr hi⟩
    have hlt := h.range i hmem
    omega

theorem WordInv.withBitmap {lost' : Nat} {bitmap : BitVec 64} (hbits : ∀ i, bitmap.getLsbD i =
      decide (i ∉ s.offsets ∧ (i < size ∨ size + lost' ≤ i ∧ i < 63 ∧ size + lost' < 32))) :
    WordInv size lost' (s.withBitmap bitmap) :=
  ⟨h.size_eq, h.length, h.nodup, h.range, h.slots, hbits⟩

theorem WordInv.reject (hfull : size ≤ s.live.length) (threadId : Nat) (sock : Int) :
    ∃ bitmap, storeConnection s.pool threadId sock = some ((s.withBitmap bitmap).pool, NOT_OK) ∧
      (bitmap = s.pool.freeSpaceBitmap ↔ 32 ≤ size + lost) ∧
      WordInv size (lost + 1) (s.withBitmap bitmap) := by
  have hbits := h.bit_of_full hfull
  by_cases hgone : 32 ≤ size + lost
  · -- nothing is left to lose
    have hzero : s.pool.freeSpaceBitmap = 0#64 := by
      apply BitVec.eq_of_getLsbD_eq
      intro i _
      rw [hbits, decide_eq_false (by omega)]
      simp
    refine ⟨s.pool.freeSpaceBitmap, ?_, iff_of_true rfl hgone, h.withBitmap fun i => ?_⟩
    · rw [storeConnection, if_pos hzero]
      rfl
    · rw [h.bits, decide_eq_decide]
      refine and_congr_right fun _ => ?_
      omega
  · have hset : s.pool.freeSpaceBitmap.getLsbD (size + lost) = true := by
      rw [hbits, decide_eq_true_eq]
      omega
    obtain ⟨k, bitmap, hbook, hle, hk, hclear⟩ := bookPos_lowest (by omega) hset
    obtain rfl : k = size + lost := by
      rw [hbits, decide_eq_true_eq] at hk
      omega
    refine ⟨bitmap, ?_, iff_of_false ?_ hgone, h.withBitmap fun i => ?_⟩
    · have houtside : s.pool.size ≤ size + lost := by
        rw [h.size_eq]
        omega
      rw [storeConnection_of_book hset hbook, if_pos houtside]
      rfl
    · intro hsame
      have hbit := hclear (size + lost)
      rw [hsame, hset] at hbit
      simp at hbit
    · rw [hclear, hbits, ← Bool.decide_and, decide_eq_decide]
      constructor
      · rintro ⟨⟨hlow, hhigh, -⟩, hi, hsign⟩
        refine ⟨fun hmem => ?_, by omega⟩
        have hlt := h.range i hmem
        omega
      · rintro ⟨hnot, hi | hi⟩
        · exact absurd (h.mem_of_full hfull hi) hnot
        · omega

end

theorem step_of_rejected {bitmap : BitVec 64} {threadId : Nat} {sock : Int}
    (h : storeConnection s.pool threadId sock = some ((s.withBitmap bitmap).pool, NOT_OK)) :
    step s (.store threadId sock) = some (s.withBitmap bitmap) := by
  rw [step, h, Option.map_some, if_pos rfl]
  rfl

theorem WordInv.next (h : WordInv size lost s) (hsize : size ≤ 31) (hop : OnLive s op) :
    ∃ s', step s op = some s' ∧ WordInv size (lost + rejected s op) s' := by
  cases op with
  | store threadId sock =>
    by_cases hfull : size ≤ s.live.length
    · obtain ⟨bitmap, hstore, -, hinv⟩ := h.reject hfull threadId sock
      refine ⟨s.withBitmap bitmap, step_of_rejected hstore, ?_⟩
      rw [rejected, if_pos (h.size_eq.symm ▸ hfull)]
      exact hinv
    · obtain ⟨s', -, hstep, -, -, -, -, hinv⟩ :=
        h.store hsize (Nat.lt_of_not_le hfull) threadId sock
      refine ⟨s', hstep, ?_⟩
      rw [rejected, if_neg (h.size_eq.symm ▸ hfull)]
      exact hinv
  | threadCreated offset threadId => exact ⟨_, rfl, h.threadCreated offset threadId⟩
  | release offset =>
    obtain ⟨s', -, hstep, -, -, -, -, hinv⟩ := h.release hsize hop
    exact ⟨s', hstep, hinv⟩

theorem WordInv.run (h : WordInv size lost s) (hsize : size ≤ 31) {ops : List Op}
    (hops : Along step OnLive s ops) :
    ∃ s', Transition.run step s ops = some s' ∧ WordInv size (lost + rejections s ops) s' := by
  induction ops generalizing s lost with
  | nil => exact ⟨s, rfl, h⟩
  | cons op ops ih =>
    obtain ⟨t, ht, hinv⟩ := h.next hsize hops.1
    obtain ⟨s', hrun, hinv'⟩ := ih hinv (hops.2 t ht)
    refine ⟨s', ?_, ?_⟩
    · rw [Transition.run, ht, Option.bind_some, hrun]
    · rw [rejections, ht, ← Nat.add_assoc]
      exact hinv'

theorem WordInv.poolIsFree_iff (h : WordInv size lost s) (hsize : size ≤ 31) :
    poolIsFree s.pool = true ↔ s.live = [] ∧ lost = 0 := by
  by_cases hlost : lost = 0
  · subst hlost
    rw [(h.poolInv hsize).poolIsFree_iff hsize]
    simp
  · constructor
    · intro hfree
      rw [poolIsFree, decide_eq_true_iff] at hfree
      have hbit := h.bits size
      rw [hfree, getLsbD_INT64_MAX, decide_eq_decide] at hbit
      omega
    · rintro ⟨-, h0⟩
      exact absurd h0 hlost

end Invariant

/-- **A full pool does not reject cleanly.** In every run of a pool of at most 31 slots in which
connections may arrive at any time, the pool is free again if and only if no connection is live and
none has been rejected. In a full pool the next connection is rejected and the connections are left
alone, but the word stays as it is only when no bit is left to lose, and whatever is released later,
the pool is never free again. -/
theorem full_pool_rejects (size : Nat) (hsize : size ≤ 31) (ops : List Op)
    (hops : Along step OnLive (start size) ops) :
    ∃ s, run step (start size) ops = some s ∧
      (poolIsFree s.pool = true ↔ s.live = [] ∧ rejections (start size) ops = 0) ∧
      (s.live.length = size → ∀ threadId sock,
        ∃ s', step s (.store threadId sock) = some s' ∧
          storeConnection s.pool threadId sock = some (s'.pool, NOT_OK) ∧
          s'.pool.connections = s.pool.connections ∧ s'.live = s.live ∧
          (s'.pool.freeSpaceBitmap = s.pool.freeSpaceBitmap ↔
            32 ≤ size + rejections (start size) ops) ∧
          ∀ later t, Along step OnLive s' later → run step s' later = some t →
            poolIsFree t.pool = false) := by
  obtain ⟨s, hrun, hinv⟩ := ((PoolInv.start size).wordInv hsize).run hsize hops
  rw [Nat.zero_add] at hinv
  refine ⟨s, hrun, hinv.poolIsFree_iff hsize, ?_⟩
  intro hfull threadId sock
  obtain ⟨bitmap, hstore, hsame, hinv'⟩ := hinv.reject hfull.ge threadId sock
  refine ⟨s.withBitmap bitmap, step_of_rejected hstore, hstore, rfl, rfl, hsame, ?_⟩
  intro later t hlater ht
  obtain ⟨t', ht', hinvT⟩ := hinv'.run hsize hlater
  rw [ht] at ht'
  cases ht'
  rw [Bool.eq_false_iff, Ne, hinvT.poolIsFree_iff hsize]
  omega

/-- A pool of two slots that is full: the third connection is rejected and a bit is lost, so the
pool is never free again. -/
theorem full_pool_rejects_third :
    Along step OnLive (start 2) [.store 0 5, .store 0 6] ∧
      ∃ s s', run step (start 2) [.store 0 5, .store 0 6] = some s ∧
        step s (.store 0 7) = some s' ∧
        storeConnection s.pool 0 7 = some (s'.pool, NOT_OK) ∧
        s'.pool.freeSpaceBitmap ≠ s.pool.freeSpaceBitmap ∧
        ∀ later t, Along step OnLive s' later → run step s' later = some t →
          poolIsFree t.pool = false := by
  have hops : Along step OnLive (start 2) [.store 0 5, .store 0 6] := by decide +kernel
  obtain ⟨s, hrun, -, hreject⟩ := full_pool_rejects 2 (by decide) _ hops
  have hfull : (run step (start 2) [.store 0 5, .store 0 6]).map (·.live.length) = some 2 := by
    decide +kernel
  rw [hrun] at hfull
  obtain ⟨s', hstep, hstore, -, -, hsame, hlater⟩ := hreject (Option.some.inj hfull) 0 7
  exact ⟨hops, s, s', hrun, hstep, hstore, mt hsame.mp (by decide +kernel), hlater⟩

/-- A pool with one slot rejects the second connection and loses a bit. When the first one is
released no connection is live, and the pool is not free. -/
theorem rejection_leaks_bit :
    (run step (start 1) [.store 0 5]).bind (fun s => storeConnection s.pool 0 6) =
        some (⟨[⟨0, 5, 0⟩], 1, INT64_MAX - 3#64⟩, NOT_OK) ∧
      (run step (start 1) [.store 0 5]).map (fun s => s.pool.freeSpaceBitmap) =
        some (INT64_MAX - 1#64) ∧
      (run step (start 1) [.store 0 5, .store 0 6, .release 0]).map
        (fun s => (s.live, poolIsFree s.pool)) = some ([], false) := by
  decide +kernel

end LinuxWorkouts.ConnPool
