/-
The size of a slab.

`cache_setup` chooses the order of the slabs and computes from it how many objects a
slab holds; `alloc_slab` computes from the same order how many bytes to ask
`malloc` for. The first takes `4096 * 2 ^ order` bytes, the second
`4096 * order`. `cacheSetup_sizes` says which order, size and count are chosen, and
`slab_memory_too_small` that the memory is too small for the blocks of every
cache that holds an object.
-/

import LinuxWorkouts.MemCache.Blocks

namespace LinuxWorkouts.MemCache

open WordMemory

def wantedBytes (objectSize : Nat) : Nat := (objectSize + BLOCK_BYTES) * DEFAULT_SIZE + SLAB_BYTES

section Order

theorem slabOrderLoop_spec (total fuel order : Nat) (hpos : 0 < order) (hle : order ≤ 10)
    (hfuel : 10 ≤ fuel + order) (hsmall : PAGE_SIZE * 2 ^ (order - 1) < total) :
    0 < slabOrderLoop total fuel (2 ^ order) order ∧
      slabOrderLoop total fuel (2 ^ order) order ≤ 10 ∧
      PAGE_SIZE * 2 ^ (slabOrderLoop total fuel (2 ^ order) order - 1) < total ∧
      (total ≤ PAGE_SIZE * 2 ^ slabOrderLoop total fuel (2 ^ order) order ∨
        slabOrderLoop total fuel (2 ^ order) order = 10) := by
  induction fuel generalizing order with
  | zero => exact ⟨hpos, hle, hsmall, .inr (by simp only [slabOrderLoop]; omega)⟩
  | succ fuel ih =>
    rw [slabOrderLoop]
    split
    · next h =>
      rw [← Nat.pow_succ]
      exact ih (order + 1) (by omega) (by omega) (by omega) h.1
    · next h =>
      refine ⟨hpos, hle, hsmall, ?_⟩
      by_cases hten : order = 10
      · exact .inr hten
      · exact .inl (Nat.le_of_not_lt fun hlt => h ⟨hlt, by omega⟩)

theorem getSlabOrder_spec {objectSize : Nat} (hwrap : wantedBytes objectSize < 2 ^ 64) :
    getSlabOrder objectSize DEFAULT_SIZE ≤ 10 ∧
      (getSlabOrder objectSize DEFAULT_SIZE ≠ 0 →
        PAGE_SIZE * 2 ^ (getSlabOrder objectSize DEFAULT_SIZE - 1) < wantedBytes objectSize) ∧
      (wantedBytes objectSize ≤ PAGE_SIZE * 2 ^ getSlabOrder objectSize DEFAULT_SIZE ∨
        getSlabOrder objectSize DEFAULT_SIZE = 10) := by
  have htotal : wadd (wadd objectSize BLOCK_BYTES * DEFAULT_SIZE % 2 ^ 64) SLAB_BYTES =
      wantedBytes objectSize := by
    unfold wantedBytes BLOCK_BYTES DEFAULT_SIZE SLAB_BYTES wadd at *
    omega
  simp only [getSlabOrder, htotal]
  split
  · next h => exact ⟨by omega, fun h => absurd rfl h, .inl (by simpa using h)⟩
  · next h =>
    obtain ⟨-, h2, h3, h4⟩ := slabOrderLoop_spec (wantedBytes objectSize) 10 1 (by omega) (by omega)
      (by omega) (by simpa using h)
    exact ⟨h2, fun _ => h3, h4⟩

theorem calculateSlabSize_eq (order : Nat) : calculateSlabSize order = PAGE_SIZE * 2 ^ order := by
  cases order with
  | zero => rfl
  | succ order =>
    simp only [calculateSlabSize, PAGE_SIZE]
    rw [if_pos (by omega), Nat.add_sub_cancel, Nat.pow_succ]
    omega

end Order

/-! ### The memory of a slab -/

/-- The first `cnt` blocks of the slab at `p` end inside the memory `alloc_slab` asks
for. -/
def BlocksInside (c : Cache) (cnt p : Nat) : Prop :=
  ∀ b ∈ blocksOf (c.objectSize + BLOCK_BYTES) cnt p,
    b + (c.objectSize + BLOCK_BYTES) ≤ p + slabRequest c.slabOrder

theorem blocksInside_iff {c : Cache} {cnt p : Nat} (hcnt : 0 < cnt) :
    BlocksInside c cnt p ↔
      slabBytes (c.objectSize + BLOCK_BYTES) cnt ≤ slabRequest c.slabOrder := by
  constructor
  · intro h
    -- the last block decides
    have hlast := h _ (mem_blocksOf.mpr ⟨cnt - 1, by omega, rfl⟩)
    have hmul : (c.objectSize + BLOCK_BYTES) * (cnt - 1) + (c.objectSize + BLOCK_BYTES) =
        cnt * (c.objectSize + BLOCK_BYTES) := by
      rw [← Nat.mul_succ, Nat.succ_eq_add_one, Nat.sub_add_cancel hcnt, Nat.mul_comm]
    unfold slabBytes SLAB_BYTES
    omega
  · intro h b hb
    have := (blocksOf_range hb).2
    omega

section Setup

variable {objectSize : Nat}

theorem slabOrder_def :
    (cacheSetup objectSize).slabOrder = getSlabOrder objectSize DEFAULT_SIZE := by
  simp only [cacheSetup]

section

variable (hwrap : wantedBytes objectSize < 2 ^ 64)
include hwrap

theorem slabObjects_eq :
    (cacheSetup objectSize).slabObjects =
      (PAGE_SIZE * 2 ^ (cacheSetup objectSize).slabOrder - SLAB_BYTES) /
        (objectSize + BLOCK_BYTES) := by
  have hle := (getSlabOrder_spec hwrap).1
  have hpow : PAGE_SIZE * 2 ^ getSlabOrder objectSize DEFAULT_SIZE ≤ PAGE_SIZE * 2 ^ 10 :=
    Nat.mul_le_mul_left _ (Nat.pow_le_pow_right (by decide) hle)
  have hpos : 0 < 2 ^ getSlabOrder objectSize DEFAULT_SIZE := Nat.pow_pos (by decide)
  have hsize : objectSize + BLOCK_BYTES < 2 ^ 64 := by
    unfold wantedBytes DEFAULT_SIZE at hwrap
    omega
  simp only [cacheSetup, calculateObjectCnt, calculateSlabSize_eq]
  rw [wadd_of_lt hsize, wsub_of_le, if_pos]
  · unfold BLOCK_BYTES
    omega
  · unfold PAGE_SIZE SLAB_BYTES
    omega
  · unfold PAGE_SIZE at *
    omega

theorem slabOrder_eq :
    ∃ o, IsLeast {o | wantedBytes objectSize ≤ PAGE_SIZE * 2 ^ o} o ∧
      (cacheSetup objectSize).slabOrder = min o 10 := by
  obtain ⟨hcap, hleast, hfits⟩ := getSlabOrder_spec hwrap
  have hsome : ∃ o, wantedBytes objectSize ≤ PAGE_SIZE * 2 ^ o :=
    ⟨wantedBytes objectSize, Nat.le_trans Nat.lt_two_pow_self.le
      (Nat.le_mul_of_pos_left _ (by decide))⟩
  have hspec := Nat.find_spec hsome
  refine ⟨Nat.find hsome, ⟨hspec, fun o ho => Nat.find_min' hsome ho⟩, ?_⟩
  rw [slabOrder_def]
  generalize getSlabOrder objectSize DEFAULT_SIZE = order at *
  -- a smaller order is too small, also for the code
  have hle : order ≤ Nat.find hsome := by
    by_contra hlt
    have hpow : PAGE_SIZE * 2 ^ Nat.find hsome ≤ PAGE_SIZE * 2 ^ (order - 1) :=
      Nat.mul_le_mul_left _ (Nat.pow_le_pow_right (by decide) (by omega))
    have := hleast (by omega)
    omega
  rcases hfits with hfits | hten
  · have := Nat.find_min' hsome hfits
    omega
  · omega

theorem slabObjects_isGreatest :
    IsGreatest {k | SLAB_BYTES + k * (objectSize + BLOCK_BYTES) ≤
      PAGE_SIZE * 2 ^ (cacheSetup objectSize).slabOrder} (cacheSetup objectSize).slabObjects := by
  have hpos : 0 < objectSize + BLOCK_BYTES := Nat.add_pos_right _ (by decide)
  have hheader : SLAB_BYTES ≤ PAGE_SIZE * 2 ^ (cacheSetup objectSize).slabOrder :=
    Nat.le_trans (by decide : SLAB_BYTES ≤ PAGE_SIZE * 1)
      (Nat.mul_le_mul_left _ (Nat.pow_pos (by decide)))
  have hiff : ∀ k, SLAB_BYTES + k * (objectSize + BLOCK_BYTES) ≤
      PAGE_SIZE * 2 ^ (cacheSetup objectSize).slabOrder ↔
        k ≤ (cacheSetup objectSize).slabObjects := by
    intro k
    rw [slabObjects_eq hwrap, Nat.le_div_iff_mul_le hpos]
    omega
  exact ⟨(hiff _).mpr (Nat.le_refl _), fun k hk => (hiff k).mp hk⟩

end

/-- **The sizes of a cache.** For every object size for which the bytes of ten objects do not
wrap, `cache_setup` chooses the least order that holds them, capped at 10, the size that belongs
to it, and the largest number of objects that fits; that number is at least ten unless the cap
was too small. -/
theorem cacheSetup_sizes (objectSize : Nat) (hwrap : wantedBytes objectSize < 2 ^ 64) :
    (∃ o, IsLeast {o | wantedBytes objectSize ≤ PAGE_SIZE * 2 ^ o} o ∧
        (cacheSetup objectSize).slabOrder = min o 10) ∧
      (cacheSetup objectSize).slabSize = PAGE_SIZE * 2 ^ (cacheSetup objectSize).slabOrder ∧
      IsGreatest {k | SLAB_BYTES + k * (objectSize + BLOCK_BYTES) ≤
        (cacheSetup objectSize).slabSize}
        (cacheSetup objectSize).slabObjects ∧
      (wantedBytes objectSize ≤ PAGE_SIZE * 2 ^ 10 →
        DEFAULT_SIZE ≤ (cacheSetup objectSize).slabObjects) := by
  have hsize : (cacheSetup objectSize).slabSize =
      PAGE_SIZE * 2 ^ (cacheSetup objectSize).slabOrder := by
    simp only [cacheSetup, calculateSlabSize_eq]
  have hobjects := slabObjects_isGreatest hwrap
  refine ⟨slabOrder_eq hwrap, hsize, hsize ▸ hobjects, fun hroom => ?_⟩
  -- ten objects fit into the slab that was chosen for them
  apply hobjects.2
  rw [Set.mem_ofPred_eq, slabOrder_def, Nat.add_comm, Nat.mul_comm]
  rcases (getSlabOrder_spec hwrap).2.2 with hfits | hten
  · exact hfits
  · rw [hten]
    exact hroom

theorem cacheSetup_sizes_thousand :
    wantedBytes 1000 < 2 ^ 64 ∧ wantedBytes 1000 ≤ PAGE_SIZE * 2 ^ 10 ∧
      (∃ o, IsLeast {o | wantedBytes 1000 ≤ PAGE_SIZE * 2 ^ o} o ∧
        (cacheSetup 1000).slabOrder = min o 10) ∧
      (cacheSetup 1000).slabSize = PAGE_SIZE * 2 ^ (cacheSetup 1000).slabOrder ∧
      IsGreatest {k | SLAB_BYTES + k * (1000 + BLOCK_BYTES) ≤ (cacheSetup 1000).slabSize}
        (cacheSetup 1000).slabObjects ∧
      DEFAULT_SIZE ≤ (cacheSetup 1000).slabObjects := by
  have hroom : wantedBytes 1000 ≤ PAGE_SIZE * 2 ^ 10 := by decide
  obtain ⟨horder, hsize, hobjects, hten⟩ := cacheSetup_sizes 1000 (by decide)
  exact ⟨by decide, hroom, horder, hsize, hobjects, hten hroom⟩

theorem slabRequest_lt (hwrap : wantedBytes objectSize < 2 ^ 64) :
    slabRequest (cacheSetup objectSize).slabOrder <
      slabBytes (objectSize + BLOCK_BYTES) (max 1 (cacheSetup objectSize).slabObjects) := by
  obtain ⟨hle, hleast, hfits⟩ := getSlabOrder_spec hwrap
  have hcnt := slabObjects_eq hwrap
  rw [slabOrder_def] at hcnt ⊢
  generalize getSlabOrder objectSize DEFAULT_SIZE = order at *
  generalize (cacheSetup objectSize).slabObjects = cnt at *
  -- the count rounds down, so one more block would pass the end of the slab
  have hround := Nat.lt_mul_div_succ (PAGE_SIZE * 2 ^ order - SLAB_BYTES)
    (show 0 < objectSize + BLOCK_BYTES by unfold BLOCK_BYTES; omega)
  rw [← hcnt, Nat.mul_add, Nat.mul_one, Nat.mul_comm _ cnt] at hround
  have hmax : cnt * (objectSize + BLOCK_BYTES) ≤ max 1 cnt * (objectSize + BLOCK_BYTES) :=
    Nat.mul_le_mul_right _ (Nat.le_max_right _ _)
  have hone : 1 * (objectSize + BLOCK_BYTES) ≤ max 1 cnt * (objectSize + BLOCK_BYTES) :=
    Nat.mul_le_mul_right _ (Nat.le_max_left _ _)
  unfold slabBytes
  generalize cnt * (objectSize + BLOCK_BYTES) = used at *
  generalize max 1 cnt * (objectSize + BLOCK_BYTES) = laid at *
  unfold slabRequest wantedBytes PAGE_SIZE SLAB_BYTES BLOCK_BYTES DEFAULT_SIZE at *
  interval_cases order <;> omega

end Setup

/-- **The memory of a slab does not hold its blocks.** For every object size for which
the arithmetic of `cache_setup` does not wrap, the blocks of a slab end inside the
memory that `alloc_slab` asks for only if there are none; and the one block that
`init_block_list` lays out even then does not fit either. -/
theorem slab_memory_too_small (objectSize p : Nat) (hwrap : wantedBytes objectSize < 2 ^ 64) :
    (BlocksInside (cacheSetup objectSize) (cacheSetup objectSize).slabObjects p ↔
        (cacheSetup objectSize).slabObjects = 0) ∧
      ¬ BlocksInside (cacheSetup objectSize) (max 1 (cacheSetup objectSize).slabObjects) p := by
  have hlt := slabRequest_lt hwrap
  refine ⟨⟨fun h => ?_, fun h => ?_⟩, fun h => ?_⟩
  · by_contra h0
    have hpos : 0 < (cacheSetup objectSize).slabObjects := Nat.pos_of_ne_zero h0
    rw [Nat.max_eq_right hpos] at hlt
    exact absurd ((blocksInside_iff hpos).mp h) (Nat.not_le_of_lt hlt)
  · rw [h]
    intro b hb
    cases hb
  · have hle := (blocksInside_iff (Nat.lt_of_lt_of_le Nat.one_pos (Nat.le_max_left _ _))).mp h
    exact absurd hle (Nat.not_le_of_lt hlt)

theorem slab_memory_too_small_int :
    wantedBytes 4 < 2 ^ 64 ∧
      (BlocksInside (cacheSetup 4) (cacheSetup 4).slabObjects 65536 ↔
        (cacheSetup 4).slabObjects = 0) ∧
      ¬ BlocksInside (cacheSetup 4) (max 1 (cacheSetup 4).slabObjects) 65536 :=
  ⟨by decide, slab_memory_too_small 4 65536 (by decide)⟩

/-- A `malloc` that gives exactly what it is asked for, at a fixed address. -/
def exactMalloc (n : Nat) : Option Region := some ⟨65536, n⟩

/-- Objects of 1000 bytes: a slab of 15 blocks, that is 15424 bytes, in 8192 bytes of
memory. Laying out the blocks leaves the memory, and would not in the 16384 bytes that
`cache_setup` counted with. -/
theorem slab_memory_short :
    let c := cacheSetup 1000
    c.slabObjects = 15 ∧ c.slabSize = 16384 ∧ slabRequest c.slabOrder = 8192 ∧
      ¬ BlocksInside c c.slabObjects 65536 ∧
      (createSlab blankHeap exactMalloc c.objectSize c.slabOrder c.slabObjects).isNone ∧
      (createSlab blankHeap (fun _ => exactMalloc c.slabSize) c.objectSize c.slabOrder
        c.slabObjects).isSome := by
  refine ⟨by decide, by decide, by decide, ?_, by decide +kernel, by decide +kernel⟩
  rw [blocksInside_iff (by decide)]
  decide

end LinuxWorkouts.MemCache
