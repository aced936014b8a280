/-
Memory that is handed out zeroed.

`setzero` clears whole words in a loop and the bytes behind them through a mask.
The masks of `alloc_utils.h` keep the low bytes of the last word and clear the high
ones, on a little-endian machine the wrong end: `SetzeroSpec` is what the call does and
`setzero_exact_iff` says when that is what it is for. `mycalloc` only calls
it with a last word that `myalloc` has just set to `ALLOCATED`, that is to zero, so there
the mask does no harm (`mycalloc_zeroes`).
-/

import LinuxWorkouts.Allocator.Tiling

namespace LinuxWorkouts.Allocator

open WordMemory Option

/-! ### `setzero` -/

section Setzero

variable {m : Mem} {ptr cnt : Nat}

theorem word_of_byte (i : Nat) (ha : ptr % 8 = 0) :
    wadd ptr i / 8 * 8 = ptrAdd ptr (i / 8) ∧ wadd ptr i % 8 = i % 8 := by
  unfold ptrAdd wadd
  omega

theorem ptrAdd_aligned (k : Nat) (ha : ptr % 8 = 0) : ptrAdd ptr k % 8 = 0 := by
  unfold ptrAdd wadd
  omega

theorem ptrAdd_zero (hptr : ptr < 2 ^ 64) : ptrAdd ptr 0 = ptr := by
  unfold ptrAdd wadd
  omega

theorem ptrAdd_succ (k : Nat) : ptrAdd (ptrAdd ptr 1) k = ptrAdd ptr (k + 1) := by
  unfold ptrAdd wadd
  omega

theorem ptrAdd_inj {j k : Nat} (hj : j < 2 ^ 61) (hk : k < 2 ^ 61)
    (h : ptrAdd ptr j = ptrAdd ptr k) : j = k := by
  unfold ptrAdd wadd at h
  omega

theorem setzeroLoop_spec {k fuel : Nat} (hptr : ptr < 2 ^ 64) (hk : k < 2 ^ 61) (hfuel : k < fuel) :
    ∃ m', setzeroLoop (ptrAdd ptr k) fuel m ptr = some (m', ptrAdd ptr k) ∧
      (∀ j < k, m'.load (ptrAdd ptr j) = 0) ∧
      ∀ a, (∀ j < k, a ≠ ptrAdd ptr j) → m'.load a = m.load a := by
  induction k generalizing m ptr fuel with
  | zero =>
    obtain ⟨fuel, rfl⟩ := Nat.exists_eq_add_one.mpr hfuel
    refine ⟨m, ?_, by simp, fun a _ => rfl⟩
    rw [setzeroLoop, ptrAdd_zero hptr, if_neg (by simp)]
  | succ k ih =>
    obtain ⟨fuel, rfl⟩ := Nat.exists_eq_add_one.mpr (Nat.zero_lt_of_lt hfuel)
    have hne : ptr ≠ ptrAdd ptr (k + 1) := by
      intro h
      have := ptrAdd_inj (by decide) hk ((ptrAdd_zero hptr).trans h)
      omega
    have hlt : ptrAdd ptr 1 < 2 ^ 64 := Nat.mod_lt _ (by decide)
    obtain ⟨m', hloop, hzero, hkept⟩ :=
      ih (m := m.store ptr 0) hlt (by omega) (Nat.lt_of_succ_lt_succ hfuel)
    simp only [ptrAdd_succ] at hloop hzero hkept
    refine ⟨m', ?_, fun j hj => ?_, fun a ha => ?_⟩
    · rw [setzeroLoop, if_pos hne, hloop]
    · cases j with
      | zero =>
        -- the later rounds leave the first word alone
        rw [ptrAdd_zero hptr, hkept, load_store_same (by decide)]
        intro i hi h
        have := ptrAdd_inj (by decide) (by omega) ((ptrAdd_zero hptr).trans h)
        omega
      | succ j => exact hzero j (by omega)
    · rw [hkept a fun j hj => ha (j + 1) (by omega), load_store_of_ne]
      have := ha 0 (by omega)
      rwa [ptrAdd_zero hptr] at this

theorem getOffsetMask_eq {r : Nat} (h0 : r ≠ 0) (h8 : r < 8) :
    getOffsetMask r = 256 ^ (8 - r) - 1 := by
  interval_cases r <;> first | rfl | exact absurd rfl h0

/-- What `setzero` does to the bytes: the whole words are cleared, in the word behind them
the last `cnt % 8` bytes are, and nothing else changes. -/
structure SetzeroSpec (m m' : Mem) (ptr cnt : Nat) : Prop where
  whole : ∀ i < cnt / 8 * 8, m'.byteAt (wadd ptr i) = 0
  tail : ∀ j < 8, m'.byteAt (ptrAdd ptr (cnt / 8) + j) =
    if j < 8 - cnt % 8 then m.byteAt (ptrAdd ptr (cnt / 8) + j) else 0
  outside : ∀ a, (∀ k < cnt / 8, a / 8 * 8 ≠ ptrAdd ptr k) → a / 8 * 8 ≠ ptrAdd ptr (cnt / 8) →
    m'.byteAt a = m.byteAt a

theorem setzero_spec (m : Mem) (hptr : ptr < 2 ^ 64) (ha : ptr % 8 = 0) (hcnt : cnt < 2 ^ 64) :
    ∃ m', setzero m ptr cnt = some m' ∧ SetzeroSpec m m' ptr cnt := by
  have hk : cnt / 8 < 2 ^ 61 := by omega
  have hfuel : cnt / 8 < walkLimit := by
    unfold walkLimit
    omega
  obtain ⟨m', hloop, hzero, hkept⟩ := setzeroLoop_spec (m := m) hptr hk hfuel
  have htail := ptrAdd_aligned (cnt / 8) ha
  have hword : cnt / 8 * 8 / 8 = cnt / 8 := by omega
  have hrest : cnt - cnt / 8 * 8 = cnt % 8 := by omega
  have hapart : ∀ k < cnt / 8, ptrAdd ptr (cnt / 8) ≠ ptrAdd ptr k := by
    intro k hlt h
    have := ptrAdd_inj hk (by omega) h
    omega
  have hwhole : ∀ i < cnt / 8 * 8, m'.byteAt (wadd ptr i) = 0 := by
    intro i hi
    apply byteAt_of_load_zero
    rw [(word_of_byte i ha).1, hzero _ (by omega)]
  have hsame : ∀ j < 8, m'.byteAt (ptrAdd ptr (cnt / 8) + j) =
      m.byteAt (ptrAdd ptr (cnt / 8) + j) := by
    intro j hj
    have hw : (ptrAdd ptr (cnt / 8) + j) / 8 * 8 = ptrAdd ptr (cnt / 8) := by omega
    apply byteAt_congr
    rw [hw, hkept _ hapart]
  simp only [setzero, hword, hrest, hloop, bind_eq_bind, bind_some]
  by_cases h0 : cnt % 8 = 0
  · rw [if_neg (not_not.mpr h0)]
    refine ⟨m', rfl, hwhole, fun j hj => ?_, fun a h1 h2 => byteAt_congr (hkept _ h1)⟩
    rw [if_pos (by omega), hsame j hj]
  · rw [if_pos h0, getOffsetMask_eq h0 (by omega), and_lowBytes]
    refine ⟨_, rfl, fun i hi => ?_, fun j hj => ?_, fun a h1 h2 => ?_⟩
    · rw [byteAt_congr, hwhole i hi]
      rw [(word_of_byte i ha).1]
      exact load_store_of_ne (hapart _ (by omega)).symm
    · rw [byteAt_store_mod _ _ htail hj, hsame j hj]
    · rw [byteAt_congr (load_store_of_ne h2), byteAt_congr (hkept _ h1)]

/-- Exactly the bytes `ptr[0..cnt)` are zero now, and no other byte has changed. -/
structure ZeroesExactly (m m' : Mem) (ptr cnt : Nat) : Prop where
  zeroed : ∀ i < cnt, m'.byteAt (wadd ptr i) = 0
  kept : ∀ a, (∀ i < cnt, a ≠ wadd ptr i) → m'.byteAt a = m.byteAt a

/-- With `r` bytes left for the last word, its first and its last `min r (8 - r)` bytes are
zero beforehand: the bytes that are wanted zero and kept, and those that are cleared and
wanted. -/
def TailClear (m : Mem) (ptr cnt : Nat) : Prop :=
  ∀ j < min (cnt % 8) (8 - cnt % 8), m.byteAt (ptrAdd ptr (cnt / 8) + j) = 0 ∧
    m.byteAt (ptrAdd ptr (cnt / 8) + (7 - j)) = 0

theorem tail_byte {j : Nat} (hj : j < 8) (ha : ptr % 8 = 0) :
    ptrAdd ptr (cnt / 8) + j = wadd ptr (cnt / 8 * 8 + j) := by
  unfold ptrAdd wadd
  omega

theorem wadd_inj {i j : Nat} (hi : i < 2 ^ 64) (hj : j < 2 ^ 64) (h : wadd ptr i = wadd ptr j) :
    i = j := by
  unfold wadd at h
  omega

theorem SetzeroSpec.exact_iff {m' : Mem} (hs : SetzeroSpec m m' ptr cnt) (ha : ptr % 8 = 0)
    (hcnt : cnt < 2 ^ 64) : ZeroesExactly m m' ptr cnt ↔ TailClear m ptr cnt := by
  constructor
  · intro h j hj
    rw [Nat.lt_min] at hj
    constructor
    · -- a byte of the range that the mask keeps
      have hnew := h.zeroed (cnt / 8 * 8 + j) (by omega)
      rwa [← tail_byte (by omega) ha, hs.tail j (by omega), if_pos hj.2] at hnew
    · -- a byte behind the range that the mask clears
      have hnew := hs.tail (7 - j) (by omega)
      rw [if_neg (by omega), h.kept] at hnew
      · exact hnew
      · intro i hi heq
        rw [tail_byte (by omega) ha] at heq
        have := wadd_inj (by omega) (by omega) heq
        omega
  · intro h
    constructor
    · intro i hi
      by_cases hwhole : i < cnt / 8 * 8
      · exact hs.whole i hwhole
      · obtain ⟨j, rfl⟩ := Nat.exists_eq_add_of_le (Nat.le_of_not_lt hwhole)
        rw [← tail_byte (by omega) ha, hs.tail j (by omega)]
        split
        · next hlow => exact (h j (by omega)).1
        · rfl
    · intro a hout
      have hsplit : a / 8 * 8 + a % 8 = a := by omega
      have hlt : a % 8 < 8 := Nat.mod_lt _ (by decide)
      by_cases htail : a / 8 * 8 = ptrAdd ptr (cnt / 8)
      · have hr : cnt % 8 ≤ a % 8 := by
          by_contra hlow
          apply hout (cnt / 8 * 8 + a % 8) (by omega)
          rw [← tail_byte hlt ha, ← htail, hsplit]
        have hnew := hs.tail (a % 8) hlt
        rw [← htail, hsplit] at hnew
        rw [hnew]
        split
        · rfl
        · next hhigh =>
          have hold := (h (7 - a % 8) (by omega)).2
          have hback : 7 - (7 - a % 8) = a % 8 := by omega
          rw [hback, ← htail, hsplit] at hold
          exact hold.symm
      · refine hs.outside a (fun k hk hword => ?_) htail
        apply hout (8 * k + a % 8) (by omega)
        unfold ptrAdd wadd at *
        omega

/-- **What `setzero` is for.** It always returns; it zeroes exactly the bytes
`ptr[0..cnt)` if and only if the bytes at both ends of the last word, as many as the mask is
off by, are zero already. -/
theorem setzero_exact_iff (m : Mem) (ptr cnt : Nat) (hptr : ptr < 2 ^ 64) (ha : ptr % 8 = 0)
    (hcnt : cnt < 2 ^ 64) :
    ∃ m', setzero m ptr cnt = some m' ∧ (ZeroesExactly m m' ptr cnt ↔ TailClear m ptr cnt) := by
  obtain ⟨m', hrun, hspec⟩ := setzero_spec m hptr ha hcnt
  exact ⟨m', hrun, hspec.exact_iff ha hcnt⟩

end Setzero

def onesMem : Mem := ⟨fun _ => 0xFFFFFFFFFFFFFFFF⟩

/-- Sixteen bytes are whole words, and there is no end that the mask could miss. -/
theorem setzero_exact_iff_words :
    ∃ m', setzero onesMem 65536 16 = some m' ∧ ZeroesExactly onesMem m' 65536 16 := by
  obtain ⟨m', hrun, hexact⟩ :=
    setzero_exact_iff onesMem 65536 16 (by decide) (by decide) (by decide)
  exact ⟨m', hrun, hexact.mpr fun j hj => absurd hj (Nat.not_lt_zero j)⟩

/-- One byte is to be cleared: it keeps its value, and the last byte of its word is
cleared. -/
theorem setzero_wrong_end :
    ∃ m', setzero onesMem 65536 1 = some m' ∧ m'.byteAt 65536 = 255 ∧ m'.byteAt 65543 = 0 ∧
      ¬ ZeroesExactly onesMem m' 65536 1 := by
  have hrun : (setzero onesMem 65536 1).map (fun m' => (m'.byteAt 65536, m'.byteAt 65543)) =
      some (255, 0) := by decide +kernel
  obtain ⟨m', hm', hbytes⟩ := map_eq_some_iff.mp hrun
  rw [Prod.mk.injEq] at hbytes
  refine ⟨m', hm', hbytes.1, hbytes.2, fun h => ?_⟩
  have hzero := h.zeroed 0 (by decide)
  have haddr : wadd 65536 0 = 65536 := rfl
  rw [haddr, hbytes.1] at hzero
  exact absurd hzero (by decide)

/-! ### `mycalloc` -/

/-- The words `myalloc` writes: the size word and the new right marker of the chunk it
takes from, the header and the right marker of the new chunk, and the links of both
neighbours. -/
def allocWrites (h : Heap) (n : Nat) : List Nat :=
  let realSize := wadd n METAINFO_SIZE
  match findChunk h.mem h.head realSize with
  | none => []
  | some chunk =>
    if chunk = 0 then []
    else
      let oldChunkNewSize := wsub (getSize h.mem chunk) realSize
      let newChunk := chunkInitMetainfo (ptrAdd chunk (oldChunkNewSize / 8 + 1))
      let next := getNextChunkPtr h.mem chunk
      [ptrSub chunk SIZE_OFFSET, ptrAdd chunk (oldChunkNewSize / 8),
        ptrSub newChunk SIZE_OFFSET, ptrSub newChunk NEXT_OFFSET, ptrSub newChunk PREV_OFFSET,
        ptrSub newChunk L_BORDER_MARKER_OFFSET, ptrAdd newChunk (n / 8),
        ptrSub chunk NEXT_OFFSET] ++
        if next ≠ 0 then [ptrSub next PREV_OFFSET] else []

section Calloc

variable {h : Heap} {lo hi n : Nat} {xs ys : List Chunk} {c : Chunk}

def carveWrites (c : Chunk) (n nx : Nat) : List Nat :=
  let q := (c.carved n).addr
  [c.addr - 32, (c.shrunk n).marker, q - 32, q - 24, q - 16, q - 8, (c.carved n).marker,
    c.addr - 24] ++ if nx ≠ 0 then [nx - 16] else []

theorem carveMem_frame {m : Mem} {nx a : Nat} (ha : a ∉ carveWrites c n nx) :
    (carveMem m c n nx).load a = m.load a := by
  have hlog : ∃ log : List (Nat × Nat), (∀ w ∈ log, w.1 ∈ carveWrites c n nx) ∧
      carveMem m c n nx = m.storeAll log := by
    let q := (c.carved n).addr
    let front : List (Nat × Nat) := [(c.addr - 32, (c.shrunk n).size), ((c.shrunk n).marker, FREE),
      (q - 32, n), (q - 24, 0), (q - 16, 0), (q - 8, ALLOCATED), ((c.carved n).marker, ALLOCATED)]
    let links : List (Nat × Nat) := [(q - 24, nx), (q - 16, c.addr), (c.addr - 24, q)]
    by_cases h0 : nx = 0
    · refine ⟨front ++ links, by simp [front, links, carveWrites, q], ?_⟩
      simp only [carveMem, if_neg (not_not.mpr h0)]
      rfl
    · refine ⟨front ++ (nx - 16, q) :: links, by simp [front, links, carveWrites, q, h0], ?_⟩
      simp only [carveMem, if_pos h0]
      rfl
  obtain ⟨log, hin, heq⟩ := hlog
  rw [heq]
  exact load_storeAll_of_forall_ne fun w hw h => ha (h ▸ hin w hw)

theorem allocWrites_eq (hr : Represents h lo (xs ++ c :: ys) hi) (hxs : ∀ x ∈ xs, x.size ≤ n + 40)
    (hc : n + 40 < c.size) : allocWrites h n = carveWrites c n ((ys.map Chunk.addr).headD 0) := by
  have hsize := hr.size_lt (c := c) (by simp)
  obtain ⟨ha1, ha2⟩ := hr.addr_range (c := c) (by simp)
  have hstop := hr.stop_le (c := c) (by simp)
  have hcarved := carved_stop_le hc
  have hreal : wadd n METAINFO_SIZE = n + 40 := wadd_of_lt (by unfold METAINFO_SIZE; omega)
  have hnew : wsub c.size (n + 40) = (c.shrunk n).size := wsub_of_le (by omega) hsize
  obtain ⟨s, -, -, hsy⟩ := spaced_append.mp hr.spaced
  have hnext := hr.getNext_mem
  have hnx : (ys.map Chunk.addr).headD 0 < 2 ^ 64 := by
    rw [← hnext, getNextChunkPtr_eq ha1 ha2]
    exact load_lt _ _
  have hq : (c.carved n).addr = c.addr + (c.shrunk n).size / 8 * 8 + 40 := rfl
  have hstop' : (c.carved n).stop = (c.carved n).addr + n / 8 * 8 + 8 := rfl
  have hmark : ptrAdd c.addr ((c.shrunk n).size / 8) = (c.shrunk n).marker := by
    rw [ptrAdd_eq (by omega), Nat.mul_comm]
    rfl
  have hinit : chunkInitMetainfo (ptrAdd c.addr ((c.shrunk n).size / 8 + 1)) =
      (c.carved n).addr := by
    rw [chunkInitMetainfo, HEADER_SIZE, ptrAdd_eq (p := c.addr) (by omega), ptrAdd_eq (by omega)]
    omega
  have hmark' : ptrAdd (c.carved n).addr (n / 8) = (c.carved n).marker := by
    rw [ptrAdd_eq (by omega), Nat.mul_comm]
    rfl
  have hsub : ∀ {p k : Nat}, 32 ≤ p → p < 2 ^ 64 → k ≤ 4 → ptrSub p k = p - 8 * k :=
    fun h1 h2 h3 => ptrSub_eq (by omega) h2
  simp only [allocWrites, hreal, findChunk_eq hr, find_first_fit hxs hc, map_some,
    getD_some, hr.getSize_mem (c := c) (by simp), hnew, hinit, hmark, hmark', hnext]
  rw [if_neg (by omega)]
  simp only [SIZE_OFFSET, NEXT_OFFSET, PREV_OFFSET, L_BORDER_MARKER_OFFSET, carveWrites]
  rw [hsub ha1 ha2 (by omega), hsub (p := (c.carved n).addr) (by omega) (by omega) (by omega),
    hsub (p := (c.carved n).addr) (by omega) (by omega) (by omega),
    hsub (p := (c.carved n).addr) (by omega) (by omega) (by omega),
    hsub (p := (c.carved n).addr) (by omega) (by omega) (by omega),
    hsub ha1 ha2 (by omega)]
  by_cases h0 : (ys.map Chunk.addr).headD 0 = 0
  · rw [if_neg (not_not.mpr h0), if_neg (not_not.mpr h0)]
  · have hle := hsy.le_head h0
    rw [if_pos h0, if_pos h0, hsub (by omega) hnx (by omega)]

theorem setzero_carved (hr : Represents h lo (xs ++ c :: ys) hi) (hc : n + 40 < c.size)
    (ha : c.addr % 8 = 0) :
    let m := carveMem h.mem c n ((ys.map Chunk.addr).headD 0)
    ∃ m', setzero m (c.carved n).addr n = some m' ∧ ZeroesExactly m m' (c.carved n).addr n := by
  intro m
  obtain ⟨ha1, ha2⟩ := hr.addr_range (c := c) (by simp)
  have hstop := hr.stop_le (c := c) (by simp)
  have hcarved := carved_stop_le hc
  obtain ⟨s, -, -, hsy⟩ := spaced_append.mp hr.spaced
  have hnx : (ys.map Chunk.addr).headD 0 < 2 ^ 64 := by
    rw [← hr.getNext_mem, getNextChunkPtr_eq ha1 ha2]
    exact load_lt _ _
  have spec := carveMem_spec (m := h.mem) hc (hr.size_lt (by simp)) ha1 hstop hnx hsy.le_head
  obtain ⟨hext, hext'⟩ := (c.carved n).extent
  have hq : (c.carved n).addr % 8 = 0 := by
    simp only [Chunk.carved]
    omega
  have hn : n < 2 ^ 64 := by
    have := hr.size_lt (c := c) (by simp)
    omega
  have hlt : (c.carved n).addr < 2 ^ 64 := by omega
  obtain ⟨m', hrun, hsz⟩ := setzero_spec m hlt hq hn
  refine ⟨m', hrun, (hsz.exact_iff hq hn).mpr fun j hj => ?_⟩
  have hmark : ptrAdd (c.carved n).addr (n / 8) = (c.carved n).marker := by
    have : (c.carved n).marker = (c.carved n).addr + n / 8 * 8 := rfl
    rw [ptrAdd_eq (by omega), this, Nat.mul_comm]
  have hword : ∀ i < 8, m.byteAt (ptrAdd (c.carved n).addr (n / 8) + i) = 0 := by
    intro i hi
    have haligned := ptrAdd_aligned (n / 8) hq
    have hw : (ptrAdd (c.carved n).addr (n / 8) + i) / 8 * 8 =
        ptrAdd (c.carved n).addr (n / 8) := by omega
    apply byteAt_of_load_zero
    rw [hw, hmark]
    exact spec.newRight
  exact ⟨hword j (by omega), hword (7 - j) (by omega)⟩

/-- **`mycalloc` returns zeroed memory.** On every well-formed heap with any content, where
neither the product nor the request wraps: when a pointer is returned, its bytes are zero, and
beyond them only words that `myalloc` writes have changed. -/
theorem mycalloc_zeroes {first last : Nat} {ps : List Nat} (hw : WellFormed h first last ps)
    (hfirst : first % 8 = 0) (numitems size : Nat)
    (hwrap : numitems * size + METAINFO_SIZE < 2 ^ 64) :
    ∃ h' p, mycalloc h numitems size = some (h', p) ∧
      (p ≠ 0 →
        (∀ i < numitems * size, h'.mem.byteAt (p + i) = 0) ∧
        ∀ a, a / 8 * 8 ∉ allocWrites h (numitems * size) →
          (∀ i < numitems * size, a ≠ p + i) → h'.mem.byteAt a = h.mem.byteAt a) := by
  have hrep := hw.represents
  have haligned := hw.tiled.aligned hfirst
  have hmod : numitems * size % 2 ^ 64 = numitems * size := by
    unfold METAINFO_SIZE at hwrap
    omega
  simp only [mycalloc, hmod]
  generalize numitems * size = n at *
  generalize ps.map (readChunk h.mem) = cs at *
  by_cases hfit : ∃ c ∈ cs, n + 40 < c.size
  · obtain ⟨xs, c, ys, rfl, hxs, hc⟩ := exists_first_fit hfit
    have hstop := hrep.stop_le (c := c) (by simp)
    have hcarved := carved_stop_le hc
    have hend : (c.carved n).stop = (c.carved n).addr + n / 8 * 8 + 8 := rfl
    have hq : (c.carved n).addr ≠ 0 := by simp [Chunk.carved]
    obtain ⟨m', hzero, hexact⟩ := setzero_carved hrep hc (haligned c (by simp))
    have hin : ∀ i < n, wadd (c.carved n).addr i = (c.carved n).addr + i :=
      fun i hi => wadd_of_lt (by omega)
    refine ⟨⟨m', h.head⟩, (c.carved n).addr, ?_, fun _ => ⟨fun i hi => ?_, fun a hout hrange => ?_⟩⟩
    · simp only [myalloc_eq hrep hxs hc, bind_eq_bind, bind_some, if_neg hq, hzero]
    · rw [← hin i hi]
      exact hexact.zeroed i hi
    · rw [allocWrites_eq hrep hxs hc] at hout
      rw [hexact.kept a fun i hi => (hin i hi).symm ▸ hrange i hi]
      exact byteAt_congr (carveMem_frame hout)
  · have hnone : ∀ c ∈ cs, c.size ≤ n + 40 := fun c hc =>
      Nat.le_of_not_lt fun hlt => hfit ⟨c, hc, hlt⟩
    refine ⟨h, 0, ?_, fun h0 => absurd rfl h0⟩
    simp only [myalloc_null hrep hwrap hnone, bind_eq_bind, bind_some, if_true]

/-- Three items of five bytes in a buffer where every bit is set. -/
theorem mycalloc_zeroes_items :
    (mycalloc (mysetup onesMem 65536 4096) 3 5).map Prod.snd = some 69608 ∧
      ∃ h' p, mycalloc (mysetup onesMem 65536 4096) 3 5 = some (h', p) ∧
        (p ≠ 0 →
          (∀ i < 3 * 5, h'.mem.byteAt (p + i) = 0) ∧
          ∀ a, a / 8 * 8 ∉ allocWrites (mysetup onesMem 65536 4096) (3 * 5) →
            (∀ i < 3 * 5, a ≠ p + i) →
            h'.mem.byteAt a = (mysetup onesMem 65536 4096).mem.byteAt a) :=
  ⟨by decide +kernel, mycalloc_zeroes (mysetup_wellFormed onesMem (show 4096 % 8 = 0 by decide)
    (by decide) (show 65536 + 4096 ≤ 2 ^ 64 by decide)) (by decide) 3 5 (by decide)⟩

end Calloc

end LinuxWorkouts.Allocator
