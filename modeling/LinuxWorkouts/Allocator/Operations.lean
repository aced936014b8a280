/-
What `myalloc` and `myfree` do to the chunk list.

Each memory operation of the C code is one edit of the represented list:

* `myalloc_represents`: the first chunk that is large enough, free or not, is
  shrunk and a new chunk is carved off its end; `myalloc_null` is the other
  case, in which nothing changes;
* `freeChunk_represents` and `mergeChunks_represents`: marking a chunk and
  merging two neighbours. A merge needs room, because the stored sizes are added
  while the addresses were rounded down to words;
* `myfree_branch` is the case analysis of `myfree` on the memory;
  `myfree_represents` makes of each branch one of the steps of `FreeStep`.
-/

import LinuxWorkouts.Allocator.Chunks

namespace LinuxWorkouts.Allocator

open WordMemory DoublyLinked List

/-! ### Edits of one chunk record -/

def Chunk.shrunk (c : Chunk) (n : Nat) : Chunk :=
  { c with size := c.size - (n + 40), right := FREE }

def Chunk.carved (c : Chunk) (n : Nat) : Chunk :=
  ⟨c.addr + (c.size - (n + 40)) / 8 * 8 + 40, n, ALLOCATED, ALLOCATED⟩

def Chunk.freed (c : Chunk) : Chunk := { c with left := FREE, right := FREE }

/-- `l` after it took over `r`. The word where the new right marker is looked for
need not be the marker of `r`, so its content `v` is a parameter. -/
def Chunk.merge (l r : Chunk) (v : Nat) : Chunk := ⟨l.addr, l.size + r.size + 40, FREE, v⟩

@[simp] theorem merge_size (l r : Chunk) (v : Nat) :
    (l.merge r v).size = l.size + r.size + 40 := rfl

/-- There is room to merge `l` and `r` in front of `lim`: where the residues of the
two stored sizes carry into a word of their own, a spare word lies between `l`
and `r` or behind `r`. -/
def MergeFits (l r : Chunk) (lim : Nat) : Prop :=
  (l.size % 8 + r.size % 8) / 8 * 8 ≤ (r.addr - (l.stop + 32)) + (lim - r.stop)

instance (l r : Chunk) (lim : Nat) : Decidable (MergeFits l r lim) :=
  inferInstanceAs (Decidable (_ ≤ _))

theorem mergeFits_iff {l r : Chunk} {v lim : Nat} (hlr : l.stop + 32 ≤ r.addr)
    (hlim : r.stop ≤ lim) : MergeFits l r lim ↔ (l.merge r v).stop ≤ lim := by
  simp only [MergeFits, Chunk.stop, Chunk.marker, Chunk.merge] at *
  omega

theorem merge_marker (l r : Chunk) (v w : Nat) : (l.merge r v).marker = (l.merge r w).marker := rfl

theorem mergeFits_of_no_carry {l r : Chunk} (h : l.size % 8 + r.size % 8 < 8) (lim : Nat) :
    MergeFits l r lim := by
  unfold MergeFits
  omega

/-! ### The setters of a chunk as plain stores -/

theorem makeChunk_eq (m : Mem) (q size status : Nat) (h1 : 32 ≤ q)
    (h2 : q + size / 8 * 8 < 2 ^ 64) :
    makeChunk m (q - 32) size status =
      (((((m.store (q - 32) size).store (q - 24) 0).store (q - 16) 0).store (q - 8) status).store
        (q + size / 8 * 8) status, q) := by
  have hq : chunkInitMetainfo (q - 32) = q := by
    rw [chunkInitMetainfo, HEADER_SIZE, ptrAdd_eq (by omega)]
    omega
  simp only [makeChunk, hq]
  rw [setSize_eq h1 (by omega), setNextChunkPtr_eq h1 (by omega), setPrevChunkPtr_eq h1 (by omega),
    setLeftBorderMarker_eq h1 (by omega), setRightBorderMarker_eq h2]

variable {nx k : Nat} {cs : List Chunk}

theorem addNext_eq {m : Mem} {l r : Nat} (hl1 : 32 ≤ l) (hl2 : l < 2 ^ 64) (hr1 : 32 ≤ r)
    (hr2 : r < 2 ^ 64) (hnext : nextOf m l = nx) (hnx : nx ≠ 0 → 32 ≤ nx) :
    addNext m l r =
      (((if nx ≠ 0 then m.store (nx - 16) r else m).store (r - 24) nx).store (r - 16) l).store
        (l - 24) r := by
  have hlt : nx < 2 ^ 64 := hnext ▸ load_lt _ _
  simp only [addNext, getNextChunkPtr_eq hl1 hl2, hnext]
  rw [setNextChunkPtr_eq hr1 hr2, setPrevChunkPtr_eq hr1 hr2, setNextChunkPtr_eq hl1 hl2]
  by_cases h0 : nx = 0
  · simp [h0]
  · rw [if_pos h0, if_pos h0, setPrevChunkPtr_eq (hnx h0) hlt]

theorem mysetup_represents (m : Mem) {buf size : Nat} (hsize : 40 ≤ size)
    (hend : buf + size ≤ 2 ^ 64) :
    Represents (mysetup m buf size) buf [⟨buf + 32, size - 40, FREE, FREE⟩] (buf + size) := by
  have hsub : wsub size METAINFO_SIZE = size - 40 := by
    unfold METAINFO_SIZE wsub
    omega
  have hmake := makeChunk_eq m (buf + 32) (size - 40) FREE (by omega) (by omega)
  rw [Nat.add_sub_cancel] at hmake
  have hfree : FREE < 2 ^ 64 := by decide
  have hmark : buf + 32 + (size - 40) / 8 * 8 < 2 ^ 64 := by omega
  simp only [mysetup, hsub, hmake]
  refine ⟨rfl, ?_, ?_, ?_, hend⟩
  · intro c hc
    rcases mem_singleton.mp hc with rfl
    constructor <;>
      simp (disch := omega) only [Chunk.marker, Nat.add_sub_cancel, load_store_same,
        load_store_of_ne]
  · refine ⟨?_, ?_, trivial⟩ <;>
      simp (disch := omega) only [prevOf, nextOf, load_store_same, load_store_of_ne]
    rfl
  · refine ⟨Nat.le_refl _, ?_⟩
    simp only [Spaced, Chunk.stop, Chunk.marker]
    omega

section Alloc

variable {h : Heap} {lo hi n : Nat} {xs ys : List Chunk} {c : Chunk}

theorem find_none (hcs : ∀ c ∈ cs, c.size ≤ k) :
    cs.find? (fun d => decide (k < d.size)) = none := by
  rw [find?_eq_none]
  intro x hx
  have := hcs x hx
  simpa using this

theorem find_first_fit (hxs : ∀ x ∈ xs, x.size ≤ k) (hc : k < c.size) :
    (xs ++ c :: ys).find? (fun d => decide (k < d.size)) = some c := by
  rw [find?_append, find_none hxs]
  simp [hc]

theorem carved_stop_le (hc : n + 40 < c.size) : (c.carved n).stop ≤ c.stop := by
  simp only [Chunk.stop, Chunk.marker, Chunk.carved]
  omega

theorem carved_addr (c : Chunk) (n : Nat) : (c.carved n).addr = (c.shrunk n).stop + 32 := by
  simp only [Chunk.stop, Chunk.marker, Chunk.carved, Chunk.shrunk]

/-- The memory after a request of `n` bytes was carved off `c`; `nx` is the chunk
behind `c`. -/
def carveMem (m : Mem) (c : Chunk) (n nx : Nat) : Mem :=
  let q := (c.carved n).addr
  let m := m.store (c.addr - 32) (c.shrunk n).size
  let m := m.store (c.shrunk n).marker FREE
  let m := m.store (q - 32) n
  let m := m.store (q - 24) 0
  let m := m.store (q - 16) 0
  let m := m.store (q - 8) ALLOCATED
  let m := m.store (c.carved n).marker ALLOCATED
  let m := if nx ≠ 0 then m.store (nx - 16) q else m
  let m := m.store (q - 24) nx
  let m := m.store (q - 16) c.addr
  m.store (c.addr - 24) q

theorem myalloc_eq (hr : Represents h lo (xs ++ c :: ys) hi) (hxs : ∀ x ∈ xs, x.size ≤ n + 40)
    (hc : n + 40 < c.size) :
    myalloc h n = some (⟨carveMem h.mem c n ((ys.map Chunk.addr).headD 0), h.head⟩,
      (c.carved n).addr) := by
  have hsize := hr.size_lt (c := c) (by simp)
  obtain ⟨ha1, ha2⟩ := hr.addr_range (c := c) (by simp)
  have hstop := hr.stop_le (c := c) (by simp)
  have hnext := hr.getNext_mem
  have hreal : wadd n METAINFO_SIZE = n + 40 := wadd_of_lt (by unfold METAINFO_SIZE; omega)
  have hnew : wsub c.size (n + 40) = (c.shrunk n).size := wsub_of_le (by omega) hsize
  have hcarved := carved_stop_le hc
  have hq := carved_addr c n
  have hoffset : ptrAdd c.addr ((c.shrunk n).size / 8 + 1) = (c.carved n).addr - 32 := by
    rw [hq]
    simp only [Chunk.stop, Chunk.marker, Chunk.shrunk] at hstop ⊢
    rw [ptrAdd_eq (by omega)]
    omega
  have hmark : c.addr + (c.shrunk n).size / 8 * 8 = (c.shrunk n).marker := rfl
  have hmark' : (c.carved n).addr + n / 8 * 8 = (c.carved n).marker := rfl
  have hle : (c.shrunk n).marker + 40 = (c.carved n).addr := rfl
  have hle' : (c.carved n).marker + 8 = (c.carved n).stop := rfl
  -- the carved chunk is initialised without touching the next pointer of `c`
  have hkeep : nextOf h.mem c.addr = (ys.map Chunk.addr).headD 0 := by
    rw [← hnext, getNextChunkPtr_eq ha1 ha2]
  obtain ⟨s, -, hsc, hsy⟩ := spaced_append.mp hr.spaced
  have hnx : (ys.map Chunk.addr).headD 0 ≠ 0 → 32 ≤ (ys.map Chunk.addr).headD 0 :=
    fun h0 => Nat.le_of_add_left_le (hsy.le_head h0)
  simp only [myalloc, hreal, findChunk_eq hr, find_first_fit hxs hc, Option.map_some,
    Option.getD_some, hr.getSize_mem (c := c) (by simp), hnew, hoffset]
  rw [if_neg (by omega), setSize_eq ha1 ha2, setRightBorderMarker_eq (by omega), hmark,
    makeChunk_eq _ _ _ _ (by omega) (by omega), hmark']
  dsimp only
  rw [addNext_eq ha1 ha2 (by omega) (by omega) _ hnx]
  · rfl
  · rw [← hkeep]
    unfold nextOf
    simp (disch := omega) only [load_store_of_ne]

/-- Every word `carveMem` can change, with its new value. -/
structure CarveSpec (m m' : Mem) (c : Chunk) (n nx : Nat) : Prop where
  outside : ∀ a, a < c.addr - 32 ∨ c.stop ≤ a → (nx ≠ 0 → a ≠ nx - 16) → m'.load a = m.load a
  size : m'.load (c.addr - 32) = (c.shrunk n).size
  next : m'.load (c.addr - 24) = (c.carved n).addr
  prev : m'.load (c.addr - 16) = m.load (c.addr - 16)
  left : m'.load (c.addr - 8) = m.load (c.addr - 8)
  right : m'.load (c.shrunk n).marker = FREE
  newSize : m'.load ((c.carved n).addr - 32) = n
  newNext : m'.load ((c.carved n).addr - 24) = nx
  newPrev : m'.load ((c.carved n).addr - 16) = c.addr
  newLeft : m'.load ((c.carved n).addr - 8) = ALLOCATED
  newRight : m'.load (c.carved n).marker = ALLOCATED
  back : nx ≠ 0 → m'.load (nx - 16) = (c.carved n).addr

theorem carveMem_spec {m : Mem} (hc : n + 40 < c.size) (hsize : c.size < 2 ^ 64) (ha : 32 ≤ c.addr)
    (hstop : c.stop ≤ 2 ^ 64) (hnx : nx < 2 ^ 64) (hbehind : nx ≠ 0 → c.stop + 32 ≤ nx) :
    CarveSpec m (carveMem m c n nx) c n nx := by
  have hcarved := carved_stop_le hc
  have hq : (c.shrunk n).marker + 40 = (c.carved n).addr := rfl
  obtain ⟨hq1, hq2⟩ := (c.carved n).extent
  have hm : c.addr ≤ (c.shrunk n).marker := (c.shrunk n).extent.1
  have hnew : (c.shrunk n).size < 2 ^ 64 := Nat.lt_of_le_of_lt (Nat.sub_le _ _) hsize
  have hfree : FREE < 2 ^ 64 := by decide
  have halloc : ALLOCATED < 2 ^ 64 := by decide
  by_cases h0 : nx = 0
  · constructor <;> intros <;>
      simp (disch := omega) only [carveMem, h0, ne_eq, not_true_eq_false, if_false,
        load_store_same, load_store_of_ne]
    contradiction
  · have hb := hbehind h0
    constructor <;> intros <;>
      simp (disch := omega) only [carveMem, if_pos h0, load_store_same, load_store_of_ne]

theorem myalloc_represents (hr : Represents h lo (xs ++ c :: ys) hi)
    (hxs : ∀ x ∈ xs, x.size ≤ n + 40) (hc : n + 40 < c.size) :
    ∃ m', myalloc h n = some (⟨m', h.head⟩, (c.carved n).addr) ∧
      Represents ⟨m', h.head⟩ lo (xs ++ c.shrunk n :: c.carved n :: ys) hi := by
  refine ⟨_, myalloc_eq hr hxs hc, ?_⟩
  obtain ⟨ha1, ha2⟩ := hr.addr_range (c := c) (by simp)
  have hstored := hr.stored c (by simp)
  obtain ⟨s, hsx, hsc, hsy⟩ := spaced_append.mp hr.spaced
  have hlink := hr.linked
  rw [map_append, seg_append] at hlink
  obtain ⟨-, hprev, hnext, -⟩ := hlink
  have hnx : (ys.map Chunk.addr).headD 0 < 2 ^ 64 := hnext ▸ load_lt _ _
  have spec := carveMem_spec (m := h.mem) hc (hr.size_lt (by simp)) ha1 (hr.stop_le (by simp)) hnx
    hsy.le_head
  have hnew : Spaced s [c.shrunk n, c.carved n] c.stop :=
    ⟨hsc, Nat.le_of_eq (carved_addr c n).symm, carved_stop_le hc⟩
  have hedit := Represents.edit c [] (c.shrunk n) [c.carved n]
    (carveMem h.mem c n ((ys.map Chunk.addr).headD 0)) (by simpa using hr) rfl hsx hnew hsy
    ?_ ?_ ?_ ?_
  · simpa using hedit
  · exact agreeOutside_of_head (by omega) (Nat.le_refl _) spec.outside
  · intro d hd
    rcases mem_pair.mp hd with rfl | rfl
    · exact ⟨spec.size, spec.left.trans hstored.left, spec.right⟩
    · exact ⟨spec.newSize, spec.newLeft, spec.newRight⟩
  · exact ⟨spec.prev.trans hprev, spec.next, spec.newPrev, spec.newNext, trivial⟩
  · intro y hy
    obtain ⟨hy1, hy2⟩ := hsy.head_eq hy
    rw [prevOf, ← hy1, spec.back (by omega)]
    rfl

theorem myalloc_null (hr : Represents h lo cs hi) (hn : n + 40 < 2 ^ 64)
    (hcs : ∀ c ∈ cs, c.size ≤ n + 40) : myalloc h n = some (h, 0) := by
  have hreal : wadd n METAINFO_SIZE = n + 40 := wadd_of_lt hn
  simp [myalloc, hreal, findChunk_eq hr, find_none hcs]

def allocChunks (n : Nat) : List Chunk → List Chunk × Nat
  | [] => ([], 0)
  | c :: cs =>
    if n + METAINFO_SIZE < c.size then (c.shrunk n :: c.carved n :: cs, (c.carved n).addr)
    else (c :: (allocChunks n cs).1, (allocChunks n cs).2)

theorem allocChunks_fits (hxs : ∀ x ∈ xs, x.size ≤ n + 40) (hc : n + 40 < c.size) :
    allocChunks n (xs ++ c :: ys) =
      (xs ++ c.shrunk n :: c.carved n :: ys, (c.carved n).addr) := by
  induction xs with
  | nil => simp [allocChunks, METAINFO_SIZE, hc]
  | cons x xs ih =>
    have hx := hxs x (by simp)
    have hrest := ih fun y hy => hxs y (by simp [hy])
    rw [cons_append, allocChunks, METAINFO_SIZE, if_neg (by omega), hrest]
    rfl

theorem allocChunks_null (hcs : ∀ c ∈ cs, c.size ≤ n + 40) : allocChunks n cs = (cs, 0) := by
  induction cs with
  | nil => rfl
  | cons c cs ih =>
    have hc := hcs c (by simp)
    have hrest := ih fun d hd => hcs d (by simp [hd])
    rw [allocChunks, METAINFO_SIZE, if_neg (by omega), hrest]

theorem exists_first_fit (h : ∃ c ∈ cs, k < c.size) :
    ∃ (xs : List Chunk) (c : Chunk) (ys : List Chunk),
      cs = xs ++ c :: ys ∧ (∀ x ∈ xs, x.size ≤ k) ∧ k < c.size := by
  induction cs with
  | nil => simp at h
  | cons d ds ih =>
    by_cases hd : k < d.size
    · exact ⟨[], d, ds, rfl, by simp, hd⟩
    · obtain ⟨c, hc, hk⟩ := h
      have hmem : c ∈ ds := by
        rcases mem_cons.mp hc with rfl | hc
        · exact absurd hk hd
        · exact hc
      obtain ⟨xs, e, ys, rfl, hxs, he⟩ := ih ⟨c, hmem, hk⟩
      refine ⟨d :: xs, e, ys, rfl, ?_, he⟩
      intro x hx
      rcases mem_cons.mp hx with rfl | hx
      · exact Nat.le_of_not_lt hd
      · exact hxs x hx

theorem myalloc_allocChunks (hr : Represents h lo cs hi) (hn : n + 40 < 2 ^ 64) :
    ∃ m', myalloc h n = some (⟨m', h.head⟩, (allocChunks n cs).2) ∧
      Represents ⟨m', h.head⟩ lo (allocChunks n cs).1 hi := by
  by_cases hfit : ∃ c ∈ cs, n + 40 < c.size
  · obtain ⟨xs, c, ys, rfl, hxs, hc⟩ := exists_first_fit hfit
    rw [allocChunks_fits hxs hc]
    exact myalloc_represents hr hxs hc
  · have hcs : ∀ c ∈ cs, c.size ≤ n + 40 := fun c hc =>
      Nat.le_of_not_lt fun hlt => hfit ⟨c, hc, hlt⟩
    rw [allocChunks_null hcs]
    exact ⟨h.mem, myalloc_null hr hn hcs, hr⟩

end Alloc

section Free

variable {h : Heap} {lo hi : Nat} {xs ys : List Chunk} {c l r : Chunk}

theorem freeChunk_eq (hr : Represents h lo (xs ++ c :: ys) hi) :
    freeChunk h.mem c.addr = (h.mem.store (c.addr - 8) FREE).store c.marker FREE := by
  obtain ⟨ha1, ha2⟩ := hr.addr_range (c := c) (by simp)
  have hstop := hr.stop_le (c := c) (by simp)
  have hsize : getSize (h.mem.store (c.addr - 8) FREE) c.addr = c.size := by
    rw [getSize_eq ha1 ha2, load_store_of_ne (by omega), (hr.stored c (by simp)).size]
  simp only [freeChunk, setLeftBorderMarker_eq ha1 ha2, hsize]
  exact setRightBorderMarker_eq (by unfold Chunk.stop Chunk.marker at hstop; omega)

theorem freeChunk_represents (hr : Represents h lo (xs ++ c :: ys) hi) :
    Represents ⟨freeChunk h.mem c.addr, h.head⟩ lo (xs ++ c.freed :: ys) hi := by
  obtain ⟨ha1, ha2⟩ := hr.addr_range (c := c) (by simp)
  have hstored := hr.stored c (by simp)
  obtain ⟨s, hsx, hsc, hsy⟩ := spaced_append.mp hr.spaced
  have hlink := hr.linked
  rw [map_append, seg_append] at hlink
  obtain ⟨-, hprev, hnext, hlys⟩ := hlink
  obtain ⟨hmark, hmark'⟩ := c.extent
  have hfree : FREE < 2 ^ 64 := by decide
  have hmem := freeChunk_eq hr
  have hnew : Spaced s [c.freed] c.stop := ⟨hsc, Nat.le_refl _⟩
  have hedit := Represents.edit c [] c.freed [] (freeChunk h.mem c.addr) (by simpa using hr) rfl
    hsx hnew hsy ?_ ?_ ?_ ?_
  · simpa using hedit
  · intro a ha _
    rw [hmem, load_store_of_ne (by omega), load_store_of_ne (by omega)]
  · intro d hd
    rcases mem_singleton.mp hd with rfl
    rw [hmem]
    refine ⟨?_, ?_, load_store_same hfree⟩
    · show _ = c.size
      rw [← hstored.size]
      simp (disch := omega) only [Chunk.freed, load_store_of_ne]
    · simp (disch := omega) only [Chunk.freed, load_store_of_ne, load_store_same]
  · refine ⟨?_, ?_, trivial⟩
    · rw [← hprev, hmem]
      simp (disch := omega) only [Chunk.freed, prevOf, load_store_of_ne]
    · show _ = (ys.map Chunk.addr).headD 0
      rw [← hnext, hmem]
      simp (disch := omega) only [Chunk.freed, nextOf, load_store_of_ne]
  · intro y hy
    cases ys with
    | nil => cases hy
    | cons z zs =>
      cases hy
      have hy1 := hsy.1
      have hback : prevOf h.mem y.addr = c.addr := hlys.1
      rw [hmem]
      simp (disch := omega) only [prevOf, load_store_of_ne]
      exact hback

/-- The memory after `r` was merged into `l`; `nx` is the chunk behind `r`. -/
def mergeMem (m : Mem) (l r : Chunk) (nx : Nat) : Mem :=
  let m := m.store r.marker FREE
  let m := if nx ≠ 0 then m.store (nx - 16) l.addr else m
  let m := m.store (l.addr - 8) FREE
  let m := m.store (l.addr - 24) nx
  m.store (l.addr - 32) (l.size + r.size + 40)

/-- Every word `mergeMem` can change, with its new value. -/
structure MergeSpec (m m' : Mem) (l r : Chunk) (nx : Nat) : Prop where
  outside : ∀ a, a < l.addr - 32 ∨ r.stop ≤ a → (nx ≠ 0 → a ≠ nx - 16) → m'.load a = m.load a
  size : m'.load (l.addr - 32) = l.size + r.size + 40
  next : m'.load (l.addr - 24) = nx
  prev : m'.load (l.addr - 16) = m.load (l.addr - 16)
  left : m'.load (l.addr - 8) = FREE
  right : m'.load r.marker = FREE
  back : nx ≠ 0 → m'.load (nx - 16) = l.addr

theorem merge_size_lt (hl : 32 ≤ l.addr) (hlr : l.stop + 32 ≤ r.addr) (hr : r.stop ≤ 2 ^ 64) :
    l.size + r.size + 40 < 2 ^ 64 := by
  simp only [Chunk.stop, Chunk.marker] at *
  omega

theorem mergeMem_spec {m : Mem} (hl : 32 ≤ l.addr) (hlr : l.stop + 32 ≤ r.addr)
    (hstop : r.stop ≤ 2 ^ 64) (hnx : nx < 2 ^ 64) (hbehind : nx ≠ 0 → r.stop + 32 ≤ nx) :
    MergeSpec m (mergeMem m l r nx) l r nx := by
  have hsum := merge_size_lt hl hlr hstop
  obtain ⟨hlm, hlm'⟩ := l.extent
  obtain ⟨hrm, hrm'⟩ := r.extent
  have hfree : FREE < 2 ^ 64 := by decide
  by_cases h0 : nx = 0
  · constructor <;> intros <;>
      simp (disch := omega) only [mergeMem, h0, ne_eq, not_true_eq_false, if_false,
        load_store_same, load_store_of_ne]
    contradiction
  · have hb := hbehind h0
    constructor <;> intros <;>
      simp (disch := omega) only [mergeMem, if_pos h0, load_store_same, load_store_of_ne]

section

variable (hr : Represents h lo (xs ++ l :: r :: ys) hi)
include hr

theorem mergeChunks_eq :
    mergeChunks h.mem l.addr r.addr =
      mergeMem h.mem l r ((ys.map Chunk.addr).headD 0) := by
  obtain ⟨hl1, hl2⟩ := hr.addr_range (c := l) (by simp)
  obtain ⟨hr1, hr2⟩ := hr.addr_range (c := r) (by simp)
  have hstopr := hr.stop_le (c := r) (by simp)
  have hsl := hr.stored l (by simp)
  have hsr := hr.stored r (by simp)
  obtain ⟨s, -, -, hlr, hsy⟩ := spaced_append.mp hr.spaced
  obtain ⟨hlm, hlm'⟩ := l.extent
  obtain ⟨hrm, hrm'⟩ := r.extent
  have hsum := merge_size_lt hl1 hlr hstopr
  have hlink := hr.linked
  rw [map_append, seg_append] at hlink
  obtain ⟨-, -, -, -, hnext, -⟩ := hlink
  have hbehind := hsy.le_head
  have hnx : (ys.map Chunk.addr).headD 0 < 2 ^ 64 := hnext ▸ load_lt _ _
  generalize (ys.map Chunk.addr).headD 0 = nx at *
  have hnext' : nextOf (h.mem.store r.marker FREE) r.addr = nx := by
    rw [← hnext]
    simp (disch := omega) only [nextOf, load_store_of_ne]
  have hmark : setRightBorderMarker h.mem r.addr r.size FREE = h.mem.store r.marker FREE :=
    setRightBorderMarker_eq (by unfold Chunk.stop Chunk.marker at hstopr; omega)
  simp only [mergeChunks, hr.getSize_mem (c := r) (by simp), hmark, getNextChunkPtr_eq hr1 hr2,
    hnext', setLeftBorderMarker_eq hl1 hl2, setNextChunkPtr_eq hl1 hl2, setSize_eq hl1 hl2,
    getSize_eq hl1 hl2, getSize_eq hr1 hr2]
  by_cases h0 : nx = 0
  · -- no chunk behind `r`
    simp only [h0, ne_eq, not_true_eq_false, if_false, mergeMem]
    simp (disch := omega) only [load_store_of_ne, hsl.size, hsr.size]
    rw [wadd_of_lt (a := l.size) (by omega), wadd_of_lt (by unfold METAINFO_SIZE; omega)]
    rfl
  · have hb := hbehind h0
    rw [setPrevChunkPtr_eq (by omega) hnx]
    simp only [if_pos h0, mergeMem]
    simp (disch := omega) only [load_store_of_ne, hsl.size, hsr.size]
    rw [wadd_of_lt (a := l.size) (by omega), wadd_of_lt (by unfold METAINFO_SIZE; omega)]
    rfl

theorem mergeChunks_spec :
    MergeSpec h.mem (mergeChunks h.mem l.addr r.addr) l r ((ys.map Chunk.addr).headD 0) := by
  obtain ⟨s, -, -, hlr, hsy⟩ := spaced_append.mp hr.spaced
  have hlink := hr.linked
  rw [map_append, seg_append] at hlink
  obtain ⟨-, -, -, -, hnext, -⟩ := hlink
  have hnx : (ys.map Chunk.addr).headD 0 < 2 ^ 64 := hnext ▸ load_lt _ _
  rw [mergeChunks_eq hr]
  exact mergeMem_spec (hr.addr_range (by simp)).1 hlr (hr.stop_le (by simp)) hnx hsy.le_head

theorem mergeChunks_represents (hfit : MergeFits l r (limit ys hi)) :
    ∃ v, ((l.merge r v).marker = r.marker → v = FREE) ∧
      Represents ⟨mergeChunks h.mem l.addr r.addr, h.head⟩ lo (xs ++ l.merge r v :: ys) hi := by
  obtain ⟨s, hsx, hsl, hlr, hsy⟩ := spaced_append.mp hr.spaced
  have hlink := hr.linked
  rw [map_append, seg_append] at hlink
  obtain ⟨-, hprev, -⟩ := hlink
  have spec := mergeChunks_spec hr
  generalize hm : mergeChunks h.mem l.addr r.addr = m' at *
  have hrlim := hsy.le_limit
  obtain ⟨v, hv⟩ : ∃ v, m'.load (l.merge r FREE).marker = v := ⟨_, rfl⟩
  rw [merge_marker l r FREE v] at hv
  refine ⟨v, fun heq => ?_, ?_⟩
  · rw [← hv, heq, spec.right]
  have hstop := (mergeFits_iff (v := v) hlr hrlim).mp hfit
  have hmax : Spaced (max r.stop (l.merge r v).stop) ys hi :=
    hsy.of_le_limit (Nat.max_le.mpr ⟨hrlim, hstop⟩)
  have hedit := Represents.edit l [r] (l.merge r v) [] m' (by simpa using hr) rfl hsx
    ⟨hsl, Nat.le_max_right _ _⟩ hmax ?_ ?_ ?_ ?_
  · simpa using hedit
  · exact agreeOutside_of_head (by omega) (Nat.le_max_left _ _) spec.outside
  · intro d hd
    rcases mem_singleton.mp hd with rfl
    exact ⟨spec.size, spec.left, hv⟩
  · exact ⟨spec.prev.trans hprev, spec.next, trivial⟩
  · intro y hy
    obtain ⟨hy1, hy2⟩ := hsy.head_eq hy
    rw [prevOf, ← hy1, spec.back (by omega)]
    rfl

end

/-! ### The branches of `myfree` -/

/-- The marker of the previous chunk that `myfree` asks: the right one when the
freed chunk is the last of the list, the left one otherwise. -/
def askedMarker (l : Chunk) (ys : List Chunk) : Nat :=
  match ys with
  | [] => l.right
  | _ :: _ => l.left

/-- Everything `myfree` can do to the list when it is called on the chunk `c`. -/
inductive FreeStep : List Chunk → Chunk → List Chunk → Prop where
  | keep {xs ys : List Chunk} {c : Chunk} : c.right = FREE ∨ c.left = FREE →
      FreeStep (xs ++ c :: ys) c (xs ++ c :: ys)
  | mark {xs ys : List Chunk} {c : Chunk} : c.right ≠ FREE → c.left ≠ FREE →
      (∀ l, xs.getLast? = some l → askedMarker l ys ≠ FREE) →
      (∀ r, ys.head? = some r → r.left ≠ FREE) →
      FreeStep (xs ++ c :: ys) c (xs ++ c.freed :: ys)
  | mergePrev {xs ys : List Chunk} {l c : Chunk} {v : Nat} : c.right ≠ FREE → c.left ≠ FREE →
      askedMarker l ys = FREE → (∀ r, ys.head? = some r → r.left ≠ FREE) →
      ((l.merge c v).marker = c.marker → v = FREE) →
      FreeStep (xs ++ l :: c :: ys) c (xs ++ l.merge c v :: ys)
  | mergeNext {xs ys : List Chunk} {c r : Chunk} {v : Nat} : c.right ≠ FREE → c.left ≠ FREE →
      (∀ l, xs.getLast? = some l → l.left ≠ FREE) → r.left = FREE →
      ((c.merge r v).marker = r.marker → v = FREE) →
      FreeStep (xs ++ c :: r :: ys) c (xs ++ c.merge r v :: ys)
  | mergeBoth {xs ys : List Chunk} {l c r : Chunk} {w v : Nat} : c.right ≠ FREE →
      c.left ≠ FREE → l.left = FREE → r.left = FREE →
      ((l.merge (c.merge r w) v).marker = (c.merge r w).marker → v = FREE) →
      FreeStep (xs ++ l :: c :: r :: ys) c (xs ++ l.merge (c.merge r w) v :: ys)

/-- Every merge that `myfree` makes for `c`, between the chunk in front of it and
those behind it, has room in front of what follows. -/
def FreeFits (prev : Option Chunk) (c : Chunk) (ys : List Chunk) (hi : Nat) : Prop :=
  match prev, ys with
  | none, [] => True
  | some l, [] => l.right = FREE → MergeFits l c hi
  | none, r :: ys => r.left = FREE → MergeFits c r (limit ys hi)
  | some l, r :: ys =>
    (r.left = FREE → MergeFits c r (limit ys hi)) ∧
      (l.left = FREE → r.left = FREE → MergeFits l (c.merge r FREE) (limit ys hi)) ∧
      (l.left = FREE → r.left ≠ FREE → MergeFits l c (limit (r :: ys) hi))

instance : ∀ prev c ys hi, Decidable (FreeFits prev c ys hi)
  | none, _, [], _ => .isTrue trivial
  | some l, c, [], hi => inferInstanceAs (Decidable (l.right = FREE → MergeFits l c hi))
  | none, c, r :: ys, hi =>
    inferInstanceAs (Decidable (r.left = FREE → MergeFits c r (limit ys hi)))
  | some _, _, _ :: _, _ => inferInstanceAs (Decidable (_ ∧ _ ∧ _))

theorem FreeFits.prev (hfit : FreeFits (some l) c ys hi) (hasked : askedMarker l ys = FREE)
    (hbehind : ∀ r, ys.head? = some r → r.left ≠ FREE) : MergeFits l c (limit ys hi) := by
  cases ys with
  | nil => exact hfit hasked
  | cons r ys => exact hfit.2.2 hasked (hbehind r rfl)

theorem FreeFits.next {prev : Option Chunk} (hfit : FreeFits prev c (r :: ys) hi)
    (hrf : r.left = FREE) : MergeFits c r (limit ys hi) := by
  cases prev with
  | none => exact hfit hrf
  | some l => exact hfit.1 hrf

/-- What `myfree` does to the memory when it is called on the chunk `c` between `xs` and
`ys`, one constructor for each way through the code. -/
inductive FreeBranch (h : Heap) : List Chunk → Chunk → List Chunk → Heap → Prop where
  | keep {xs ys : List Chunk} {c : Chunk} : c.right = FREE ∨ c.left = FREE →
      FreeBranch h xs c ys h
  | mark {xs ys : List Chunk} {c : Chunk} : c.right ≠ FREE → c.left ≠ FREE →
      (∀ l, xs.getLast? = some l → askedMarker l ys ≠ FREE) →
      (∀ r, ys.head? = some r → r.left ≠ FREE) →
      FreeBranch h xs c ys ⟨freeChunk h.mem c.addr, h.head⟩
  | mergePrev {xs ys : List Chunk} {l c : Chunk} : c.right ≠ FREE → c.left ≠ FREE →
      askedMarker l ys = FREE → (∀ r, ys.head? = some r → r.left ≠ FREE) →
      FreeBranch h (xs ++ [l]) c ys ⟨mergeChunks h.mem l.addr c.addr, h.head⟩
  | mergeNext {xs ys : List Chunk} {c r : Chunk} : c.right ≠ FREE → c.left ≠ FREE →
      (∀ l, xs.getLast? = some l → l.left ≠ FREE) → r.left = FREE →
      FreeBranch h xs c (r :: ys) ⟨mergeChunks h.mem c.addr r.addr, h.head⟩
  | mergeBoth {xs ys : List Chunk} {l c r : Chunk} : c.right ≠ FREE → c.left ≠ FREE →
      l.left = FREE → r.left = FREE →
      FreeBranch h (xs ++ [l]) c (r :: ys)
        ⟨mergeChunks (mergeChunks h.mem c.addr r.addr) l.addr c.addr, h.head⟩

section Neighbours

variable {m : Mem} {chunk prev next : Nat}

theorem myfreeAllocated_first (hprev : getPrevChunkPtr m chunk = 0)
    (hnext : getNextChunkPtr m chunk = next) (hnext0 : next ≠ 0) :
    myfreeAllocated m chunk =
      if getLeftBorderMarker m next = FREE then mergeChunks m chunk next
        else freeChunk m chunk := by
  simp [myfreeAllocated, hprev, hnext, hnext0]

theorem myfreeAllocated_last (hprev : getPrevChunkPtr m chunk = prev) (hprev0 : prev ≠ 0)
    (hnext : getNextChunkPtr m chunk = 0) :
    myfreeAllocated m chunk =
      if getRightBorderMarker m prev = FREE then mergeChunks m prev chunk
        else freeChunk m chunk := by
  simp [myfreeAllocated, hprev, hprev0, hnext]

theorem myfreeAllocated_between (hprev : getPrevChunkPtr m chunk = prev) (hprev0 : prev ≠ 0)
    (hnext : getNextChunkPtr m chunk = next) (hnext0 : next ≠ 0) :
    myfreeAllocated m chunk =
      if getLeftBorderMarker m prev = FREE then
        if getLeftBorderMarker m next = FREE then mergeChunks (mergeChunks m chunk next) prev chunk
        else mergeChunks m prev chunk
      else if getLeftBorderMarker m next = FREE then mergeChunks m chunk next
      else freeChunk m chunk := by
  by_cases hl : getLeftBorderMarker m prev = FREE
  all_goals
    by_cases hr : getLeftBorderMarker m next = FREE
    all_goals simp [myfreeAllocated, hprev, hprev0, hnext, hnext0, hl, hr]

end Neighbours

theorem myfree_branch (hr : Represents h lo (xs ++ c :: ys) hi) :
    FreeBranch h xs c ys (myfree h c.addr) := by
  have hc0 := hr.ne_null (c := c) (by simp)
  rw [myfree, if_neg hc0, hr.getRight_mem (by simp), hr.getLeft_mem (by simp)]
  by_cases hkeep : c.right = FREE ∨ c.left = FREE
  · rw [if_pos hkeep]
    exact .keep hkeep
  rw [if_neg hkeep]
  obtain ⟨hright, hleft⟩ := not_or.mp hkeep
  have hprev := hr.getPrev_mem
  have hnext := hr.getNext_mem
  cases xs using reverseRecOn with
  | nil =>
    cases ys with
    | nil =>
      simp only [map_nil, getLastD_nil, headD_nil] at hprev hnext
      have hmem : myfreeAllocated h.mem c.addr = freeChunk h.mem c.addr := by
        simp [myfreeAllocated, hprev, hnext]
      rw [hmem]
      exact .mark hright hleft (by simp) (by simp)
    | cons r ys =>
      simp only [map_nil, getLastD_nil, map_cons, headD_cons] at hprev hnext
      rw [myfreeAllocated_first hprev hnext (hr.ne_null (by simp)), hr.getLeft_mem (by simp)]
      split
      · next hrf => exact .mergeNext hright hleft (by simp) hrf
      · next hrf => exact .mark hright hleft (by simp) (by simpa using hrf)
  | append_singleton xs l =>
    have hlast : (xs ++ [l]).getLast? = some l := by simp
    have hl0 := hr.ne_null (c := l) (by simp)
    simp only [map_append, map_cons, map_nil, getLastD_concat] at hprev
    cases ys with
    | nil =>
      simp only [map_nil, headD_nil] at hnext
      rw [myfreeAllocated_last hprev hl0 hnext, hr.getRight_mem (by simp)]
      split
      · next hlf => exact .mergePrev hright hleft hlf (by simp)
      · next hlf =>
          exact .mark hright hleft (by simpa [hlast, askedMarker] using hlf) (by simp)
    | cons r ys =>
      simp only [map_cons, headD_cons] at hnext
      rw [myfreeAllocated_between hprev hl0 hnext (hr.ne_null (by simp)),
        hr.getLeft_mem (c := l) (by simp), hr.getLeft_mem (c := r) (by simp)]
      split
      · next hlf =>
          split
          · next hrf => exact .mergeBoth hright hleft hlf hrf
          · next hrf => exact .mergePrev hright hleft hlf (by simpa using hrf)
      · next hlf =>
          split
          · next hrf => exact .mergeNext hright hleft (by simpa [hlast] using hlf) hrf
          · next hrf =>
              exact .mark hright hleft (by simpa [hlast, askedMarker] using hlf)
                (by simpa using hrf)

theorem myfree_represents (hr : Represents h lo (xs ++ c :: ys) hi)
    (hfit : c.right ≠ FREE → c.left ≠ FREE → FreeFits xs.getLast? c ys hi) :
    ∃ cs', FreeStep (xs ++ c :: ys) c cs' ∧ Represents (myfree h c.addr) lo cs' hi := by
  have hbranch := myfree_branch hr
  generalize myfree h c.addr = h' at hbranch ⊢
  cases hbranch with
  | keep hkeep => exact ⟨_, .keep hkeep, hr⟩
  | mark hright hleft hl hr' => exact ⟨_, .mark hright hleft hl hr', freeChunk_represents hr⟩
  | @mergePrev xs _ l _ hright hleft hasked hbehind =>
    have hlist : xs ++ [l] ++ c :: ys = xs ++ l :: c :: ys := by simp
    have hfits := hfit hright hleft
    rw [getLast?_concat] at hfits
    rw [hlist] at hr ⊢
    obtain ⟨v, hv, hrep⟩ := mergeChunks_represents hr (hfits.prev hasked hbehind)
    exact ⟨_, .mergePrev hright hleft hasked hbehind hv, hrep⟩
  | mergeNext hright hleft hl hrf =>
    obtain ⟨v, hv, hrep⟩ := mergeChunks_represents hr ((hfit hright hleft).next hrf)
    exact ⟨_, .mergeNext hright hleft hl hrf hv, hrep⟩
  | @mergeBoth xs ys l _ r hright hleft hlf hrf =>
    have hlist : xs ++ [l] ++ c :: r :: ys = xs ++ l :: c :: r :: ys := by simp
    have hfits := hfit hright hleft
    rw [getLast?_concat] at hfits
    obtain ⟨w, -, hrep⟩ := mergeChunks_represents hr (hfits.next hrf)
    have hlist' : xs ++ [l] ++ c.merge r w :: ys = xs ++ l :: c.merge r w :: ys := by simp
    rw [hlist'] at hrep
    obtain ⟨v, hv, hrep'⟩ := mergeChunks_represents hrep (hfits.2.1 hlf hrf)
    rw [hlist]
    exact ⟨_, .mergeBoth hright hleft hlf hrf hv, hrep'⟩

end Free

end LinuxWorkouts.Allocator
