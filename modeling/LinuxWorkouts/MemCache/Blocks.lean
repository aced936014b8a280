/-
The blocks of the slabs.

`Stocked offset cnt h chain` ties the memory to the free blocks of every slab:
`chain p` are the addresses of the free blocks of the slab at `p`, in chain order.
The blocks of two slabs lie in different blocks of `malloc`, so an edit of one slab
leaves the others alone (`Stocked.edit`). With that frame rule each function of
`block.c` has one lemma:

* `Stocked.allocBlock` takes the first block off the chain;
* `Stocked.freeBlock` puts a block that is not on the chain in front of it;
* `Stocked.createSlab` adds a slab whose chain holds all its blocks.

None of them touches the links of the slab lists (`SameLinks`).
-/

import LinuxWorkouts.MemCache.Model
import LinuxWorkouts.Lib.DoublyLinked

namespace LinuxWorkouts.MemCache

open WordMemory DoublyLinked Function List

/-! ### Where the blocks are -/

def Heap.slabAddrs (h : Heap) : List Nat := h.regions.map Region.base

def blocksOf (offset cnt p : Nat) : List Nat :=
  range' (p + SLAB_BYTES) cnt offset

def slabBytes (offset cnt : Nat) : Nat := SLAB_BYTES + cnt * offset

section Layout

variable {offset cnt p b : Nat}

theorem mem_blocksOf : b ∈ blocksOf offset cnt p ↔ ∃ i < cnt, b = p + 64 + offset * i := mem_range'

@[simp] theorem blocksOf_length : (blocksOf offset cnt p).length = cnt := length_range'

theorem blocksOf_nodup (hoff : 0 < offset) : (blocksOf offset cnt p).Nodup :=
  nodup_range' offset hoff

theorem blocksOf_range (hb : b ∈ blocksOf offset cnt p) :
    p + 64 ≤ b ∧ b + offset ≤ p + slabBytes offset cnt := by
  obtain ⟨i, hi, rfl⟩ := mem_blocksOf.mp hb
  have : offset * (i + 1) ≤ cnt * offset := Nat.mul_comm cnt offset ▸ Nat.mul_le_mul_left _ hi
  rw [Nat.mul_succ] at this
  unfold slabBytes SLAB_BYTES
  omega

end Layout

/-! ### The invariant -/

/-- The slab at `p` with the free blocks `ch`. -/
structure SlabOk (offset cnt : Nat) (h : Heap) (p : Nat) (ch : List Nat) : Prop where
  capacity : (h.slabs p).capacity = cnt
  size : (h.slabs p).size + ch.length = cnt
  chain : Chain (fun b => (h.blocks b).nextBlock) 0 (h.slabs p).firstBlock ch
  nodup : ch.Nodup
  mem : ∀ b ∈ ch, b ∈ blocksOf offset cnt p
  owner : ∀ b ∈ blocksOf offset cnt p, (h.blocks b).slabPtr = p

def Region.Apart (r q : Region) : Prop := r.base + r.bytes ≤ q.base ∨ q.base + q.bytes ≤ r.base

instance : Std.Symm Region.Apart := ⟨fun _ _ h => h.symm⟩

instance (r q : Region) : Decidable (r.Apart q) := inferInstanceAs (Decidable (_ ∨ _))

/-- Every block of `malloc` holds a slab with the free blocks `chain p`. -/
structure Stocked (offset cnt : Nat) (h : Heap) (chain : Nat → List Nat) : Prop where
  base_pos : ∀ r ∈ h.regions, 0 < r.base
  room : ∀ r ∈ h.regions, slabBytes offset cnt ≤ r.bytes
  apart : h.regions.Pairwise Region.Apart
  slab : ∀ p ∈ h.slabAddrs, SlabOk offset cnt h p (chain p)

/-- The slab lists of two memories are linked the same way. -/
structure SameLinks (h h' : Heap) : Prop where
  regions : h'.regions = h.regions
  prev : ∀ p, (h'.slabs p).prevSlab = (h.slabs p).prevSlab
  next : ∀ p, (h'.slabs p).nextSlab = (h.slabs p).nextSlab
  listPtr : ∀ p, (h'.slabs p).listPtr = (h.slabs p).listPtr

section Stock

variable {offset cnt p q b : Nat} {h h' : Heap} {chain : Nat → List Nat} {ch bs : List Nat}

theorem Heap.mem_slabAddrs : p ∈ h.slabAddrs ↔ ∃ r ∈ h.regions, r.base = p := by
  simp [Heap.slabAddrs]

theorem Stocked.blocks_disjoint (hs : Stocked offset cnt h chain) (hoff : 0 < offset)
    (hp : p ∈ h.slabAddrs) (hq : q ∈ h.slabAddrs) (hbp : b ∈ blocksOf offset cnt p)
    (hbq : b ∈ blocksOf offset cnt q) : p = q := by
  obtain ⟨r, hr, rfl⟩ := Heap.mem_slabAddrs.mp hp
  obtain ⟨r', hr', rfl⟩ := Heap.mem_slabAddrs.mp hq
  by_contra hne
  have hapart := hs.apart.forall hr hr' fun h => hne (h ▸ rfl)
  have h1 := blocksOf_range hbp
  have h2 := blocksOf_range hbq
  have h3 := hs.room r hr
  have h4 := hs.room r' hr'
  unfold Region.Apart at hapart
  omega

theorem mapped_of_le {rs : List Region} {r : Region} {a n : Nat} (hr : r ∈ rs) (hlo : r.base ≤ a)
    (hhi : a + n ≤ r.base + r.bytes) : mapped rs a n := by
  refine any_eq_true.mpr ⟨r, hr, ?_⟩
  simp only [Bool.and_eq_true, decide_eq_true_eq]
  exact ⟨hlo, hhi⟩

theorem Stocked.slab_mapped (hs : Stocked offset cnt h chain) (hp : p ∈ h.slabAddrs) :
    mapped h.regions p SLAB_BYTES := by
  obtain ⟨r, hr, rfl⟩ := Heap.mem_slabAddrs.mp hp
  have hroom := hs.room r hr
  unfold slabBytes at hroom
  exact mapped_of_le hr (Nat.le_refl _) (by omega)

theorem Stocked.block_mapped (hs : Stocked offset cnt h chain) (hoff : BLOCK_BYTES ≤ offset)
    (hp : p ∈ h.slabAddrs) (hb : b ∈ blocksOf offset cnt p) : mapped h.regions b BLOCK_BYTES := by
  obtain ⟨r, hr, rfl⟩ := Heap.mem_slabAddrs.mp hp
  have hroom := hs.room r hr
  have hrange := blocksOf_range hb
  exact mapped_of_le hr (by omega) (by omega)

theorem SlabOk.frame (hok : SlabOk offset cnt h q ch)
    (hcap : (h'.slabs q).capacity = (h.slabs q).capacity)
    (hsize : (h'.slabs q).size = (h.slabs q).size)
    (hfirst : (h'.slabs q).firstBlock = (h.slabs q).firstBlock)
    (hblocks : ∀ b ∈ blocksOf offset cnt q, h'.blocks b = h.blocks b) :
    SlabOk offset cnt h' q ch := by
  refine ⟨hcap.trans hok.capacity, ?_, ?_, hok.nodup, hok.mem, fun b hb => ?_⟩
  · rw [hsize, hok.size]
  · rw [hfirst]
    exact hok.chain.congr fun b hb => by rw [hblocks b (hok.mem b hb)]
  · rw [hblocks b hb, hok.owner b hb]

theorem Stocked.edit (hs : Stocked offset cnt h chain) (hoff : 0 < offset) (hp : p ∈ h.slabAddrs)
    (hregions : h'.regions = h.regions) (hslabs : ∀ q, q ≠ p → h'.slabs q = h.slabs q)
    (hblocks : ∀ b, b ∉ blocksOf offset cnt p → h'.blocks b = h.blocks b)
    (hnew : SlabOk offset cnt h' p ch) : Stocked offset cnt h' (update chain p ch) := by
  have haddrs : h'.slabAddrs = h.slabAddrs := by rw [Heap.slabAddrs, hregions, Heap.slabAddrs]
  refine ⟨hregions ▸ hs.base_pos, hregions ▸ hs.room, hregions ▸ hs.apart, fun q hq => ?_⟩
  rw [haddrs] at hq
  by_cases hqp : q = p
  · subst hqp
    rw [update_self]
    exact hnew
  · rw [update_of_ne hqp]
    refine (hs.slab q hq).frame ?_ ?_ ?_ fun b hb => hblocks b fun hbp => ?_
    · rw [hslabs q hqp]
    · rw [hslabs q hqp]
    · rw [hslabs q hqp]
    · exact hqp (hs.blocks_disjoint hoff hq hp hb hbp)

/-! ### Taking and giving blocks -/

theorem Heap.slab_eq (hm : mapped h.regions p SLAB_BYTES) : h.slab p = some (h.slabs p) := if_pos hm

theorem Heap.block_eq (hm : mapped h.regions p BLOCK_BYTES) : h.block p = some (h.blocks p) :=
  if_pos hm

theorem Heap.updateSlab_eq (hm : mapped h.regions p SLAB_BYTES) (f : Slab → Slab) :
    h.updateSlab p f = some { h with slabs := update h.slabs p (f (h.slabs p)) } := by
  rw [Heap.updateSlab, Heap.slab_eq hm]
  rfl

/-- The memory after `alloc_block` took the block `b` of the slab `p`. -/
def takeBlock (h : Heap) (p b : Nat) : Heap :=
  { h with
    slabs := update h.slabs p
      { h.slabs p with firstBlock := (h.blocks b).nextBlock, size := (h.slabs p).size + 1 }
    blocks := update h.blocks b { h.blocks b with nextBlock := 0 } }

/-- The memory after `free_block` gave the block `b` back to the slab `p`. -/
def giveBlock (h : Heap) (p b : Nat) : Heap :=
  { h with
    slabs := update h.slabs p
      { h.slabs p with firstBlock := b, size := (h.slabs p).size - 1 }
    blocks := update h.blocks b { h.blocks b with nextBlock := (h.slabs p).firstBlock } }

theorem sameLinks_update {s : Slab} (hregions : h'.regions = h.regions)
    (hslabs : h'.slabs = update h.slabs p s) (hprev : s.prevSlab = (h.slabs p).prevSlab)
    (hnext : s.nextSlab = (h.slabs p).nextSlab) (hptr : s.listPtr = (h.slabs p).listPtr) :
    SameLinks h h' := by
  refine ⟨hregions, fun q => ?_, fun q => ?_, fun q => ?_⟩ <;> rw [hslabs] <;> by_cases hq : q = p
  · subst hq
    simpa using hprev
  · rw [update_of_ne hq]
  · subst hq
    simpa using hnext
  · rw [update_of_ne hq]
  · subst hq
    simpa using hptr
  · rw [update_of_ne hq]

theorem Stocked.allocBlock (hs : Stocked offset cnt h chain) (hoff : BLOCK_BYTES ≤ offset)
    (hp : p ∈ h.slabAddrs) (hchain : chain p = b :: bs) :
    ∃ h', allocBlock h p = some (h', b + BLOCK_BYTES) ∧
      Stocked offset cnt h' (update chain p bs) ∧ SameLinks h h' := by
  have hok := hs.slab p hp
  rw [hchain] at hok
  have hsize := hok.size
  rw [length_cons] at hsize
  obtain ⟨hfirst, hrest⟩ := hok.chain
  obtain ⟨hbs, hnodup⟩ := nodup_cons.mp hok.nodup
  have hb := hok.mem b mem_cons_self
  have hnot : ¬ (h.slabs p).capacity ≤ (h.slabs p).size := by
    rw [hok.capacity]
    omega
  refine ⟨takeBlock h p b, ?_, hs.edit (Nat.lt_of_lt_of_le (by decide) hoff) hp rfl ?_ ?_ ?_, ?_⟩
  · have hmap := hs.slab_mapped hp
    have hmapb := hs.block_mapped hoff hp hb
    simp [MemCache.allocBlock, Heap.slab, Heap.block, Heap.updateSlab, Heap.updateBlock, hmap,
      hmapb, hnot, hfirst, takeBlock]
  · exact fun q hq => update_of_ne hq _ _
  · exact fun d hd => update_of_ne (ne_of_mem_of_not_mem hb hd).symm _ _
  · have hne : ∀ d ∈ bs, d ≠ b := fun d hd h => hbs (h ▸ hd)
    refine ⟨?_, ?_, ?_, hnodup, fun d hd => hok.mem d (mem_cons_of_mem _ hd), ?_⟩
    · simpa [takeBlock] using hok.capacity
    · simp only [takeBlock, update_self]
      omega
    · simp only [takeBlock, update_self]
      exact hrest.congr fun d hd => by rw [update_of_ne (hne d hd)]
    · intro d hd
      by_cases hdb : d = b
      · subst hdb
        simpa [takeBlock] using hok.owner d hd
      · simpa [takeBlock, update_of_ne hdb] using hok.owner d hd
  · exact sameLinks_update rfl rfl rfl rfl rfl

theorem freeBlock_eq (hp : mapped h.regions p SLAB_BYTES) (hb : mapped h.regions b BLOCK_BYTES)
    (hsize : (h.slabs p).size ≠ 0) (hfirst : (h.slabs p).firstBlock ≠ b) :
    freeBlock h p b = some (giveBlock h p b) := by
  simp [freeBlock, Heap.slab, Heap.block, Heap.updateSlab, Heap.updateBlock, hp, hb, hsize, hfirst,
    giveBlock]

theorem Stocked.freeBlock (hs : Stocked offset cnt h chain) (hoff : BLOCK_BYTES ≤ offset)
    (hp : p ∈ h.slabAddrs) (hb : b ∈ blocksOf offset cnt p) (hfree : b ∉ chain p) :
    ∃ h', freeBlock h p b = some h' ∧
      Stocked offset cnt h' (update chain p (b :: chain p)) ∧ SameLinks h h' := by
  have hok := hs.slab p hp
  have hsize := hok.size
  -- the chain misses a block, so the slab is in use
  have hlt : (chain p).length < cnt := by
    have hsub : b :: chain p ⊆ blocksOf offset cnt p := cons_subset.mpr ⟨hb, hok.mem⟩
    have hle := (subperm_of_subset (nodup_cons.mpr ⟨hfree, hok.nodup⟩) hsub).length_le
    rw [length_cons, blocksOf_length] at hle
    exact hle
  have hnot : (h.slabs p).size ≠ 0 := by omega
  have hfirst : (h.slabs p).firstBlock ≠ b := by
    rw [hok.chain.first_eq]
    have hb0 := (blocksOf_range hb).1
    cases hc : chain p with
    | nil =>
      rw [headD_nil]
      omega
    | cons d ds =>
      rw [hc] at hfree
      rintro rfl
      exact hfree mem_cons_self
  refine ⟨giveBlock h p b, ?_, hs.edit (Nat.lt_of_lt_of_le (by decide) hoff) hp rfl ?_ ?_ ?_, ?_⟩
  · exact freeBlock_eq (hs.slab_mapped hp) (hs.block_mapped hoff hp hb) hnot hfirst
  · exact fun q hq => update_of_ne hq _ _
  · exact fun d hd => update_of_ne (ne_of_mem_of_not_mem hb hd).symm _ _
  · have hne : ∀ d ∈ chain p, d ≠ b := fun d hd h => hfree (h ▸ hd)
    refine ⟨?_, ?_, ?_, nodup_cons.mpr ⟨hfree, hok.nodup⟩, ?_, ?_⟩
    · simpa [giveBlock] using hok.capacity
    · simp only [giveBlock, update_self, length_cons]
      omega
    · simp only [giveBlock, update_self]
      refine ⟨rfl, ?_⟩
      simp only [update_self]
      exact hok.chain.congr fun d hd => by rw [update_of_ne (hne d hd)]
    · intro d hd
      rcases mem_cons.mp hd with rfl | hd
      · exact hb
      · exact hok.mem d hd
    · intro d hd
      by_cases hdb : d = b
      · subst hdb
        simpa [giveBlock] using hok.owner d hd
      · simpa [giveBlock, update_of_ne hdb] using hok.owner d hd
  · exact sameLinks_update rfl rfl rfl rfl rfl

/-! ### A new slab -/

/-- `h'` is `h` after the blocks `bs` were laid out for `slab`, linked in this order. -/
structure Laid (slab : Nat) (bs : List Nat) (h h' : Heap) : Prop where
  regions : h'.regions = h.regions
  slabs : h'.slabs = h.slabs
  outside : ∀ b, b ∉ bs → h'.blocks b = h.blocks b
  owner : ∀ b ∈ bs, (h'.blocks b).slabPtr = slab
  chain : Chain (fun b => (h'.blocks b).nextBlock) 0 (bs.headD 0) bs

/-- One round of the loop: a block at `raw`, linked behind the one at `prev`. -/
def layBlock (h : Heap) (slab objectSize prev raw : Nat) : Heap :=
  { h with
    blocks := update (update h.blocks raw ⟨objectSize, 0, slab⟩) prev
      { h.blocks prev with nextBlock := raw } }

theorem initBlockLoop_laid (slab objectSize : Nat) {k prev : Nat} (hoff : 0 < offset)
    (hmap : ∀ b ∈ range' prev (k + 1) offset, mapped h.regions b BLOCK_BYTES)
    (hnext : (h.blocks prev).nextBlock = 0) (hslab : (h.blocks prev).slabPtr = slab) :
    ∃ h', initBlockLoop slab objectSize offset k prev h = some h' ∧
      Laid slab (range' prev (k + 1) offset) h h' := by
  induction k generalizing prev h with
  | zero =>
    refine ⟨h, rfl, rfl, rfl, fun _ _ => rfl, ?_, rfl, hnext⟩
    intro b hb
    rw [mem_singleton.mp hb, hslab]
  | succ k ih =>
    have hlist : range' prev (k + 1 + 1) offset =
        prev :: range' (prev + offset) (k + 1) offset := rfl
    have hne : prev + offset ≠ prev := by omega
    have hprev : prev ∉ range' (prev + offset) (k + 1) offset := by
      intro hmem
      obtain ⟨i, -, hi⟩ := mem_range'.mp hmem
      omega
    rw [hlist] at hmap ⊢
    obtain ⟨hmap0, hmap1⟩ := forall_mem_cons.mp hmap
    have hraw := hmap1 (prev + offset) mem_cons_self
    obtain ⟨h', hrun, hlaid⟩ := ih (h := layBlock h slab objectSize prev (prev + offset)) hmap1
      (by simp [layBlock, update_of_ne hne])
      (by simp [layBlock, update_of_ne hne])
    have hkept : h'.blocks prev = { h.blocks prev with nextBlock := prev + offset } := by
      rw [hlaid.outside prev hprev]
      exact update_self _ _ _
    refine ⟨h', ?_, hlaid.regions, hlaid.slabs, ?_, ?_, rfl, ?_⟩
    · rw [← hrun]
      simp [initBlockLoop, Heap.updateBlock, Heap.block, hmap0, hraw, layBlock,
        update_of_ne hne.symm]
    · intro b hb
      obtain ⟨hb0, hb1⟩ := not_or.mp (mt mem_cons.mpr hb)
      rw [hlaid.outside b hb1]
      have hb2 : b ≠ prev + offset := fun h => hb1 (h ▸ mem_cons_self)
      simp [layBlock, update_of_ne hb0, update_of_ne hb2]
    · intro b hb
      rcases mem_cons.mp hb with rfl | hb
      · rw [hkept]
        exact hslab
      · exact hlaid.owner b hb
    · simp only [hkept]
      exact hlaid.chain

/-- What `malloc` must return for a new slab: memory that is not null, large enough and
apart from all other slabs. -/
structure FreshRegion (offset cnt : Nat) (h : Heap) (r : Region) : Prop where
  base_pos : 0 < r.base
  room : slabBytes offset cnt ≤ r.bytes
  bound : r.base + r.bytes ≤ 2 ^ 64
  apart : ∀ q ∈ h.regions, r.Apart q

instance (offset cnt : Nat) (h : Heap) (r : Region) : Decidable (FreshRegion offset cnt h r) :=
  decidable_of_iff (0 < r.base ∧ slabBytes offset cnt ≤ r.bytes ∧ r.base + r.bytes ≤ 2 ^ 64 ∧
    ∀ q ∈ h.regions, r.Apart q) ⟨fun ⟨h1, h2, h3, h4⟩ => ⟨h1, h2, h3, h4⟩,
      fun ⟨h1, h2, h3, h4⟩ => ⟨h1, h2, h3, h4⟩⟩

/-- The memory of a new slab in front of the loop: header and first block are laid
out. -/
def firstBlockHeap (h : Heap) (r : Region) (objectSize cnt : Nat) : Heap :=
  { h with
    regions := r :: h.regions
    slabs := update h.slabs r.base
      { size := 0
        capacity := cnt
        blockSize := objectSize
        firstBlock := r.base + SLAB_BYTES
        prevSlab := 0
        nextSlab := 0
        listPtr := none
        rawData := r.base + SLAB_BYTES }
    blocks := update h.blocks (r.base + SLAB_BYTES) ⟨objectSize, 0, r.base⟩ }

section NewSlab

variable {malloc : Nat → Option Region} {objectSize order : Nat} {r : Region}

theorem FreshRegion.block_mapped (hfresh : FreshRegion (objectSize + BLOCK_BYTES) cnt h r)
    (hb : b ∈ blocksOf (objectSize + BLOCK_BYTES) cnt r.base) :
    mapped (r :: h.regions) b BLOCK_BYTES := by
  have hroom := hfresh.room
  have hrange := blocksOf_range hb
  exact mapped_of_le mem_cons_self (by omega) (by omega)

theorem createSlab_eq (hcnt : 0 < cnt) (hmalloc : malloc (slabRequest order) = some r)
    (hfresh : FreshRegion (objectSize + BLOCK_BYTES) cnt h r) :
    createSlab h malloc objectSize order cnt =
      (initBlockLoop r.base objectSize (objectSize + BLOCK_BYTES) (cnt - 1) (r.base + SLAB_BYTES)
        (firstBlockHeap h r objectSize cnt)).map fun h' => (h', r.base) := by
  have hbound := hfresh.bound
  have hbase := hfresh.base_pos
  have hroom := hfresh.room
  have hfirst : r.base + SLAB_BYTES ∈ blocksOf (objectSize + BLOCK_BYTES) cnt r.base :=
    mem_blocksOf.mpr ⟨0, hcnt, rfl⟩
  have hrange := blocksOf_range hfirst
  have hwrap : wadd objectSize BLOCK_BYTES = objectSize + BLOCK_BYTES := wadd_of_lt (by omega)
  have hblock := hfresh.block_mapped hfirst
  have hslab : mapped (r :: h.regions) r.base SLAB_BYTES :=
    mapped_of_le mem_cons_self (Nat.le_refl _) (by unfold slabBytes at hroom; omega)
  rw [Option.map_eq_bind]
  simp [MemCache.createSlab, allocSlab, hmalloc, initBlockList, Heap.updateSlab, Heap.updateBlock,
    Heap.slab, Heap.block, hslab, hblock, hwrap, firstBlockHeap, comp_def]

theorem Laid.newSlab (hlaid : Laid r.base (blocksOf (objectSize + BLOCK_BYTES) cnt r.base)
    (firstBlockHeap h r objectSize cnt) h') (hcnt : 0 < cnt) :
    SlabOk (objectSize + BLOCK_BYTES) cnt h' r.base
      (blocksOf (objectSize + BLOCK_BYTES) cnt r.base) := by
  have hpos : 0 < objectSize + BLOCK_BYTES := Nat.add_pos_right _ (by decide)
  refine ⟨?_, ?_, ?_, blocksOf_nodup hpos, fun b hb => hb, hlaid.owner⟩
  · rw [hlaid.slabs]
    simp [firstBlockHeap]
  · rw [hlaid.slabs]
    simp [firstBlockHeap]
  · have hfirst : (h'.slabs r.base).firstBlock =
        (blocksOf (objectSize + BLOCK_BYTES) cnt r.base).headD 0 := by
      obtain ⟨k, rfl⟩ := Nat.exists_eq_succ_of_ne_zero (Nat.ne_of_gt hcnt)
      rw [hlaid.slabs]
      simp [firstBlockHeap, blocksOf, range'_succ]
    rw [hfirst]
    exact hlaid.chain

theorem Laid.oldSlab (hlaid : Laid r.base (blocksOf (objectSize + BLOCK_BYTES) cnt r.base)
    (firstBlockHeap h r objectSize cnt) h') (hcnt : 0 < cnt)
    (hs : Stocked (objectSize + BLOCK_BYTES) cnt h chain)
    (hfresh : FreshRegion (objectSize + BLOCK_BYTES) cnt h r) (hq : q ∈ h.slabAddrs)
    (hqr : q ≠ r.base) : SlabOk (objectSize + BLOCK_BYTES) cnt h' q (chain q) := by
  have hslabs : h'.slabs q = h.slabs q := by
    rw [hlaid.slabs]
    exact update_of_ne hqr _ _
  refine (hs.slab q hq).frame (by rw [hslabs]) (by rw [hslabs]) (by rw [hslabs]) fun b hb => ?_
  have hnot : b ∉ blocksOf (objectSize + BLOCK_BYTES) cnt r.base := by
    intro hbr
    obtain ⟨r', hr', rfl⟩ := Heap.mem_slabAddrs.mp hq
    have h1 := blocksOf_range hb
    have h2 := blocksOf_range hbr
    have h3 := hs.room r' hr'
    have h4 := hfresh.room
    have h5 := hfresh.apart r' hr'
    unfold Region.Apart at h5
    omega
  rw [hlaid.outside b hnot]
  apply update_of_ne
  rintro rfl
  exact hnot (mem_blocksOf.mpr ⟨0, hcnt, rfl⟩)

theorem Stocked.createSlab (hs : Stocked (objectSize + BLOCK_BYTES) cnt h chain) (hcnt : 0 < cnt)
    (hmalloc : malloc (slabRequest order) = some r)
    (hfresh : FreshRegion (objectSize + BLOCK_BYTES) cnt h r) :
    ∃ h', createSlab h malloc objectSize order cnt = some (h', r.base) ∧
      Stocked (objectSize + BLOCK_BYTES) cnt h'
        (update chain r.base (blocksOf (objectSize + BLOCK_BYTES) cnt r.base)) ∧
      h'.regions = r :: h.regions ∧ (∀ q, q ≠ r.base → h'.slabs q = h.slabs q) ∧
      (h'.slabs r.base).nextSlab = 0 := by
  have hpos : 0 < objectSize + BLOCK_BYTES := Nat.add_pos_right _ (by decide)
  have hlist : range' (r.base + SLAB_BYTES) (cnt - 1 + 1) (objectSize + BLOCK_BYTES) =
      blocksOf (objectSize + BLOCK_BYTES) cnt r.base := by
    rw [Nat.sub_add_cancel hcnt, blocksOf]
  have hmap : ∀ b ∈ range' (r.base + SLAB_BYTES) (cnt - 1 + 1) (objectSize + BLOCK_BYTES),
      mapped (firstBlockHeap h r objectSize cnt).regions b BLOCK_BYTES := by
    rw [hlist]
    exact fun b hb => hfresh.block_mapped hb
  obtain ⟨h', hrun, hlaid⟩ := initBlockLoop_laid r.base objectSize hpos hmap
    (by simp [firstBlockHeap]) (by simp [firstBlockHeap])
  rw [hlist] at hlaid
  have hregions : h'.regions = r :: h.regions := hlaid.regions
  refine ⟨h', ?_, ⟨?_, ?_, ?_, ?_⟩, hregions, ?_, ?_⟩
  · rw [createSlab_eq hcnt hmalloc hfresh, hrun]
    rfl
  · rw [hregions]
    exact forall_mem_cons.mpr ⟨hfresh.base_pos, hs.base_pos⟩
  · rw [hregions]
    exact forall_mem_cons.mpr ⟨hfresh.room, hs.room⟩
  · rw [hregions]
    exact pairwise_cons.mpr ⟨hfresh.apart, hs.apart⟩
  · intro q hq
    by_cases hqr : q = r.base
    · subst hqr
      rw [update_self]
      exact hlaid.newSlab hcnt
    · rw [update_of_ne hqr]
      rw [Heap.slabAddrs, hregions] at hq
      exact hlaid.oldSlab hcnt hs hfresh ((mem_cons.mp hq).resolve_left hqr) hqr
  · intro q hq
    rw [hlaid.slabs]
    exact update_of_ne hq _ _
  · rw [hlaid.slabs]
    simp [firstBlockHeap]

end NewSlab

end Stock

end LinuxWorkouts.MemCache
