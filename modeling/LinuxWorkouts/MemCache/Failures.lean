/-
Calls of the slab cache that should fail.

* An object that is given back twice. `free_block` looks at the count of the slab and at the first
  free block only, so `cache_free` ignores a block that is free already exactly when its slab is
  empty or the block is the first of the chain (`free_twice_ignored_iff`).
* A request that cannot be served. No free block is left and either `malloc` fails or the slabs
  have no room for an object. `cache_alloc` then reads the null slab, or returns `NULL` with
  one more slab on the full list: it comes out clean exactly when an object can be had
  (`alloc_clean_iff`).

Both are about every state a run reaches while `malloc` fails or returns fresh and
sufficient memory (`sound_of_run`). Caches whose slabs hold no object have an invariant of their
own (`Barren`).
-/

import LinuxWorkouts.MemCache.Runs
import LinuxWorkouts.MemCache.Geometry

namespace LinuxWorkouts.MemCache

open DoublyLinked Transition List Option

/-! ### Runs in which `malloc` may fail -/

/-- When `cache_alloc` needs a new slab, `malloc` fails or returns fresh memory of sufficient
size. -/
def MallocFresh (s : State) : Op → Prop
  | .alloc malloc => s.world.cache.slabsFree.size = 0 → s.world.cache.slabsPartial.size = 0 →
      ∀ r ∈ malloc (slabRequest s.world.cache.slabOrder),
        FreshRegion (s.world.cache.objectSize + BLOCK_BYTES) s.world.cache.slabObjects
          s.world.heap r
  | _ => True

instance (s : State) : ∀ op, Decidable (MallocFresh s op)
  | .alloc malloc =>
    inferInstanceAs (Decidable (_ → _ →
      ∀ r ∈ malloc (slabRequest s.world.cache.slabOrder),
        FreshRegion (s.world.cache.objectSize + BLOCK_BYTES) s.world.cache.slabObjects
          s.world.heap r))
  | .free _ => .isTrue trivial
  | .shrink => .isTrue trivial

section Reached

variable {objectSize : Nat} {h : Heap} {s s' : State} {ops : List Op} {op : Op}
  {malloc : Nat → Option Region}

theorem slab_null (hpos : ∀ r ∈ h.regions, 0 < r.base) : h.slab 0 = none := by
  have hnot : ¬ mapped h.regions 0 SLAB_BYTES := by
    intro hm
    obtain ⟨r, hr, hin⟩ := any_eq_true.mp hm
    have := hpos r hr
    simp only [Bool.and_eq_true, decide_eq_true_eq] at hin
    omega
  exact if_neg hnot

theorem cacheAlloc_null {w : World} (hpos : ∀ r ∈ w.heap.regions, 0 < r.base)
    (hfree : w.cache.slabsFree.size = 0) (hpart : w.cache.slabsPartial.size = 0)
    (hnull : malloc (slabRequest w.cache.slabOrder) = none) : cacheAlloc w malloc = none := by
  have hslab : ((w.heap.print "Can not allocate memory chunk for slab\n").print
      "Slab is null\n").slab 0 = none := slab_null hpos
  simp [cacheAlloc, hfree, allocFromPartial, partialSlab, hpart, createSlab, allocSlab, hnull,
    addToList, World.print, allocBlock, hslab]

theorem Sound.next_fresh (hs : Sound objectSize s) (hcnt : 0 < (cacheSetup objectSize).slabObjects)
    (hm : MallocFresh s op) (hstep : step s op = some s') : Sound objectSize s' := by
  refine (hs.next hcnt ?_).2 s' hstep
  cases op with
  | free _ => trivial
  | shrink => trivial
  | alloc malloc =>
    intro hfree hpart
    cases hmalloc : malloc (slabRequest s.world.cache.slabOrder) with
    | some r => exact ⟨r, rfl, hm hfree hpart r hmalloc⟩
    | none =>
      obtain ⟨lists, chain, hi⟩ := hs.2
      rw [step, cacheAlloc_null hi.stocked.base_pos hfree hpart hmalloc] at hstep
      cases hstep

theorem sound_of_run (hcnt : 0 < (cacheSetup objectSize).slabObjects)
    (hmalloc : Along step MallocFresh (start h objectSize) ops)
    (hrun : run step (start h objectSize) ops = some s) : Sound objectSize s := by
  have halways : Always step (Sound objectSize) (start h objectSize) ops :=
    always_of_along (fun _ hs => hs) (fun s op s' _ hs hm hstep => hs.next_fresh hcnt hm hstep)
      (start_sound h objectSize) hmalloc
  exact halways.run hrun

end Reached

/-! ### Giving an object back twice -/

def FreeChain (h : Heap) (p : Nat) (ch : List Nat) : Prop :=
  Chain (fun b => (h.blocks b).nextBlock) 0 (h.slabs p).firstBlock ch

/-- `cache_free` returns, and every slab has the count and the free blocks it had. -/
def FreeIgnored (w : World) (obj : Nat) : Prop :=
  ∃ w', cacheFree w obj = some w' ∧ ∀ p ∈ w.heap.slabAddrs,
    (w'.heap.slabs p).size = (w.heap.slabs p).size ∧
      ∀ ch, FreeChain w'.heap p ch ↔ FreeChain w.heap p ch

section Twice

variable {objectSize p b : Nat} {h : Heap} {s : State}

theorem freeBlock_rejects (hp : mapped h.regions p SLAB_BYTES)
    (hstop : (h.slabs p).size = 0 ∨ (h.slabs p).firstBlock = b) :
    ∃ text, freeBlock h p b = some (h.print text) := by
  rw [freeBlock, Heap.slab_eq hp]
  by_cases hsize : (h.slabs p).size = 0
  · refine ⟨"Slab is empty\n", ?_⟩
    simp [hsize]
  · refine ⟨"Target block is already free\n", ?_⟩
    simp [hsize, hstop.resolve_left hsize]

theorem Sound.freeIgnored_iff (hs : Sound objectSize s) (hp : p ∈ s.world.heap.slabAddrs)
    (hb : b ∈ blocksOf (objectSize + BLOCK_BYTES) (cacheSetup objectSize).slabObjects p) :
    FreeIgnored s.world (b + BLOCK_BYTES) ↔
      (s.world.heap.slabs p).size = 0 ∨ (s.world.heap.slabs p).firstBlock = b := by
  obtain ⟨lists, chain, hi⟩ := hs.2
  have hoff := blockBytes_le objectSize
  obtain ⟨id, hid⟩ := hi.placed p hp
  have hmap := hi.stocked.slab_mapped hp
  constructor
  · rintro ⟨w, hfree, hkept⟩
    by_contra hnot
    obtain ⟨hsize, hfirst⟩ := not_or.mp hnot
    -- the block is linked in once more and the count goes down
    have hrun := freeBlock_eq hmap (hi.stocked.block_mapped hoff hp hb) hsize hfirst
    have hlinks : SameLinks s.world.heap (giveBlock s.world.heap p b) :=
      sameLinks_update rfl rfl rfl rfl rfl
    rw [hi.cacheFree_eq hoff hid hb hrun hlinks.regions] at hfree
    obtain ⟨w', hmove, -, hstock, -⟩ := (hi.linked.congr hlinks).reposition
      (hi.stocked.valid.congr hlinks.regions) hid
      (if ((giveBlock s.world.heap p b).slabs p).size = 0 then .slabsFree else .slabsPartial)
    obtain rfl : w' = w := Option.some.inj (hmove.symm.trans hfree)
    have hcount := (hstock.size p).symm.trans (hkept p hp).1
    simp only [giveBlock, Function.update_self] at hcount
    omega
  · intro hstop
    obtain ⟨text, hrun⟩ := freeBlock_rejects hmap hstop
    have hlinks : SameLinks s.world.heap (s.world.heap.print text) :=
      ⟨rfl, fun _ => rfl, fun _ => rfl, fun _ => rfl⟩
    obtain ⟨w, hmove, -, hstock, -⟩ := (hi.linked.congr hlinks).reposition
      (hi.stocked.valid.congr hlinks.regions) hid
      (if ((s.world.heap.print text).slabs p).size = 0 then .slabsFree else .slabsPartial)
    refine ⟨w, (hi.cacheFree_eq hoff hid hb hrun rfl).trans hmove, fun q _ => ⟨hstock.size q, ?_⟩⟩
    intro ch
    rw [FreeChain, hstock.blocks, hstock.firstBlock q]
    rfl

/-- **A second `cache_free`.** In every state a run reaches, for every block of a slab:
`cache_free` of its object leaves the counts and the free blocks of all slabs as they are
exactly when the slab has no block in use or the block is the first free one. A block that is
free but stands behind another one in the chain is not recognised. -/
theorem free_twice_ignored_iff (h : Heap) (objectSize : Nat) (ops : List Op)
    (hmalloc : Along step MallocFresh (start h objectSize) ops)
    (hrun : run step (start h objectSize) ops = some s) (hp : p ∈ s.world.heap.slabAddrs)
    (hb : b ∈ blocksOf (objectSize + BLOCK_BYTES) (cacheSetup objectSize).slabObjects p) :
    FreeIgnored s.world (b + BLOCK_BYTES) ↔
      (s.world.heap.slabs p).size = 0 ∨ (s.world.heap.slabs p).firstBlock = b := by
  have hcnt : 0 < (cacheSetup objectSize).slabObjects := by
    obtain ⟨i, hi, -⟩ := mem_blocksOf.mp hb
    omega
  exact (sound_of_run hcnt hmalloc hrun).freeIgnored_iff hp hb

end Twice

def oneSlab (_ : Nat) : Option Region := some ⟨65536, 16384⟩

def takeThree : List Op :=
  [.alloc oneSlab, .alloc oneSlab, .alloc oneSlab, .free 65624, .free 66648]

/-- The second object is the first free block, the first one is not. -/
theorem free_twice_ignored_iff_three :
    ∃ s, run step (start blankHeap 1000) takeThree = some s ∧ s.live = [67672] ∧
      FreeIgnored s.world (66624 + BLOCK_BYTES) ∧ ¬ FreeIgnored s.world (65600 + BLOCK_BYTES) := by
  have hmalloc : Along step MallocFresh (start blankHeap 1000) takeThree := by decide +kernel
  have hread : (run step (start blankHeap 1000) takeThree).map (fun s =>
      (s.live, s.world.heap.slabAddrs, (s.world.heap.slabs 65536).size,
        (s.world.heap.slabs 65536).firstBlock)) = some ([67672], [65536], 1, 66624) := by
    decide +kernel
  obtain ⟨s, hs, hfields⟩ := map_eq_some_iff.mp hread
  simp only [Prod.mk.injEq] at hfields
  obtain ⟨hlive, haddrs, hsize, hfirst⟩ := hfields
  have hp : 65536 ∈ s.world.heap.slabAddrs := by rw [haddrs]; exact mem_singleton_self _
  refine ⟨s, hs, hlive, ?_, ?_⟩
  · exact (free_twice_ignored_iff blankHeap 1000 takeThree hmalloc hs hp
      (mem_blocksOf.mpr ⟨1, by decide, rfl⟩)).mpr (.inr hfirst)
  · intro hignored
    have hstop := (free_twice_ignored_iff blankHeap 1000 takeThree hmalloc hs hp
      (mem_blocksOf.mpr ⟨0, by decide, rfl⟩)).mp hignored
    omega

/-- The object at 65624 is free. Given back again, its slab counts no block in use and moves to
the free list, with the object at 67672 still live. -/
theorem free_twice_empties_slab :
    ∃ s w, run step (start blankHeap 1000) takeThree = some s ∧ 65624 ∉ s.live ∧ 67672 ∈ s.live ∧
      cacheFree s.world 65624 = some w ∧ (s.world.heap.slabs 65536).size = 1 ∧
      (w.heap.slabs 65536).size = 0 ∧ w.cache.slabsFree = ⟨1, 65536⟩ ∧
      ¬ FreeIgnored s.world 65624 := by
  have hread : ((run step (start blankHeap 1000) takeThree).bind fun s =>
      (cacheFree s.world 65624).map fun w => (s.live, (s.world.heap.slabs 65536).size,
        (w.heap.slabs 65536).size, w.cache.slabsFree)) = some ([67672], 1, 0, ⟨1, 65536⟩) := by
    decide +kernel
  have haddrs : ((run step (start blankHeap 1000) takeThree).map fun s =>
      s.world.heap.slabAddrs) = some [65536] := by decide +kernel
  obtain ⟨s, hs, hbind⟩ := bind_eq_some_iff.mp hread
  obtain ⟨w, hw, hfields⟩ := map_eq_some_iff.mp hbind
  rw [hs, map_some, Option.some.injEq] at haddrs
  simp only [Prod.mk.injEq] at hfields
  obtain ⟨hlive, hsize, hsize', hlist⟩ := hfields
  refine ⟨s, w, hs, by simp [hlive], by simp [hlive], hw, hsize, hsize', hlist, ?_⟩
  rintro ⟨w', hw', hkept⟩
  obtain rfl : w' = w := Option.some.inj (hw'.symm.trans hw)
  have := (hkept 65536 (by simp [haddrs])).1
  omega

/-! ### Requests that cannot be served -/

/-- An object can be had: a slab has a free block, or `malloc` returns the memory of a slab that
holds an object. -/
def Obtainable (w : World) (malloc : Nat → Option Region) : Prop :=
  (∃ p ∈ w.heap.slabAddrs, (w.heap.slabs p).size < (w.heap.slabs p).capacity) ∨
    malloc (slabRequest w.cache.slabOrder) ≠ none ∧ 0 < w.cache.slabObjects

def SameLists (w w' : World) : Prop :=
  (∀ id, w'.cache.list id = w.cache.list id) ∧ ∀ p ∈ w.heap.slabAddrs,
    prevOf w'.heap p = prevOf w.heap p ∧ nextOf w'.heap p = nextOf w.heap p ∧
      (w'.heap.slabs p).listPtr = (w.heap.slabs p).listPtr

/-- `cache_alloc` returns, and when it returns `NULL` the lists are as they were. -/
def CleanOutcome (w : World) (malloc : Nat → Option Region) : Prop :=
  ∃ w' obj, cacheAlloc w malloc = some (w', obj) ∧ (obj = 0 → SameLists w w')

section Room

variable {objectSize : Nat} {s : State} {malloc : Nat → Option Region}

theorem Sound.room_iff (hs : Sound objectSize s) (hcnt : 0 < (cacheSetup objectSize).slabObjects) :
    (∃ p ∈ s.world.heap.slabAddrs, (s.world.heap.slabs p).size < (s.world.heap.slabs p).capacity) ↔
      ¬ (s.world.cache.slabsFree.size = 0 ∧ s.world.cache.slabsPartial.size = 0) := by
  obtain ⟨lists, chain, hi⟩ := hs.2
  have hfree : s.world.cache.slabsFree.size = (lists .slabsFree).length :=
    (hi.linked .slabsFree).size
  have hpart : s.world.cache.slabsPartial.size = (lists .slabsPartial).length :=
    (hi.linked .slabsPartial).size
  have hkeeps : ∀ id, ∀ p ∈ lists id,
      id.Keeps (chain p).length (cacheSetup objectSize).slabObjects :=
    fun id p hp => hi.classes id p hp (hi.linked.ne_zero hi.stocked.valid hp)
  rw [hfree, hpart, length_eq_zero_iff, length_eq_zero_iff]
  constructor
  · rintro ⟨p, hp, hlt⟩ ⟨hnil, hnil'⟩
    obtain ⟨id, hid⟩ := hi.placed p hp
    have hok := hi.stocked.slab p hp
    have hsize := hok.size
    rw [hok.capacity] at hlt
    cases id with
    | slabsFree => simp [hnil] at hid
    | slabsPartial => simp [hnil'] at hid
    | slabsFull =>
      have hzero : (chain p).length = 0 := hkeeps .slabsFull p hid
      omega
  · intro hne
    have hslab : ∃ id p, p ∈ lists id ∧ 0 < (chain p).length := by
      by_cases hnil : lists .slabsFree = []
      · obtain ⟨p, hp⟩ := exists_mem_of_ne_nil _ fun h => hne ⟨hnil, h⟩
        exact ⟨_, p, hp, (hkeeps .slabsPartial p hp).1⟩
      · obtain ⟨p, hp⟩ := exists_mem_of_ne_nil _ hnil
        have hall : (chain p).length = _ := hkeeps .slabsFree p hp
        exact ⟨_, p, hp, hall ▸ hcnt⟩
    obtain ⟨id, p, hp, hpos⟩ := hslab
    have hp' := (hi.linked id).known p hp
    have hok := hi.stocked.slab p hp'
    have hsize := hok.size
    exact ⟨p, hp', by rw [hok.capacity]; omega⟩

theorem Sound.clean_iff (hs : Sound objectSize s) (hcnt : 0 < (cacheSetup objectSize).slabObjects)
    (hm : MallocFresh s (.alloc malloc)) :
    CleanOutcome s.world malloc ↔ Obtainable s.world malloc := by
  have hcount : s.world.cache.slabObjects = (cacheSetup objectSize).slabObjects := hs.slabObjects_eq
  constructor
  · rintro ⟨w, obj, hrun, -⟩
    by_contra hnot
    obtain ⟨hroom, hnone⟩ := not_or.mp hnot
    rw [hs.room_iff hcnt, not_not] at hroom
    have hnull : malloc (slabRequest s.world.cache.slabOrder) = none := by
      by_contra h
      exact hnone ⟨h, hcount ▸ hcnt⟩
    obtain ⟨lists, chain, hi⟩ := hs.2
    rw [cacheAlloc_null hi.stocked.base_pos hroom.1 hroom.2 hnull] at hrun
    cases hrun
  · intro hob
    have hok : MallocOk s (.alloc malloc) := by
      intro hfree hpart
      have hsome := (hob.resolve_left fun h => (hs.room_iff hcnt).mp h ⟨hfree, hpart⟩).1
      obtain ⟨r, hr⟩ := ne_none_iff_exists'.mp hsome
      exact ⟨r, hr, hm hfree hpart r hr⟩
    obtain ⟨w, obj, hrun, h0, -⟩ := hs.cacheAlloc hcnt hok
    exact ⟨w, obj, hrun, fun h => absurd h h0⟩

end Room

/-! ### Slabs that hold no object -/

/-- The lists of a cache with the slabs `full` on the full list and no others. -/
def fullOnly (full : List Nat) : ListId → List Nat
  | .slabsFull => full
  | _ => []

/-- The invariant of a cache whose slabs hold no object: every slab is on the full list. -/
structure Barren (objectSize : Nat) (s : State) (full : List Nat) : Prop where
  geometry : s.world.cache.geometry = (cacheSetup objectSize).geometry
  base_pos : ∀ r ∈ s.world.heap.regions, 0 < r.base
  room : ∀ r ∈ s.world.heap.regions, SLAB_BYTES ≤ r.bytes
  linked : Linked s.world (fullOnly full)
  used : ∀ p ∈ s.world.heap.slabAddrs,
    (s.world.heap.slabs p).size = (s.world.heap.slabs p).capacity
  live : s.live = []

section NoObjects

variable {objectSize order p : Nat} {h : Heap} {r : Region} {s s' : State} {full : List Nat}
  {ops : List Op} {op : Op} {malloc : Nat → Option Region} {w : World}

theorem header_mapped {rs : List Region} (hr : r ∈ rs) (hroom : SLAB_BYTES ≤ r.bytes) :
    mapped rs r.base SLAB_BYTES := mapped_of_le hr (Nat.le_refl _) (by omega)

theorem createSlab_zero (h : Heap) (objectSize : Nat)
    (hmalloc : malloc (slabRequest order) = some r)
    (hroom : SLAB_BYTES ≤ r.bytes) :
    createSlab h malloc objectSize order 0 =
      if mapped (r :: h.regions) (r.base + SLAB_BYTES) BLOCK_BYTES then
        some (firstBlockHeap h r objectSize 0, r.base)
      else none := by
  have hslab : mapped (r :: h.regions) r.base SLAB_BYTES := header_mapped mem_cons_self hroom
  by_cases hblock : mapped (r :: h.regions) (r.base + SLAB_BYTES) BLOCK_BYTES <;>
    simp [createSlab, allocSlab, hmalloc, initBlockList, initBlockLoop, Heap.updateSlab,
      Heap.updateBlock, Heap.slab, Heap.block, hslab, hblock, firstBlockHeap]

theorem valid_of_room (hpos : ∀ r ∈ h.regions, 0 < r.base)
    (hroom : ∀ r ∈ h.regions, SLAB_BYTES ≤ r.bytes) : h.Valid := by
  intro p hp
  obtain ⟨r, hr, rfl⟩ := Heap.mem_slabAddrs.mp hp
  exact ⟨Nat.ne_of_gt (hpos r hr), header_mapped hr (hroom r hr)⟩

theorem Barren.sizes (hb : Barren objectSize s full) :
    s.world.cache.slabsFree.size = 0 ∧ s.world.cache.slabsPartial.size = 0 ∧
      s.world.cache.slabsFull.size = full.length :=
  ⟨(hb.linked .slabsFree).size, (hb.linked .slabsPartial).size, (hb.linked .slabsFull).size⟩

theorem fullOnly_moved (full : List Nat) (p : Nat) :
    moved (Function.update (fullOnly full) .slabsPartial [p]) .slabsPartial .slabsFull p =
      fullOnly (p :: full) := by
  funext id
  cases id <;> simp [moved, fullOnly]

theorem allocFromPartial_full {w₁ : World} {lists : ListId → List Nat}
    (hpart : partialSlab w malloc = some (w₁, p)) (hl : Linked w₁ lists) (hv : w₁.heap.Valid)
    (hp : p ∈ lists .slabsPartial) (hfull : (w₁.heap.slabs p).size ≥ (w₁.heap.slabs p).capacity) :
    ∃ w', allocFromPartial w malloc = some (w', 0) ∧
      Linked w' (moved lists .slabsPartial .slabsFull p) ∧ SameStock w₁.heap w'.heap ∧
      w'.cache.geometry = w₁.cache.geometry := by
  have hmap := (hv p ((hl _).known p hp)).2
  obtain ⟨h₂, hh₂⟩ : ∃ h₂, w₁.heap.print "Can not allocate a new block: slab is full\n" = h₂ :=
    ⟨_, rfl⟩
  have hlinks : SameLinks w₁.heap h₂ := hh₂ ▸ ⟨rfl, fun _ => rfl, fun _ => rfl, fun _ => rfl⟩
  have hblock : allocBlock w₁.heap p = some (h₂, 0) := by
    rw [allocBlock, Heap.slab_eq hmap, bind_eq_bind, bind_some, if_pos hfull, hh₂]
  have hisFull : slabIsFull h₂ p = some true := by
    rw [slabIsFull, Heap.slab_eq (hlinks.regions ▸ hmap), ← hh₂]
    exact congrArg some (decide_eq_true hfull)
  obtain ⟨w', hmove, hl', hstock, hgeo⟩ :=
    (hl.congr hlinks).reposition (hv.congr hlinks.regions) hp .slabsFull
  refine ⟨w', ?_, hl', ?_, hgeo⟩
  · simp only [allocFromPartial, hpart, hblock, hisFull, bind_eq_bind, bind_some, if_true, hmove]
  · have hprinted : SameStock w₁.heap h₂ :=
      hh₂ ▸ ⟨rfl, rfl, fun _ => rfl, fun _ => rfl, fun _ => rfl⟩
    exact hprinted.trans hstock

section

variable (hb : Barren objectSize s full)
include hb

theorem Barren.create (hcnt : (cacheSetup objectSize).slabObjects = 0)
    (hmalloc : malloc (slabRequest s.world.cache.slabOrder) = some r) (hroom : SLAB_BYTES ≤ r.bytes)
    (hblock : mapped (r :: s.world.heap.regions) (r.base + SLAB_BYTES) BLOCK_BYTES) :
    ∃ h', createSlab s.world.heap malloc s.world.cache.objectSize s.world.cache.slabOrder
        s.world.cache.slabObjects = some (h', r.base) ∧
      h'.regions = r :: s.world.heap.regions ∧
      (∀ q, q ≠ r.base → h'.slabs q = s.world.heap.slabs q) ∧
      (h'.slabs r.base).size = (h'.slabs r.base).capacity ∧ nextOf h' r.base = 0 := by
  have hzero : s.world.cache.slabObjects = 0 := (congrArg (fun g => g.2.2) hb.geometry).trans hcnt
  rw [hzero]
  refine ⟨_, (createSlab_zero _ _ hmalloc hroom).trans (if_pos hblock), rfl,
    fun q hq => Function.update_of_ne hq _ _, ?_, ?_⟩
  · simp [firstBlockHeap]
  · simp [firstBlockHeap, nextOf]

theorem Barren.newSlab (hcnt : (cacheSetup objectSize).slabObjects = 0)
    (hmalloc : malloc (slabRequest s.world.cache.slabOrder) = some r)
    (hfresh : FreshRegion (s.world.cache.objectSize + BLOCK_BYTES) s.world.cache.slabObjects
      s.world.heap r)
    (hblock : mapped (r :: s.world.heap.regions) (r.base + SLAB_BYTES) BLOCK_BYTES) :
    ∃ w, cacheAlloc s.world malloc = some (w, 0) ∧
      Barren objectSize ⟨w, s.live⟩ (r.base :: full) := by
  obtain ⟨hfree, hpart, -⟩ := hb.sizes
  have hroom : SLAB_BYTES ≤ r.bytes := Nat.le_trans (Nat.le_add_right _ _) hfresh.room
  have hnew := hfresh.not_mem hb.room
  obtain ⟨h₁, hcreate, hregions, hslabs, hused, hnext⟩ := hb.create hcnt hmalloc hroom hblock
  have haddrs : h₁.slabAddrs = r.base :: s.world.heap.slabAddrs := by
    rw [Heap.slabAddrs, hregions, map_cons, Heap.slabAddrs]
  have hpos₁ : ∀ q ∈ h₁.regions, 0 < q.base := by
    rw [hregions]
    exact forall_mem_cons.mpr ⟨hfresh.base_pos, hb.base_pos⟩
  have hroom₁ : ∀ q ∈ h₁.regions, SLAB_BYTES ≤ q.bytes := by
    rw [hregions]
    exact forall_mem_cons.mpr ⟨hroom, hb.room⟩
  have hvalid := valid_of_room hpos₁ hroom₁
  obtain ⟨w₁, hadd, hl₁, hstock₁, hgeo₁⟩ := (hb.linked.grow hregions hslabs hnew).add hvalid
    (haddrs ▸ mem_cons_self) (fun id h => hnew ((hb.linked id).known _ h)) hnext .slabsPartial
  have hslab : partialSlab s.world malloc = some (w₁, r.base) := by
    simp only [partialSlab, if_pos hpart, hcreate, hadd, bind_eq_bind, bind_some]
  have hfull : (w₁.heap.slabs r.base).size ≥ (w₁.heap.slabs r.base).capacity := by
    rw [hstock₁.size, hstock₁.capacity]
    exact Nat.le_of_eq hused.symm
  obtain ⟨w, hrun, hl, hstock, hgeo⟩ :=
    allocFromPartial_full hslab hl₁ (hvalid.congr hstock₁.regions) (by simp) hfull
  have hsame := hstock₁.trans hstock
  refine ⟨w, ?_, (hgeo.trans hgeo₁).trans hb.geometry, ?_, ?_, ?_, fun q hq => ?_, hb.live⟩
  · rw [cacheAlloc, if_neg (by omega), hrun]
  · exact hsame.regions ▸ hpos₁
  · exact hsame.regions ▸ hroom₁
  · rw [← fullOnly_moved]
    exact hl
  · have hq₁ : q ∈ h₁.slabAddrs := hsame.slabAddrs ▸ hq
    rw [hsame.size, hsame.capacity]
    by_cases hqr : q = r.base
    · exact hqr ▸ hused
    · rw [haddrs] at hq₁
      rw [hslabs q hqr]
      exact hb.used q ((mem_cons.mp hq₁).resolve_left hqr)

theorem Barren.alloc {obj : Nat} (hcnt : (cacheSetup objectSize).slabObjects = 0)
    (hm : MallocFresh s (.alloc malloc)) (hrun : cacheAlloc s.world malloc = some (w, obj)) :
    obj = 0 ∧ ∃ p, Barren objectSize ⟨w, s.live⟩ (p :: full) := by
  obtain ⟨hfree, hpart, -⟩ := hb.sizes
  cases hmalloc : malloc (slabRequest s.world.cache.slabOrder) with
  | none =>
    rw [cacheAlloc_null hb.base_pos hfree hpart hmalloc] at hrun
    cases hrun
  | some r =>
    have hfresh := hm hfree hpart r hmalloc
    by_cases hblock : mapped (r :: s.world.heap.regions) (r.base + SLAB_BYTES) BLOCK_BYTES
    · obtain ⟨w', hrun', hb'⟩ := hb.newSlab hcnt hmalloc hfresh hblock
      obtain ⟨rfl, rfl⟩ := Prod.mk.inj (Option.some.inj (hrun'.symm.trans hrun))
      exact ⟨rfl, r.base, hb'⟩
    · -- the block that is always laid out lies behind the memory
      have hzero : s.world.cache.slabObjects = 0 :=
        (congrArg (fun g => g.2.2) hb.geometry).trans hcnt
      have hcreate := createSlab_zero s.world.heap s.world.cache.objectSize hmalloc
        (Nat.le_trans (Nat.le_add_right _ _) hfresh.room)
      rw [if_neg hblock, ← hzero] at hcreate
      simp [cacheAlloc, hfree, allocFromPartial, partialSlab, hpart, hcreate] at hrun

end

theorem start_barren (h : Heap) (objectSize : Nat) : Barren objectSize (start h objectSize) [] := by
  refine ⟨rfl, ?_, ?_, fun id => ?_, ?_, rfl⟩
  · simp [start]
  · simp [start]
  · refine ⟨?_, ?_, ?_, ?_, ?_, ?_⟩ <;> cases id <;>
      simp [start, fullOnly, cacheSetup, Cache.list, slabListInit]
  · simp [start, Heap.slabAddrs]

theorem Barren.next (hb : Barren objectSize s full)
    (hcnt : (cacheSetup objectSize).slabObjects = 0) (hm : MallocFresh s op)
    (hstep : step s op = some s') : ∃ full', Barren objectSize s' full' := by
  cases op with
  | alloc malloc =>
    obtain ⟨⟨w, obj⟩, hrun, rfl⟩ := map_eq_some_iff.mp hstep
    obtain ⟨rfl, p, hb'⟩ := hb.alloc hcnt hm hrun
    exact ⟨_, hb'⟩
  | free obj =>
    rw [step, hb.live, if_neg not_mem_nil] at hstep
    cases hstep
  | shrink =>
    have hprint : cacheShrink s.world = some (s.world.print "List size is zero\n") :=
      if_pos hb.sizes.1
    rw [step, hprint, map_some, Option.some.injEq] at hstep
    subst hstep
    have hlinks : SameLinks s.world.heap (s.world.heap.print "List size is zero\n") :=
      ⟨rfl, fun _ => rfl, fun _ => rfl, fun _ => rfl⟩
    exact ⟨full, hb.geometry, hb.base_pos, hb.room, hb.linked.congr hlinks, hb.used, hb.live⟩

theorem barren_of_run (hcnt : (cacheSetup objectSize).slabObjects = 0)
    (hmalloc : Along step MallocFresh (start h objectSize) ops)
    (hrun : run step (start h objectSize) ops = some s) : ∃ full, Barren objectSize s full := by
  have halways : Always step (fun s => ∃ full, Barren objectSize s full) (start h objectSize) ops :=
    always_of_along (fun _ hb => hb)
      (fun s op s' _ ⟨_, hb⟩ hm hstep => hb.next hcnt hm hstep)
      ⟨[], start_barren h objectSize⟩ hmalloc
  exact halways.run hrun

theorem Barren.clean_iff (hb : Barren objectSize s full)
    (hcnt : (cacheSetup objectSize).slabObjects = 0) (hm : MallocFresh s (.alloc malloc)) :
    CleanOutcome s.world malloc ↔ Obtainable s.world malloc := by
  have hzero : s.world.cache.slabObjects = 0 := (congrArg (fun g => g.2.2) hb.geometry).trans hcnt
  constructor
  · rintro ⟨w, obj, hrun, hclean⟩
    obtain ⟨rfl, p, hb'⟩ := hb.alloc hcnt hm hrun
    have hsame : w.cache.slabsFull = s.world.cache.slabsFull := (hclean rfl).1 .slabsFull
    have hbefore := hb.sizes.2.2
    have hafter : w.cache.slabsFull.size = (p :: full).length := hb'.sizes.2.2
    rw [hsame, hbefore, length_cons] at hafter
    omega
  · rintro (⟨p, hp, hlt⟩ | ⟨-, hpos⟩)
    · have := hb.used p hp
      omega
    · omega

end NoObjects

/-- **A request that cannot be served.** In every state a run reaches and for every answer of
`malloc` that is `NULL` or fresh memory of sufficient size, `cache_alloc` comes out clean exactly
when an object can be had. Otherwise it reads the null slab, or leaves one more slab on
the full list. -/
theorem alloc_clean_iff {s : State} (h : Heap) (objectSize : Nat) (ops : List Op)
    (hmalloc : Along step MallocFresh (start h objectSize) ops)
    (hrun : run step (start h objectSize) ops = some s) (malloc : Nat → Option Region)
    (hfresh : MallocFresh s (.alloc malloc)) :
    CleanOutcome s.world malloc ↔ Obtainable s.world malloc := by
  by_cases hcnt : (cacheSetup objectSize).slabObjects = 0
  · obtain ⟨full, hb⟩ := barren_of_run hcnt hmalloc hrun
    exact hb.clean_iff hcnt hfresh
  · have hpos : 0 < (cacheSetup objectSize).slabObjects := Nat.pos_of_ne_zero hcnt
    exact (sound_of_run hpos hmalloc hrun).clean_iff hpos hfresh

/-- One object was given out; the next one comes from the same slab, without `malloc`. -/
theorem alloc_clean_iff_second :
    ∃ s, run step (start blankHeap 1000) [.alloc oneSlab] = some s ∧
      CleanOutcome s.world fun _ => none := by
  have hmalloc : Along step MallocFresh (start blankHeap 1000) [.alloc oneSlab] := by decide +kernel
  have hread : (run step (start blankHeap 1000) [.alloc oneSlab]).map (fun s =>
      (s.world.heap.slabAddrs, (s.world.heap.slabs 65536).size,
        (s.world.heap.slabs 65536).capacity)) = some ([65536], 1, 15) := by decide +kernel
  obtain ⟨s, hs, hfields⟩ := map_eq_some_iff.mp hread
  simp only [Prod.mk.injEq] at hfields
  obtain ⟨haddrs, hsize, hcapacity⟩ := hfields
  refine ⟨s, hs, (alloc_clean_iff blankHeap 1000 _ hmalloc hs _ ?_).mpr (.inl ⟨65536, ?_, ?_⟩)⟩
  · intro _ _ r hr
    cases hr
  · rw [haddrs]
    exact mem_singleton_self _
  · omega

/-- Right after `cache_setup`: with objects of 1000 bytes and no memory the null slab is read;
with objects of 4 MiB, which no slab holds, the result is `NULL` and the full list has grown. -/
theorem alloc_fails_unclean :
    (¬ Obtainable (start blankHeap 1000).world fun _ => none) ∧
      cacheAlloc (start blankHeap 1000).world (fun _ => none) = none ∧
      ¬ Obtainable (start blankHeap 4194304).world exactMalloc ∧
      ∃ w, cacheAlloc (start blankHeap 4194304).world exactMalloc = some (w, 0) ∧
        (start blankHeap 4194304).world.cache.slabsFull = ⟨0, 0⟩ ∧
        w.cache.slabsFull = ⟨1, 65536⟩ := by
  refine ⟨?_, ?_, ?_, ?_⟩
  · rintro (⟨p, hp, -⟩ | ⟨hnone, -⟩)
    · cases hp
    · exact hnone rfl
  · exact cacheAlloc_null (by simp [start]) rfl rfl rfl
  · rintro (⟨p, hp, -⟩ | ⟨-, hpos⟩)
    · cases hp
    · exact absurd hpos (by decide)
  · have hread : (cacheAlloc (start blankHeap 4194304).world exactMalloc).map
        (fun r => (r.2, r.1.cache.slabsFull)) = some (0, ⟨1, 65536⟩) := by decide +kernel
    obtain ⟨⟨w, obj⟩, hrun, hfields⟩ := map_eq_some_iff.mp hread
    simp only [Prod.mk.injEq] at hfields
    obtain ⟨rfl, hlist⟩ := hfields
    exact ⟨w, hrun, rfl, hlist⟩

end LinuxWorkouts.MemCache
