/-
Runs of the slab cache with its client.

A run starts with `cache_setup` and takes objects, gives back objects that are live
and shrinks the cache, in any order. `cache_consistent` is the invariant over whole
runs: the three lists partition the slabs by how many of their blocks are in use,
and the free blocks of a slab are the ones that hold no live object. So
`cache_alloc` never hands out an object twice and `cache_shrink` gives back no slab
that is in use. `cacheRelease_empties` is the end of a cache: `cache_release` leaves no
memory behind.

`CacheInv ex` is the invariant with the slab `ex` in transit: between taking a
block and moving its slab to another list, that slab is on a list it does not
belong to. No slab is at address `0`, so `CacheInv 0` exempts none.
-/

import LinuxWorkouts.MemCache.Lists
import LinuxWorkouts.Lib.Transition

namespace LinuxWorkouts.MemCache

open DoublyLinked Transition Function List

/-- What the client does. `malloc` is what the system would answer. -/
inductive Op where
  | alloc (malloc : Nat → Option Region)
  | free (obj : Nat)
  | shrink

structure State where
  world : World
  live : List Nat

def start (h : Heap) (objectSize : Nat) : State :=
  ⟨⟨{ h with regions := [], stdout := [] }, cacheSetup objectSize⟩, []⟩

def step (s : State) : Op → Option State
  | .alloc malloc => (cacheAlloc s.world malloc).map fun r =>
    ⟨r.1, if r.2 = 0 then s.live else r.2 :: s.live⟩
  | .free obj =>
    if obj ∈ s.live then (cacheFree s.world obj).map fun w => ⟨w, s.live.erase obj⟩ else none
  | .shrink => (cacheShrink s.world).map fun w => ⟨w, s.live⟩

/-! ### The property -/

/-- How many of the `capacity` blocks of a slab are in use, for each list. -/
def ListId.Holds : ListId → Nat → Nat → Prop
  | .slabsFree, size, _ => size = 0
  | .slabsPartial, size, capacity => 0 < size ∧ size < capacity
  | .slabsFull, size, capacity => size = capacity

/-- The slab cache is consistent: `lists` are the slabs on each list and `chain p` the
free blocks of the slab at `p`. -/
structure Consistent (s : State) (lists : ListId → List Nat) (chain : Nat → List Nat) : Prop where
  linked : Linked s.world lists
  once : ∀ p ∈ s.world.heap.slabAddrs, ∃! id, p ∈ lists id
  classes : ∀ id, ∀ p ∈ lists id,
    id.Holds (s.world.heap.slabs p).size (s.world.heap.slabs p).capacity
  chained : ∀ p ∈ s.world.heap.slabAddrs, Chain (fun b => (s.world.heap.blocks b).nextBlock) 0
    (s.world.heap.slabs p).firstBlock (chain p)
  nodup : ∀ p ∈ s.world.heap.slabAddrs, (chain p).Nodup
  count : ∀ p ∈ s.world.heap.slabAddrs,
    (chain p).length = (s.world.heap.slabs p).capacity - (s.world.heap.slabs p).size
  notLive : ∀ p ∈ s.world.heap.slabAddrs, ∀ b ∈ chain p, b + BLOCK_BYTES ∉ s.live

/-- When `cache_alloc` needs a new slab, `malloc` returns fresh memory of sufficient
size. -/
def MallocOk (s : State) : Op → Prop
  | .alloc malloc => s.world.cache.slabsFree.size = 0 → s.world.cache.slabsPartial.size = 0 →
      ∃ r, malloc (slabRequest s.world.cache.slabOrder) = some r ∧
        FreshRegion (s.world.cache.objectSize + BLOCK_BYTES) s.world.cache.slabObjects
          s.world.heap r
  | _ => True

/-- Every call returns; a new object is not null and not live; memory that is given back
holds no block of a live object. -/
def Honest (s : State) : Op → Prop
  | .alloc malloc => ∃ w obj, cacheAlloc s.world malloc = some (w, obj) ∧ obj ≠ 0 ∧ obj ∉ s.live
  | .free obj => obj ∈ s.live → ∃ w, cacheFree s.world obj = some w
  | .shrink => ∃ w, cacheShrink s.world = some w ∧
      ∀ r ∈ s.world.heap.regions, r ∉ w.heap.regions → ∀ obj ∈ s.live,
        ¬ (r.base ≤ obj - BLOCK_BYTES ∧ obj - BLOCK_BYTES < r.base + r.bytes)

/-! ### The invariant -/

/-- How many of the `cnt` blocks of a slab are free, for each list. -/
def ListId.Keeps : ListId → Nat → Nat → Prop
  | .slabsFree, free, cnt => free = cnt
  | .slabsPartial, free, cnt => 0 < free ∧ free < cnt
  | .slabsFull, free, _ => free = 0

/-- The blocks of live objects are the blocks that are on no chain. -/
def LiveBlocks (offset cnt : Nat) (h : Heap) (chain : Nat → List Nat) (live : List Nat) : Prop :=
  ∀ obj, obj ∈ live ↔
    ∃ p ∈ h.slabAddrs, ∃ b ∈ blocksOf offset cnt p, b ∉ chain p ∧ obj = b + BLOCK_BYTES

/-- The invariant of the cache, with the slab `ex` in transit. -/
structure CacheInv (ex offset cnt : Nat) (s : State) (lists : ListId → List Nat)
    (chain : Nat → List Nat) : Prop where
  linked : Linked s.world lists
  stocked : Stocked offset cnt s.world.heap chain
  placed : ∀ p ∈ s.world.heap.slabAddrs, ∃ id, p ∈ lists id
  classes : ∀ id, ∀ p ∈ lists id, p ≠ ex → id.Keeps (chain p).length cnt
  live : LiveBlocks offset cnt s.world.heap chain s.live
  nodup : s.live.Nodup

variable {h h' : Heap} {w : World} {malloc : Nat → Option Region} {r : Region}

section Invariant

variable {ex offset cnt p b : Nat} {s : State} {lists : ListId → List Nat}
  {chain : Nat → List Nat} {bs : List Nat} {src dest : ListId}

theorem CacheInv.weaken (hi : CacheInv 0 offset cnt s lists chain) (p : Nat) :
    CacheInv p offset cnt s lists chain :=
  ⟨hi.linked, hi.stocked, hi.placed,
    fun id q hq _ => hi.classes id q hq (hi.linked.ne_zero hi.stocked.valid hq), hi.live, hi.nodup⟩

theorem CacheInv.arrive (hi : CacheInv p offset cnt s lists chain) (hp : p ∈ lists src)
    (hkeeps : src.Keeps (chain p).length cnt) : CacheInv 0 offset cnt s lists chain := by
  refine ⟨hi.linked, hi.stocked, hi.placed, fun id q hq _ => ?_, hi.live, hi.nodup⟩
  by_cases hqp : q = p
  · subst hqp
    have hid : id = src := by
      by_contra hne
      exact hi.linked.not_mem hne hp hq
    exact hid ▸ hkeeps
  · exact hi.classes id q hq hqp

theorem CacheInv.consistent (hi : CacheInv 0 offset cnt s lists chain) (hoff : 0 < offset) :
    Consistent s lists chain := by
  have hvalid := hi.stocked.valid
  refine ⟨hi.linked, fun p hp => ?_, fun id p hp => ?_, fun p hp => (hi.stocked.slab p hp).chain,
    fun p hp => (hi.stocked.slab p hp).nodup, fun p hp => ?_, fun p hp b hb hlive => ?_⟩
  · obtain ⟨id, hid⟩ := hi.placed p hp
    refine ⟨id, hid, fun id' hid' => ?_⟩
    by_contra hne
    exact hi.linked.not_mem hne hid hid'
  · have hok := hi.stocked.slab p ((hi.linked id).known p hp)
    have hkeeps := hi.classes id p hp (hi.linked.ne_zero hvalid hp)
    have hsize := hok.size
    rw [hok.capacity]
    cases id <;> simp only [ListId.Holds, ListId.Keeps] at hkeeps ⊢ <;> omega
  · have hok := hi.stocked.slab p hp
    have hsize := hok.size
    rw [hok.capacity]
    omega
  · obtain ⟨p', hp', b', hb', hnot, heq⟩ := (hi.live _).mp hlive
    have hbb : b' = b := by omega
    subst hbb
    have hpp := hi.stocked.blocks_disjoint hoff hp' hp hb' ((hi.stocked.slab p hp).mem b' hb)
    exact hnot (hpp ▸ hb)

/-! ### One slab -/

/-- A live object of the slab at `p`, whose free blocks are `free`. -/
def LiveIn (offset cnt p : Nat) (free : List Nat) (obj : Nat) : Prop :=
  ∃ b ∈ blocksOf offset cnt p, b ∉ free ∧ obj = b + BLOCK_BYTES

theorem liveIn_cons {obj : Nat} (hb : b ∈ blocksOf offset cnt p) (hbs : b ∉ bs) :
    LiveIn offset cnt p bs obj ↔ obj = b + BLOCK_BYTES ∨ LiveIn offset cnt p (b :: bs) obj := by
  constructor
  · rintro ⟨d, hd, hdnot, rfl⟩
    by_cases hdb : d = b
    · exact .inl (by rw [hdb])
    · exact .inr ⟨d, hd, fun h => (mem_cons.mp h).elim hdb hdnot, rfl⟩
  · rintro (rfl | ⟨d, hd, hdnot, rfl⟩)
    · exact ⟨b, hb, hbs, rfl⟩
    · exact ⟨d, hd, fun h => hdnot (mem_cons_of_mem _ h), rfl⟩

theorem liveBlocks_update {free live : List Nat} (hp : p ∈ h.slabAddrs) :
    LiveBlocks offset cnt h (update chain p free) live ↔
      ∀ obj, obj ∈ live ↔ LiveIn offset cnt p free obj ∨
        ∃ q ∈ h.slabAddrs, q ≠ p ∧ LiveIn offset cnt q (chain q) obj := by
  refine forall_congr' fun obj => iff_congr Iff.rfl ?_
  constructor
  · rintro ⟨q, hq, hlive⟩
    by_cases hqp : q = p
    · subst hqp
      rw [update_self] at hlive
      exact .inl hlive
    · rw [update_of_ne hqp] at hlive
      exact .inr ⟨q, hq, hqp, hlive⟩
  · rintro (hlive | ⟨q, hq, hqp, hlive⟩)
    · refine ⟨p, hp, ?_⟩
      rw [update_self]
      exact hlive
    · refine ⟨q, hq, ?_⟩
      rw [update_of_ne hqp]
      exact hlive

theorem LiveBlocks.split {live : List Nat} (hl : LiveBlocks offset cnt h chain live)
    (hp : p ∈ h.slabAddrs) (obj : Nat) :
    obj ∈ live ↔ LiveIn offset cnt p (chain p) obj ∨
      ∃ q ∈ h.slabAddrs, q ≠ p ∧ LiveIn offset cnt q (chain q) obj := by
  have hl' : LiveBlocks offset cnt h (update chain p (chain p)) live := by
    rw [update_eq_self]
    exact hl
  exact (liveBlocks_update hp).mp hl' obj

theorem Linked.congr (hl : Linked w lists) (hs : SameLinks w.heap h') :
    Linked { w with heap := h' } lists := by
  intro id
  refine (hl id).frame rfl (fun q _ => hs.prev q) (fun q _ => hs.next q)
    (fun q _ => hs.listPtr q) ?_
  intro q hq
  rw [Heap.slabAddrs, hs.regions]
  exact (hl id).known q hq

section

variable (hi : CacheInv p offset cnt s lists chain)
include hi

theorem CacheInv.classes_update (ch : List Nat) :
    ∀ id, ∀ q ∈ lists id, q ≠ p → id.Keeps (update chain p ch q).length cnt := by
  intro id q hq hqp
  rw [update_of_ne hqp]
  exact hi.classes id q hq hqp

theorem CacheInv.take (hoff : BLOCK_BYTES ≤ offset) (hp : p ∈ lists src)
    (hchain : chain p = b :: bs) :
    ∃ h', allocBlock s.world.heap p = some (h', b + BLOCK_BYTES) ∧ b + BLOCK_BYTES ∉ s.live ∧
      CacheInv p offset cnt ⟨{ s.world with heap := h' }, (b + BLOCK_BYTES) :: s.live⟩ lists
        (update chain p bs) := by
  have hpos : 0 < offset := Nat.lt_of_lt_of_le (by decide) hoff
  have hp' := (hi.linked src).known p hp
  have hok := hi.stocked.slab p hp'
  rw [hchain] at hok
  have hb := hok.mem b mem_cons_self
  obtain ⟨hbs, -⟩ := nodup_cons.mp hok.nodup
  obtain ⟨h', hrun, hs', hlinks⟩ := hi.stocked.allocBlock hoff hp' hchain
  have haddrs : h'.slabAddrs = s.world.heap.slabAddrs := by
    rw [Heap.slabAddrs, hlinks.regions, Heap.slabAddrs]
  have hnot : b + BLOCK_BYTES ∉ s.live := by
    intro hlive
    obtain ⟨q, hq, d, hd, hdnot, hdb⟩ := (hi.live _).mp hlive
    have hdb' : d = b := by omega
    subst hdb'
    have hqp := hi.stocked.blocks_disjoint hpos hq hp' hd hb
    rw [hqp, hchain] at hdnot
    exact hdnot mem_cons_self
  refine ⟨h', hrun, hnot, hi.linked.congr hlinks, hs', ?_, hi.classes_update bs, ?_,
    nodup_cons.mpr ⟨hnot, hi.nodup⟩⟩
  · intro q hq
    rw [haddrs] at hq
    exact hi.placed q hq
  · refine (liveBlocks_update (haddrs ▸ hp')).mpr fun obj => ?_
    rw [mem_cons, hi.live.split hp' obj, hchain, haddrs, ← or_assoc, liveIn_cons hb hbs]

theorem CacheInv.give (hoff : BLOCK_BYTES ≤ offset) (hp : p ∈ s.world.heap.slabAddrs)
    (hb : b ∈ blocksOf offset cnt p) (hfree : b ∉ chain p) :
    ∃ h', freeBlock s.world.heap p b = some h' ∧ h'.regions = s.world.heap.regions ∧
      CacheInv p offset cnt ⟨{ s.world with heap := h' }, s.live.erase (b + BLOCK_BYTES)⟩ lists
        (update chain p (b :: chain p)) := by
  have hpos : 0 < offset := Nat.lt_of_lt_of_le (by decide) hoff
  obtain ⟨h', hrun, hs', hlinks⟩ := hi.stocked.freeBlock hoff hp hb hfree
  have haddrs : h'.slabAddrs = s.world.heap.slabAddrs := by
    rw [Heap.slabAddrs, hlinks.regions, Heap.slabAddrs]
  refine ⟨h', hrun, hlinks.regions, hi.linked.congr hlinks, hs', ?_, hi.classes_update _, ?_,
    hi.nodup.erase _⟩
  · intro q hq
    rw [haddrs] at hq
    exact hi.placed q hq
  · refine (liveBlocks_update (haddrs ▸ hp)).mpr fun obj => ?_
    have hhere : LiveIn offset cnt p (b :: chain p) obj → obj ≠ b + BLOCK_BYTES := by
      rintro ⟨d, -, hdnot, rfl⟩ heq
      exact hdnot (mem_cons.mpr (.inl (by omega)))
    have hthere : (∃ q ∈ s.world.heap.slabAddrs, q ≠ p ∧ LiveIn offset cnt q (chain q) obj) →
        obj ≠ b + BLOCK_BYTES := by
      rintro ⟨q, hq, hqp, d, hd, -, rfl⟩ heq
      obtain rfl : d = b := by omega
      exact hqp (hi.stocked.blocks_disjoint hpos hq hp hd hb)
    rw [hi.nodup.mem_erase_iff, hi.live.split hp obj, haddrs, liveIn_cons hb hfree]
    constructor
    · rintro ⟨hne, (h | h) | h⟩
      · exact absurd h hne
      · exact .inl h
      · exact .inr h
    · rintro (h | h)
      · exact ⟨hhere h, .inl (.inr h)⟩
      · exact ⟨hthere h, .inr h⟩

end

theorem mem_moved {q : Nat} {id : ListId} (hl : Linked w lists) (hp : p ∈ lists src) :
    q ∈ moved lists src dest p id ↔ q = p ∧ id = dest ∨ q ≠ p ∧ q ∈ lists id := by
  have hrest : ∀ id, q ∈ update lists src ((lists src).erase p) id ↔ q ≠ p ∧ q ∈ lists id := by
    intro id
    by_cases hid : id = src
    · subst hid
      rw [update_self, (hl id).nodup.mem_erase_iff]
    · rw [update_of_ne hid]
      exact ⟨fun h => ⟨fun hqp => hl.not_mem hid hp (hqp ▸ h), h⟩, fun h => h.2⟩
  unfold moved
  by_cases hid : id = dest
  · subst hid
    simp only [update_self, mem_cons, hrest]
    simp
  · simp only [update_of_ne hid, hrest]
    simp [hid]

theorem CacheInv.move (hi : CacheInv p offset cnt s lists chain) (hp : p ∈ lists src)
    (hkeeps : dest.Keeps (chain p).length cnt) :
    ∃ w', slabReposition s.world (some src) dest p = some w' ∧
      w'.cache.geometry = s.world.cache.geometry ∧
      CacheInv 0 offset cnt ⟨w', s.live⟩ (moved lists src dest p) chain := by
  obtain ⟨w', hrun, hl', hstock, hgeo⟩ := hi.linked.reposition hi.stocked.valid hp dest
  refine ⟨w', hrun, hgeo, hl', hi.stocked.congr hstock, ?_, ?_, ?_, hi.nodup⟩
  · intro q hq
    rw [hstock.slabAddrs] at hq
    obtain ⟨id, hid⟩ := hi.placed q hq
    by_cases hqp : q = p
    · exact ⟨dest, (mem_moved hi.linked hp).mpr (.inl ⟨hqp, rfl⟩)⟩
    · exact ⟨id, (mem_moved hi.linked hp).mpr (.inr ⟨hqp, hid⟩)⟩
  · intro id q hq _
    rcases (mem_moved hi.linked hp).mp hq with ⟨rfl, rfl⟩ | ⟨hqp, hq⟩
    · exact hkeeps
    · exact hi.classes id q hq hqp
  · intro obj
    rw [hi.live obj, hstock.slabAddrs]

theorem CacheInv.slabIsFull (hi : CacheInv ex offset cnt s lists chain)
    (hp : p ∈ s.world.heap.slabAddrs) :
    slabIsFull s.world.heap p = some (decide ((chain p).length = 0)) := by
  have hok := hi.stocked.slab p hp
  have hsize := hok.size
  have hiff : (s.world.heap.slabs p).size ≥ (s.world.heap.slabs p).capacity ↔
      (chain p).length = 0 := by
    rw [hok.capacity]
    omega
  rw [MemCache.slabIsFull, Heap.slab_eq (hi.stocked.slab_mapped hp), Option.map_some,
    decide_eq_decide.mpr hiff]

/-! ### `cache_alloc` -/

/-- The result of `cache_alloc`: an object that was not live, and the invariant. -/
def Served (offset cnt : Nat) (s : State) (result : Option (World × Nat)) : Prop :=
  ∃ w obj, result = some (w, obj) ∧ obj ≠ 0 ∧ obj ∉ s.live ∧
    w.cache.geometry = s.world.cache.geometry ∧
    ∃ lists chain, CacheInv 0 offset cnt ⟨w, obj :: s.live⟩ lists chain

theorem keeps_rest (hlen : (b :: bs).length ≤ cnt) :
    (if decide (bs.length = 0) then ListId.slabsFull else .slabsPartial).Keeps bs.length cnt := by
  rw [length_cons] at hlen
  by_cases h : bs.length = 0
  · simp only [h, decide_true, if_true]
    rfl
  · simp only [h, decide_false]
    exact ⟨by omega, by omega⟩

theorem CacheInv.chain_length_le (hi : CacheInv ex offset cnt s lists chain)
    (hp : p ∈ s.world.heap.slabAddrs) : (chain p).length ≤ cnt := by
  have := (hi.stocked.slab p hp).size
  omega

theorem CacheInv.allocFromFree (hi : CacheInv 0 offset cnt s lists chain)
    (hoff : BLOCK_BYTES ≤ offset) (hcnt : 0 < cnt) (hne : lists .slabsFree ≠ []) :
    Served offset cnt s (allocFromFree s.world) := by
  obtain ⟨p, rest, hlist⟩ := exists_cons_of_ne_nil hne
  have hp : p ∈ lists .slabsFree := by
    rw [hlist]
    exact mem_cons_self
  have hp' := (hi.linked _).known p hp
  have hhead : s.world.cache.slabsFree.head = p := by
    have := (hi.linked .slabsFree).head
    rwa [hlist] at this
  have hfree : (chain p).length = cnt :=
    hi.classes .slabsFree p hp (hi.linked.ne_zero hi.stocked.valid hp)
  obtain ⟨b, bs, hchain⟩ := exists_cons_of_length_pos (hfree ▸ hcnt)
  obtain ⟨h₁, hrun, hnot, hi₁⟩ := (hi.weaken p).take hoff hp hchain
  have hp₁ := (hi₁.linked _).known p hp
  have hfull := hi₁.slabIsFull hp₁
  have hkeeps := keeps_rest (hchain ▸ hi.chain_length_le hp')
  rw [update_self] at hfull
  obtain ⟨w', hmove, hgeo, hi'⟩ := hi₁.move hp (by rw [update_self]; exact hkeeps)
  refine ⟨w', b + BLOCK_BYTES, ?_, by unfold BLOCK_BYTES; omega, hnot, hgeo, _, _, hi'⟩
  simp only at hfull hmove
  simp only [MemCache.allocFromFree, hhead, hrun, hfull, Option.bind_eq_bind, Option.bind_some,
    hmove]

theorem CacheInv.allocFromSlab (hpart : partialSlab s.world malloc = some (w, p))
    (hgeo : w.cache.geometry = s.world.cache.geometry)
    (hi : CacheInv p offset cnt ⟨w, s.live⟩ lists chain) (hoff : BLOCK_BYTES ≤ offset)
    (hp : p ∈ lists .slabsPartial) (hpos : 0 < (chain p).length) :
    Served offset cnt s (allocFromPartial s.world malloc) := by
  have hp' := (hi.linked _).known p hp
  obtain ⟨b, bs, hchain⟩ := exists_cons_of_length_pos hpos
  obtain ⟨h₁, hrun, hnot, hi₁⟩ := hi.take hoff hp hchain
  have hp₁ := (hi₁.linked _).known p hp
  have hfull := hi₁.slabIsFull hp₁
  have hkeeps := keeps_rest (hchain ▸ hi.chain_length_le hp')
  rw [update_self] at hfull
  simp only at hfull hrun
  have h0 : b + BLOCK_BYTES ≠ 0 := by
    unfold BLOCK_BYTES
    omega
  by_cases hbs : bs.length = 0
  · rw [if_pos (by simpa using hbs)] at hkeeps
    obtain ⟨w', hmove, hgeo', hi'⟩ := hi₁.move hp (by rw [update_self]; exact hkeeps)
    refine ⟨w', b + BLOCK_BYTES, ?_, h0, hnot, hgeo'.trans hgeo, _, _, hi'⟩
    simp only [hbs, decide_true] at hfull
    simp only at hmove
    simp only [MemCache.allocFromPartial, hpart, hrun, hfull, Option.bind_eq_bind,
      Option.bind_some, if_true, hmove]
  · rw [if_neg (by simpa using hbs)] at hkeeps
    have hi' := hi₁.arrive hp (by rw [update_self]; exact hkeeps)
    refine ⟨{ w with heap := h₁ }, b + BLOCK_BYTES, ?_, h0, hnot, hgeo, _, _, hi'⟩
    simp only [hbs, decide_false] at hfull
    simp only [MemCache.allocFromPartial, hpart, hrun, hfull, Option.bind_eq_bind, Option.bind_some]
    rfl

theorem FreshRegion.not_mem (hroom : ∀ q ∈ h.regions, SLAB_BYTES ≤ q.bytes)
    (hr : FreshRegion offset cnt h r) : r.base ∉ h.slabAddrs := by
  intro hmem
  obtain ⟨q, hq, hbase⟩ := Heap.mem_slabAddrs.mp hmem
  have h1 := hr.apart q hq
  have h2 := hr.room
  have h3 := hroom q hq
  unfold slabBytes at h2
  unfold SLAB_BYTES at h2 h3
  unfold Region.Apart at h1
  omega

theorem Stocked.header_room (hs : Stocked offset cnt h chain) :
    ∀ r ∈ h.regions, SLAB_BYTES ≤ r.bytes := fun r hr =>
  Nat.le_trans (Nat.le_add_right _ _) (hs.room r hr)

theorem Linked.grow (hl : Linked w lists) (hregions : h'.regions = r :: w.heap.regions)
    (hslabs : ∀ q, q ≠ r.base → h'.slabs q = w.heap.slabs q) (hnew : r.base ∉ w.heap.slabAddrs) :
    Linked { w with heap := h' } lists := by
  have hne : ∀ id, ∀ q ∈ lists id, q ≠ r.base := fun id q hq h =>
    hnew (h ▸ (hl id).known q hq)
  intro id
  refine (hl id).frame rfl (fun q hq => ?_) (fun q hq => ?_) (fun q hq => ?_) fun q hq => ?_
  · rw [prevOf, hslabs q (hne id q hq), prevOf]
  · rw [nextOf, hslabs q (hne id q hq), nextOf]
  · rw [hslabs q (hne id q hq)]
  · rw [Heap.slabAddrs, hregions, map_cons]
    exact mem_cons_of_mem _ ((hl id).known q hq)

theorem CacheInv.newSlab {objectSize order : Nat}
    (hi : CacheInv 0 (objectSize + BLOCK_BYTES) cnt s lists chain) (hcnt : 0 < cnt)
    (hmalloc : malloc (slabRequest order) = some r)
    (hfresh : FreshRegion (objectSize + BLOCK_BYTES) cnt s.world.heap r) :
    ∃ h₁ w lists' chain', createSlab s.world.heap malloc objectSize order cnt = some (h₁, r.base) ∧
      addToList { s.world with heap := h₁ } .slabsPartial r.base = some w ∧
      w.cache.geometry = s.world.cache.geometry ∧
      CacheInv r.base (objectSize + BLOCK_BYTES) cnt ⟨w, s.live⟩ lists' chain' ∧
      r.base ∈ lists' .slabsPartial ∧ (chain' r.base).length = cnt := by
  have hnew := hfresh.not_mem hi.stocked.header_room
  obtain ⟨h₁, hcreate, hs₁, hregions, hslabs, hnext⟩ := hi.stocked.createSlab hcnt hmalloc hfresh
  have haddrs : h₁.slabAddrs = r.base :: s.world.heap.slabAddrs := by
    rw [Heap.slabAddrs, hregions, map_cons, Heap.slabAddrs]
  have hl₁ := hi.linked.grow hregions hslabs hnew
  obtain ⟨w, hadd, hl, hstock, hgeo⟩ := hl₁.add hs₁.valid (haddrs ▸ mem_cons_self)
    (fun id h => hnew ((hi.linked id).known _ h)) hnext .slabsPartial
  have haddrs' : w.heap.slabAddrs = r.base :: s.world.heap.slabAddrs :=
    hstock.slabAddrs.trans haddrs
  have hmem : ∀ id, ∀ q, q ≠ r.base → (q ∈ update lists .slabsPartial
      (r.base :: lists .slabsPartial) id ↔ q ∈ lists id) := by
    intro id q hq
    by_cases hid : id = .slabsPartial
    · subst hid
      rw [update_self, mem_cons]
      exact ⟨fun h => h.resolve_left hq, .inr⟩
    · rw [update_of_ne hid]
  refine ⟨h₁, w, _, _, hcreate, hadd, hgeo, ⟨hl, hs₁.congr hstock, ?_, ?_, ?_, hi.nodup⟩, ?_, ?_⟩
  · intro q hq
    by_cases hqr : q = r.base
    · exact ⟨.slabsPartial, by simp [hqr]⟩
    · rw [haddrs'] at hq
      obtain ⟨id, hid⟩ := hi.placed q ((mem_cons.mp hq).resolve_left hqr)
      exact ⟨id, (hmem id q hqr).mpr hid⟩
  · intro id q hq hqr
    rw [update_of_ne hqr]
    have hq' := (hmem id q hqr).mp hq
    exact hi.classes id q hq' (hi.linked.ne_zero hi.stocked.valid hq')
  · refine (liveBlocks_update (haddrs' ▸ mem_cons_self)).mpr fun obj => ?_
    have hnone : ¬ LiveIn (objectSize + BLOCK_BYTES) cnt r.base
        (blocksOf (objectSize + BLOCK_BYTES) cnt r.base) obj := by
      rintro ⟨d, hd, hdnot, -⟩
      exact hdnot hd
    rw [hi.live obj, haddrs', or_iff_right hnone]
    constructor
    · rintro ⟨q, hq, hlive⟩
      exact ⟨q, mem_cons_of_mem _ hq, fun h => hnew (h ▸ hq), hlive⟩
    · rintro ⟨q, hq, hqr, hlive⟩
      exact ⟨q, (mem_cons.mp hq).resolve_left hqr, hlive⟩
  · simp
  · simp

end Invariant

/-! ### Whole runs -/

def Sound (objectSize : Nat) (s : State) : Prop :=
  s.world.cache.geometry = (cacheSetup objectSize).geometry ∧
    ∃ lists chain, CacheInv 0 (objectSize + BLOCK_BYTES) (cacheSetup objectSize).slabObjects s
      lists chain

variable {offset cnt p b : Nat} {lists : ListId → List Nat} {chain : Nat → List Nat}

section Runs

variable {objectSize : Nat} {s s' : State}

theorem Sound.objectSize_eq (hs : Sound objectSize s) : s.world.cache.objectSize = objectSize :=
  congrArg Prod.fst hs.1

theorem Sound.slabObjects_eq (hs : Sound objectSize s) :
    s.world.cache.slabObjects = (cacheSetup objectSize).slabObjects :=
  congrArg (fun g => g.2.2) hs.1

theorem blockBytes_le (objectSize : Nat) : BLOCK_BYTES ≤ objectSize + BLOCK_BYTES :=
  Nat.le_add_left _ _

theorem start_sound (h : Heap) (objectSize : Nat) : Sound objectSize (start h objectSize) := by
  refine ⟨rfl, fun _ => [], fun _ => [], fun id => ?_, ⟨?_, ?_, ?_, ?_⟩, ?_, ?_, ?_, ?_⟩
  · refine ⟨?_, ?_, trivial, nodup_nil, by simp, by simp⟩ <;> cases id <;> rfl
  all_goals simp [start, Heap.slabAddrs, LiveBlocks]

theorem Sound.cacheAlloc (hs : Sound objectSize s) (hcnt : 0 < (cacheSetup objectSize).slabObjects)
    (hm : MallocOk s (.alloc malloc)) :
    Served (objectSize + BLOCK_BYTES) (cacheSetup objectSize).slabObjects s
      (cacheAlloc s.world malloc) := by
  obtain ⟨lists, chain, hi⟩ := hs.2
  have hoff := blockBytes_le objectSize
  have hfree := (hi.linked .slabsFree).size
  have hpart := (hi.linked .slabsPartial).size
  by_cases hne : lists .slabsFree = []
  · have hsize : s.world.cache.slabsFree.size = 0 := by
      rw [hne] at hfree
      exact hfree
    rw [MemCache.cacheAlloc, if_neg (by omega)]
    cases hlist : lists .slabsPartial with
    | nil =>
      have hsize' : s.world.cache.slabsPartial.size = 0 := by
        rw [hlist] at hpart
        exact hpart
      obtain ⟨r, hmalloc, hfresh⟩ := hm hsize hsize'
      rw [hs.objectSize_eq, hs.slabObjects_eq] at hfresh
      obtain ⟨h₁, w, lists', chain', hcreate, hadd, hgeo, hi', hmem, hlen⟩ :=
        hi.newSlab hcnt hmalloc hfresh
      refine CacheInv.allocFromSlab ?_ hgeo hi' hoff hmem (hlen ▸ hcnt)
      simp only [partialSlab, if_pos hsize', hs.objectSize_eq, hs.slabObjects_eq, hcreate,
        Option.bind_eq_bind, Option.bind_some, hadd]
    | cons p rest =>
      have hp : p ∈ lists .slabsPartial := by
        rw [hlist]
        exact mem_cons_self
      have hkeeps := hi.classes .slabsPartial p hp (hi.linked.ne_zero hi.stocked.valid hp)
      have hhead := (hi.linked .slabsPartial).head
      rw [hlist] at hhead hpart
      refine CacheInv.allocFromSlab ?_ rfl (hi.weaken p) hoff hp hkeeps.1
      rw [partialSlab, if_neg]
      · exact congrArg (fun q => some (s.world, q)) hhead
      · exact fun h => absurd (hpart.symm.trans h) (by simp)
  · rw [MemCache.cacheAlloc, if_pos]
    · exact hi.allocFromFree hoff hcnt hne
    · have : 0 < (lists .slabsFree).length := length_pos_iff.mpr hne
      exact hfree ▸ this

theorem CacheInv.cacheFree_eq {id : ListId} (hi : CacheInv 0 offset cnt s lists chain)
    (hoff : BLOCK_BYTES ≤ offset) (hid : p ∈ lists id) (hb : b ∈ blocksOf offset cnt p)
    (hrun : freeBlock s.world.heap p b = some h') (hregions : h'.regions = s.world.heap.regions) :
    cacheFree s.world (b + BLOCK_BYTES) = slabReposition { s.world with heap := h' } (some id)
      (if (h'.slabs p).size = 0 then .slabsFree else .slabsPartial) p := by
  have hp := (hi.linked id).known p hid
  have howner := (hi.stocked.slab p hp).owner b hb
  have hnamed := (hi.linked id).named p hid
  have hslab := hi.stocked.slab_mapped hp
  have hslab' : h'.slab p = some (h'.slabs p) := Heap.slab_eq (by rwa [hregions])
  simp only [MemCache.cacheFree, Nat.add_sub_cancel,
    Heap.block_eq (hi.stocked.block_mapped hoff hp hb), howner, Heap.slab_eq hslab, hnamed, hrun,
    hslab', Option.bind_eq_bind, Option.bind_some]

theorem Sound.cacheFree {obj : Nat} (hs : Sound objectSize s) (hobj : obj ∈ s.live) :
    ∃ w, cacheFree s.world obj = some w ∧ Sound objectSize ⟨w, s.live.erase obj⟩ := by
  obtain ⟨lists, chain, hi⟩ := hs.2
  have hoff := blockBytes_le objectSize
  obtain ⟨p, hp, b, hb, hfree, rfl⟩ := (hi.live obj).mp hobj
  obtain ⟨id, hid⟩ := hi.placed p hp
  obtain ⟨h₁, hrun, hregions, hi₁⟩ := (hi.weaken p).give hoff hp hb hfree
  have hp₁ := (hi₁.linked id).known p hid
  have hok₁ := hi₁.stocked.slab p hp₁
  have hsize := hok₁.size
  rw [update_self, length_cons] at hsize
  have hkeeps : (if (h₁.slabs p).size = 0 then ListId.slabsFree else .slabsPartial).Keeps
      (update chain p (b :: chain p) p).length (cacheSetup objectSize).slabObjects := by
    rw [update_self, length_cons]
    split
    · simp only [ListId.Keeps]
      simp only at hsize
      omega
    · refine ⟨by omega, ?_⟩
      simp only at hsize
      omega
  obtain ⟨w, hmove, hgeo, hi'⟩ := hi₁.move hid hkeeps
  exact ⟨w, (hi.cacheFree_eq hoff hid hb hrun hregions).trans hmove, hgeo.trans hs.1, _, _, hi'⟩

theorem CacheInv.free_all (hi : CacheInv 0 offset cnt s lists chain) (hp : p ∈ lists .slabsFree)
    (hb : b ∈ blocksOf offset cnt p) : b ∈ chain p := by
  have hok := hi.stocked.slab p ((hi.linked _).known p hp)
  have hlen : (chain p).length = cnt :=
    hi.classes .slabsFree p hp (hi.linked.ne_zero hi.stocked.valid hp)
  have hsub := subperm_of_subset hok.nodup hok.mem
  have hperm := hsub.perm_of_length_le (by simp [hlen])
  exact hperm.mem_iff.mpr hb

theorem CacheInv.release (hi : CacheInv 0 offset cnt s lists chain)
    (hl : Linked w (update lists .slabsFree [])) (hs : Stocked offset cnt w.heap chain)
    (hregions : w.heap.regions =
      s.world.heap.regions.filter fun r => r.base ∉ lists .slabsFree) :
    CacheInv 0 offset cnt ⟨w, s.live⟩ (update lists .slabsFree []) chain := by
  have haddrs : ∀ p, p ∈ w.heap.slabAddrs ↔ p ∈ s.world.heap.slabAddrs ∧ p ∉ lists .slabsFree := by
    intro p
    simp only [Heap.mem_slabAddrs, hregions, mem_filter, decide_eq_true_eq]
    constructor
    · rintro ⟨r, ⟨hr, hnot⟩, rfl⟩
      exact ⟨⟨r, hr, rfl⟩, hnot⟩
    · rintro ⟨⟨r, hr, rfl⟩, hnot⟩
      exact ⟨r, ⟨hr, hnot⟩, rfl⟩
  refine ⟨hl, hs, fun p hp => ?_, fun id p hp h0 => ?_, fun obj => ?_, hi.nodup⟩
  · obtain ⟨hp, hnot⟩ := (haddrs p).mp hp
    obtain ⟨id, hid⟩ := hi.placed p hp
    refine ⟨id, ?_⟩
    rw [update_of_ne]
    · exact hid
    · rintro rfl
      exact hnot hid
  · by_cases hid : id = .slabsFree
    · subst hid
      rw [update_self] at hp
      cases hp
    · rw [update_of_ne hid] at hp
      exact hi.classes id p hp h0
  · rw [hi.live obj]
    constructor
    · rintro ⟨p, hp, b, hb, hnot, rfl⟩
      exact ⟨p, (haddrs p).mpr ⟨hp, fun hf => hnot (hi.free_all hf hb)⟩, b, hb, hnot, rfl⟩
    · rintro ⟨p, hp, b, hb, hnot, rfl⟩
      exact ⟨p, ((haddrs p).mp hp).1, b, hb, hnot, rfl⟩

theorem Sound.cacheShrink (hs : Sound objectSize s) :
    ∃ w, cacheShrink s.world = some w ∧ Sound objectSize ⟨w, s.live⟩ ∧
      ∀ r ∈ s.world.heap.regions, r ∉ w.heap.regions → ∀ obj ∈ s.live,
        ¬ (r.base ≤ obj - BLOCK_BYTES ∧ obj - BLOCK_BYTES < r.base + r.bytes) := by
  obtain ⟨lists, chain, hi⟩ := hs.2
  obtain ⟨w, hrun, hl, hst, hgeo, hregions⟩ := hi.linked.slabListFree hi.stocked .slabsFree
  refine ⟨w, hrun, ⟨hgeo.trans hs.1, _, _, hi.release hl hst hregions⟩, ?_⟩
  rintro r hr hnot obj hobj ⟨hlo, hhi⟩
  obtain ⟨p, hp, b, hb, hfree, rfl⟩ := (hi.live obj).mp hobj
  rw [Nat.add_sub_cancel] at hlo hhi
  have hrfree : r.base ∈ lists .slabsFree := by
    by_contra h
    exact hnot (hregions ▸ mem_filter.mpr ⟨hr, by simpa using h⟩)
  -- the block lies in the memory of its own slab only
  obtain ⟨q, hq, rfl⟩ := Heap.mem_slabAddrs.mp hp
  have hqr : q = r := by
    by_contra hne
    have hapart := hi.stocked.apart.forall hq hr hne
    have hroom := hi.stocked.room q hq
    have hrange := blocksOf_range hb
    have hblock : 0 < BLOCK_BYTES := by decide
    unfold Region.Apart at hapart
    omega
  rw [hqr] at hfree hb
  exact hfree (hi.free_all hrfree hb)

theorem Sound.cacheRelease (hs : Sound objectSize s) :
    ∃ w, cacheRelease s.world = some w ∧ w.heap.regions = [] := by
  obtain ⟨lists, chain, hi⟩ := hs.2
  obtain ⟨w₁, hrun₁, hl₁, hst₁, -, hregions₁⟩ := hi.linked.slabListFree hi.stocked .slabsFree
  obtain ⟨w₂, hrun₂, hl₂, hst₂, -, hregions₂⟩ := hl₁.slabListFree hst₁ .slabsPartial
  obtain ⟨w₃, hrun₃, -, -, -, hregions₃⟩ := hl₂.slabListFree hst₂ .slabsFull
  refine ⟨w₃, ?_, ?_⟩
  · rw [MemCache.cacheRelease, hrun₁]
    simp only [Option.bind_eq_bind, Option.bind_some, hrun₂, hrun₃]
  -- each slab was on one of the three lists
  · rw [hregions₃, hregions₂, hregions₁, filter_filter, filter_filter, filter_eq_nil_iff]
    intro r hr
    obtain ⟨id, hid⟩ := hi.placed r.base (Heap.mem_slabAddrs.mpr ⟨r, hr, rfl⟩)
    cases id <;> simp [hid]

theorem Sound.next {op : Op} (hs : Sound objectSize s)
    (hcnt : 0 < (cacheSetup objectSize).slabObjects) (hm : MallocOk s op) :
    Honest s op ∧ ∀ s', step s op = some s' → Sound objectSize s' := by
  cases op with
  | alloc malloc =>
    obtain ⟨w, obj, hrun, h0, hnot, hgeo, hi⟩ := hs.cacheAlloc hcnt hm
    refine ⟨⟨w, obj, hrun, h0, hnot⟩, fun s' hs' => ?_⟩
    rw [step, hrun, Option.map_some, Option.some.injEq] at hs'
    subst hs'
    simp only [if_neg h0]
    exact ⟨hgeo.trans hs.1, hi⟩
  | free obj =>
    refine ⟨fun hobj => ?_, fun s' hs' => ?_⟩
    · obtain ⟨w, hrun, -⟩ := hs.cacheFree hobj
      exact ⟨w, hrun⟩
    · rw [step] at hs'
      split at hs'
      · next hobj =>
        obtain ⟨w, hrun, hsound⟩ := hs.cacheFree hobj
        rw [hrun, Option.map_some, Option.some.injEq] at hs'
        exact hs' ▸ hsound
      · cases hs'
  | shrink =>
    obtain ⟨w, hrun, hsound, hrel⟩ := hs.cacheShrink
    refine ⟨⟨w, hrun, hrel⟩, fun s' hs' => ?_⟩
    rw [step, hrun, Option.map_some, Option.some.injEq] at hs'
    exact hs' ▸ hsound

end Runs

/-- **The slab cache over whole runs.** After `cache_setup` with at least one object in a
slab, as long as `malloc` returns fresh and sufficient memory, the cache is
consistent in every state reached, and every call is honest: it returns, it hands
out no object that is live and gives back no memory that is in use. -/
theorem cache_consistent (h : Heap) (objectSize : Nat) (ops : List Op)
    (hobjects : 1 ≤ (cacheSetup objectSize).slabObjects)
    (hmalloc : Along step MallocOk (start h objectSize) ops) :
    Always step (fun s => ∃ lists chain, Consistent s lists chain) (start h objectSize) ops ∧
      Along step Honest (start h objectSize) ops := by
  have hpos : 0 < objectSize + BLOCK_BYTES := Nat.add_pos_right _ (by decide)
  have h0 := start_sound h objectSize
  have hstep : ∀ s op s', Sound objectSize s → MallocOk s op → step s op = some s' →
      Sound objectSize s' := fun s op s' hs hm hs' => (hs.next hobjects hm).2 s' hs'
  constructor
  · refine always_of_along ?_ (fun s op s' _ => hstep s op s') h0 hmalloc
    rintro s ⟨-, lists, chain, hi⟩
    exact ⟨lists, chain, hi.consistent hpos⟩
  · exact hmalloc.imp (fun s op hs hm => (hs.next hobjects hm).1) hstep h0

/-- Objects of 1000 bytes: one is taken from a new slab and given back, and the slab is
released. -/
def takeAndShrink : List Op := [.alloc fun _ => some ⟨65536, 16384⟩, .free 65624, .shrink]

theorem cache_consistent_shrink :
    (run step (start blankHeap 1000) takeAndShrink).isSome ∧
      Always step (fun s => ∃ lists chain, Consistent s lists chain) (start blankHeap 1000)
        takeAndShrink ∧
      Along step Honest (start blankHeap 1000) takeAndShrink := by
  have hfresh : FreshRegion (1000 + BLOCK_BYTES) (cacheSetup 1000).slabObjects
      { blankHeap with regions := [], stdout := [] } ⟨65536, 16384⟩ := by
    refine ⟨by decide, by decide, by decide, ?_⟩
    intro q hq
    cases hq
  refine ⟨by decide +kernel, cache_consistent blankHeap 1000 takeAndShrink (by decide) ?_⟩
  exact ⟨fun _ _ => ⟨_, rfl, hfresh⟩,
    fun _ _ => ⟨trivial, fun _ _ => ⟨trivial, fun _ _ => trivial⟩⟩⟩

/-- **No memory is lost.** At any point of such a run, `cache_release` returns and leaves no
memory of the cache behind. -/
theorem cacheRelease_empties (h : Heap) (objectSize : Nat) (ops : List Op)
    (hobjects : 1 ≤ (cacheSetup objectSize).slabObjects)
    (hmalloc : Along step MallocOk (start h objectSize) ops) :
    Always step (fun s => ∃ w, cacheRelease s.world = some w ∧ w.heap.regions = [])
      (start h objectSize) ops :=
  always_of_along (fun _ hs => hs.cacheRelease)
    (fun _ _ s' _ hs hm hs' => (hs.next hobjects hm).2 s' hs') (start_sound h objectSize) hmalloc

theorem cacheRelease_empties_shrink :
    Always step (fun s => ∃ w, cacheRelease s.world = some w ∧ w.heap.regions = [])
      (start blankHeap 1000) takeAndShrink :=
  cacheRelease_empties blankHeap 1000 takeAndShrink (by decide)
    ⟨fun _ _ => ⟨_, rfl, by decide, by decide, by decide, nofun⟩,
      fun _ _ => ⟨trivial, fun _ _ => ⟨trivial, fun _ _ => trivial⟩⟩⟩

end LinuxWorkouts.MemCache
