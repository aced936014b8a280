/-
The three slab lists.

`Linked w lists` ties the memory to the addresses on each list, head first: the list
is linked both ways, its `size` is its length and every slab on it points to it.
As a slab points to one list only, an edit of one list leaves the others alone.

* `Linked.delete` takes a slab off its list, `Linked.add` puts one in front;
* `Linked.reposition` is both;
* `Linked.slabListFree` empties a list and gives the memory of its slabs back.

None of them touches blocks or counters of a slab (`SameStock`).
-/

import LinuxWorkouts.MemCache.Blocks

namespace LinuxWorkouts.MemCache

open DoublyLinked List

def prevOf (h : Heap) (p : Nat) : Nat := (h.slabs p).prevSlab

def nextOf (h : Heap) (p : Nat) : Nat := (h.slabs p).nextSlab

/-- The list `id` of the cache holds the slabs `xs`. -/
structure ListOk (w : World) (id : ListId) (xs : List Nat) : Prop where
  head : (w.cache.list id).head = xs.headD 0
  size : (w.cache.list id).size = xs.length
  linked : Seg (prevOf w.heap) (nextOf w.heap) 0 xs 0
  nodup : xs.Nodup
  named : ∀ p ∈ xs, (w.heap.slabs p).listPtr = some id
  known : ∀ p ∈ xs, p ∈ w.heap.slabAddrs

def Linked (w : World) (lists : ListId → List Nat) : Prop := ∀ id, ListOk w id (lists id)

/-- Memory, blocks and counters of two memories are the same. -/
structure SameStock (h h' : Heap) : Prop where
  regions : h'.regions = h.regions
  blocks : h'.blocks = h.blocks
  capacity : ∀ p, (h'.slabs p).capacity = (h.slabs p).capacity
  size : ∀ p, (h'.slabs p).size = (h.slabs p).size
  firstBlock : ∀ p, (h'.slabs p).firstBlock = (h.slabs p).firstBlock

def Cache.geometry (c : Cache) : Nat × Nat × Nat := (c.objectSize, c.slabOrder, c.slabObjects)

def Heap.Valid (h : Heap) : Prop :=
  ∀ p ∈ h.slabAddrs, p ≠ 0 ∧ mapped h.regions p SLAB_BYTES

section Frames

variable {offset cnt : Nat} {h h' h'' : Heap} {chain : Nat → List Nat}

theorem SameStock.refl (h : Heap) : SameStock h h :=
  ⟨rfl, rfl, fun _ => rfl, fun _ => rfl, fun _ => rfl⟩

theorem SameStock.trans (h₁ : SameStock h h') (h₂ : SameStock h' h'') : SameStock h h'' where
  regions := h₂.regions.trans h₁.regions
  blocks := h₂.blocks.trans h₁.blocks
  capacity p := (h₂.capacity p).trans (h₁.capacity p)
  size p := (h₂.size p).trans (h₁.size p)
  firstBlock p := (h₂.firstBlock p).trans (h₁.firstBlock p)

theorem SameStock.slabAddrs (hs : SameStock h h') : h'.slabAddrs = h.slabAddrs := by
  rw [Heap.slabAddrs, hs.regions, Heap.slabAddrs]

theorem Heap.Valid.congr (hv : h.Valid) (hr : h'.regions = h.regions) : h'.Valid := by
  unfold Heap.Valid Heap.slabAddrs
  rw [hr]
  exact hv

theorem Stocked.valid (hs : Stocked offset cnt h chain) : h.Valid := by
  intro p hp
  refine ⟨?_, hs.slab_mapped hp⟩
  obtain ⟨r, hr, rfl⟩ := Heap.mem_slabAddrs.mp hp
  exact Nat.ne_of_gt (hs.base_pos r hr)

theorem Stocked.congr (hs : Stocked offset cnt h chain) (hh : SameStock h h') :
    Stocked offset cnt h' chain := by
  refine ⟨hh.regions ▸ hs.base_pos, hh.regions ▸ hs.room, hh.regions ▸ hs.apart, fun p hp => ?_⟩
  rw [hh.slabAddrs] at hp
  exact (hs.slab p hp).frame (hh.capacity p) (hh.size p) (hh.firstBlock p)
    fun b _ => by rw [hh.blocks]

end Frames

/-! ### Lists and memory updates -/

section Updates

variable {w w' : World} {lists : ListId → List Nat} {id id' : ListId} {p q : Nat}

@[simp] theorem Cache.list_setList (c : Cache) (id : ListId) (l : SlabList) :
    (c.setList id l).list id = l := by
  cases id <;> rfl

theorem Cache.list_setList_of_ne (c : Cache) (l : SlabList) (h : id' ≠ id) :
    (c.setList id l).list id' = c.list id' := by
  cases id <;> cases id' <;> first | rfl | exact absurd rfl h

@[simp] theorem Cache.geometry_setList (c : Cache) (id : ListId) (l : SlabList) :
    (c.setList id l).geometry = c.geometry := by
  cases id <;> rfl

def World.mapSlab (w : World) (p : Nat) (f : Slab → Slab) : World :=
  { w with
    heap := { w.heap with slabs := Function.update w.heap.slabs p (f (w.heap.slabs p)) } }

theorem World.updateSlab_eq (hm : mapped w.heap.regions p SLAB_BYTES) (f : Slab → Slab) :
    w.updateSlab p f = some (w.mapSlab p f) := by
  rw [World.updateSlab, Heap.updateSlab_eq hm]
  rfl

@[simp] theorem World.mapSlab_cache (w : World) (p : Nat) (f : Slab → Slab) :
    (w.mapSlab p f).cache = w.cache := rfl

@[simp] theorem World.setList_heap (w : World) (id : ListId) (l : SlabList) :
    (w.setList id l).heap = w.heap := rfl

@[simp] theorem World.setList_cache (w : World) (id : ListId) (l : SlabList) :
    (w.setList id l).cache = w.cache.setList id l := rfl

@[simp] theorem World.mapSlab_slabs_self (w : World) (p : Nat) (f : Slab → Slab) :
    (w.mapSlab p f).heap.slabs p = f (w.heap.slabs p) := Function.update_self ..

theorem World.mapSlab_slabs_of_ne (w : World) (f : Slab → Slab) (h : q ≠ p) :
    (w.mapSlab p f).heap.slabs q = w.heap.slabs q := Function.update_of_ne h ..

theorem World.mapSlab_slabs (w : World) (p : Nat) (f : Slab → Slab) (q : Nat) :
    (w.mapSlab p f).heap.slabs q = if q = p then f (w.heap.slabs p) else w.heap.slabs q :=
  Function.update_apply ..

theorem sameStock_mapSlab (w : World) (p : Nat) (f : Slab → Slab)
    (hcap : ∀ s, (f s).capacity = s.capacity) (hsize : ∀ s, (f s).size = s.size)
    (hfirst : ∀ s, (f s).firstBlock = s.firstBlock) : SameStock w.heap (w.mapSlab p f).heap := by
  refine ⟨rfl, rfl, fun q => ?_, fun q => ?_, fun q => ?_⟩ <;> by_cases hq : q = p
  · rw [hq, World.mapSlab_slabs_self, hcap]
  · rw [World.mapSlab_slabs_of_ne w f hq]
  · rw [hq, World.mapSlab_slabs_self, hsize]
  · rw [World.mapSlab_slabs_of_ne w f hq]
  · rw [hq, World.mapSlab_slabs_self, hfirst]
  · rw [World.mapSlab_slabs_of_ne w f hq]

theorem ListOk.frame {xs : List Nat} (hok : ListOk w id xs)
    (hcache : w'.cache.list id = w.cache.list id)
    (hprev : ∀ q ∈ xs, prevOf w'.heap q = prevOf w.heap q)
    (hnext : ∀ q ∈ xs, nextOf w'.heap q = nextOf w.heap q)
    (hptr : ∀ q ∈ xs, (w'.heap.slabs q).listPtr = (w.heap.slabs q).listPtr)
    (hknown : ∀ q ∈ xs, q ∈ w'.heap.slabAddrs) : ListOk w' id xs where
  head := by rw [hcache, hok.head]
  size := by rw [hcache, hok.size]
  linked := hok.linked.congr hprev hnext
  nodup := hok.nodup
  named q hq := (hptr q hq).trans (hok.named q hq)
  known := hknown

theorem Linked.update {xs : List Nat} (hnew : ListOk w' id xs)
    (hother : ∀ id', id' ≠ id → ListOk w' id' (lists id')) :
    Linked w' (Function.update lists id xs) := by
  intro id'
  by_cases hid : id' = id
  · subst hid
    rw [Function.update_self]
    exact hnew
  · rw [Function.update_of_ne hid]
    exact hother id' hid

end Updates

/-! ### Taking a slab off its list -/

/-- The slabs `x` and `y` on both sides of `p`, `0` for none, are linked to each
other. -/
structure Unlinked (w w' : World) (p x y : Nat) : Prop where
  stock : SameStock w.heap w'.heap
  listPtr : ∀ q, (w'.heap.slabs q).listPtr = (w.heap.slabs q).listPtr
  prev : ∀ q, q ≠ 0 → q ≠ p → prevOf w'.heap q = if q = x then y else prevOf w.heap q
  next : ∀ q, q ≠ 0 → q ≠ p → nextOf w'.heap q = if q = y then x else nextOf w.heap q

section Delete

variable {w w' : World} {lists : ListId → List Nat} {id : ListId} {p x y : Nat}

theorem setNext_spec (w : World) (x y : Nat) (hy : y ≠ 0 → mapped w.heap.regions y SLAB_BYTES) :
    ∃ w', w.setNext y x = some w' ∧ w'.cache = w.cache ∧ SameStock w.heap w'.heap ∧
      (∀ q, (w'.heap.slabs q).listPtr = (w.heap.slabs q).listPtr) ∧
      (∀ q, prevOf w'.heap q = prevOf w.heap q) ∧
      (∀ q, q ≠ 0 → nextOf w'.heap q = if q = y then x else nextOf w.heap q) := by
  by_cases h0 : y = 0
  · refine ⟨w, by simp [World.setNext, h0], rfl, .refl _, fun _ => rfl, fun _ => rfl, ?_⟩
    intro q hq
    rw [h0, if_neg hq]
  · refine ⟨_, (if_pos h0).trans (World.updateSlab_eq (hy h0) _), rfl,
      sameStock_mapSlab w y _ (fun _ => rfl) (fun _ => rfl) (fun _ => rfl), ?_, ?_, ?_⟩
    all_goals
      intro q
      by_cases hq : q = y
      · subst hq
        simp [prevOf, nextOf]
      · simp [prevOf, nextOf, World.mapSlab_slabs_of_ne w _ hq, hq]

theorem setPrev_spec (w : World) (x y : Nat) (hx : x ≠ 0 → mapped w.heap.regions x SLAB_BYTES) :
    ∃ w', w.setPrev x y = some w' ∧ w'.cache = w.cache ∧ SameStock w.heap w'.heap ∧
      (∀ q, (w'.heap.slabs q).listPtr = (w.heap.slabs q).listPtr) ∧
      (∀ q, nextOf w'.heap q = nextOf w.heap q) ∧
      (∀ q, q ≠ 0 → prevOf w'.heap q = if q = x then y else prevOf w.heap q) := by
  by_cases h0 : x = 0
  · refine ⟨w, by simp [World.setPrev, h0], rfl, .refl _, fun _ => rfl, fun _ => rfl, ?_⟩
    intro q hq
    rw [h0, if_neg hq]
  · refine ⟨_, (if_pos h0).trans (World.updateSlab_eq (hx h0) _), rfl,
      sameStock_mapSlab w x _ (fun _ => rfl) (fun _ => rfl) (fun _ => rfl), ?_, ?_, ?_⟩
    all_goals
      intro q
      by_cases hq : q = x
      · subst hq
        simp [prevOf, nextOf]
      · simp [prevOf, nextOf, World.mapSlab_slabs_of_ne w _ hq, hq]

theorem deleteHead_unlinked (hp : mapped w.heap.regions p SLAB_BYTES)
    (hhead : (w.cache.list id).head = p) (hy : prevOf w.heap p = y)
    (hmap : y ≠ 0 → mapped w.heap.regions y SLAB_BYTES) :
    ∃ w', deleteHead w id = some w' ∧ Unlinked w w' p 0 y ∧
      w'.cache = w.cache.setList id { w.cache.list id with head := y } := by
  obtain ⟨w', hrun, hcache, hstock, hptr, hprev, hnext⟩ :=
    setNext_spec (w.setList id { w.cache.list id with head := y }) 0 y hmap
  refine ⟨w', ?_, ⟨hstock, hptr, fun q hq _ => ?_, fun q hq _ => hnext q hq⟩, hcache⟩
  · rw [← hrun, deleteHead, hhead, Heap.slab_eq hp]
    simp only [Option.bind_eq_bind, Option.bind_some]
    rw [show (w.heap.slabs p).prevSlab = y from hy]
  · rw [if_neg hq]
    exact hprev q

theorem unlinkSlab_unlinked (hp : mapped w.heap.regions p SLAB_BYTES) (hx : nextOf w.heap p = x)
    (hy : prevOf w.heap p = y) (hmapx : x ≠ 0 → mapped w.heap.regions x SLAB_BYTES)
    (hmapy : y ≠ 0 → mapped w.heap.regions y SLAB_BYTES) :
    ∃ w', unlinkSlab w p = some w' ∧ Unlinked w w' p x y ∧ w'.cache = w.cache := by
  obtain ⟨w₁, hrun₁, hcache₁, hstock₁, hptr₁, hprev₁, hnext₁⟩ := setNext_spec w x y hmapy
  obtain ⟨w', hrun, hcache, hstock, hptr, hnext, hprev⟩ :=
    setPrev_spec w₁ x y (hstock₁.regions ▸ hmapx)
  refine ⟨w', ?_, ⟨hstock₁.trans hstock, fun q => (hptr q).trans (hptr₁ q), ?_, ?_⟩,
    hcache.trans hcache₁⟩
  · rw [unlinkSlab, Heap.slab_eq hp]
    simp only [Option.bind_eq_bind, Option.bind_some]
    rw [show (w.heap.slabs p).prevSlab = y from hy, show (w.heap.slabs p).nextSlab = x from hx,
      hrun₁, Option.bind_some, hrun]
  · intro q hq _
    rw [hprev q hq, hprev₁ q]
  · intro q hq _
    rw [hnext q, hnext₁ q hq]

theorem ne_getLastD {q : Nat} {xs : List Nat} (h0 : q ≠ 0) (hq : q ∉ xs) : q ≠ xs.getLastD 0 := by
  cases xs using reverseRecOn with
  | nil => exact h0
  | append_singleton xs x =>
    rw [getLastD_concat]
    exact fun h => hq (h ▸ by simp)

theorem ne_headD {q : Nat} {xs : List Nat} (h0 : q ≠ 0) (hq : q ∉ xs) : q ≠ xs.headD 0 := by
  cases xs with
  | nil => exact h0
  | cons x xs => exact fun h => hq (h ▸ by simp)

theorem Linked.ne_zero (hl : Linked w lists) (hv : w.heap.Valid) (hp : p ∈ lists id) : p ≠ 0 :=
  (hv p ((hl id).known p hp)).1

theorem Linked.not_mem (hl : Linked w lists) {id' : ListId} (hne : id' ≠ id) (hp : p ∈ lists id) :
    p ∉ lists id' := fun hp' =>
  hne (Option.some.inj (((hl id').named p hp').symm.trans ((hl id).named p hp)))

variable {xs ys : List Nat}

theorem Linked.detach (hl : Linked w lists) (hv : w.heap.Valid) (hlist : lists id = xs ++ p :: ys) :
    ∃ w', detachSlab w id p = some w' ∧ Unlinked w w' p (xs.getLastD 0) (ys.headD 0) ∧
      w'.cache = w.cache.setList id { w.cache.list id with head := (xs ++ ys).headD 0 } := by
  have hseg := (hl id).linked
  have hhead := (hl id).head
  have hsize := (hl id).size
  have hnodup := (hl id).nodup
  have hvalid : ∀ q ∈ lists id, mapped w.heap.regions q SLAB_BYTES :=
    fun q hq => (hv q ((hl id).known q hq)).2
  rw [hlist] at hseg hhead hsize hnodup hvalid
  obtain ⟨-, hnext, hprev, -⟩ := seg_append.mp hseg
  have hmapp := hvalid p (by simp)
  have hmapy : ys.headD 0 ≠ 0 → mapped w.heap.regions (ys.headD 0) SLAB_BYTES := by
    cases ys with
    | nil => exact fun h => absurd rfl h
    | cons y ys => exact fun _ => hvalid y (by simp)
  cases xs with
  | nil =>
    obtain ⟨w', hrun, hun, hcache⟩ := deleteHead_unlinked hmapp hhead hprev hmapy
    refine ⟨w', ?_, hun, hcache⟩
    rw [detachSlab, if_pos (.inl hhead), hrun]
  | cons x xs =>
    have hxp : x ≠ p := fun h => (nodup_cons.mp hnodup).1 (h ▸ by simp)
    have hmapx : (x :: xs).getLastD 0 ≠ 0 →
        mapped w.heap.regions ((x :: xs).getLastD 0) SLAB_BYTES := by
      intro _
      refine hvalid _ (mem_append_left _ ?_)
      rw [getLastD_eq_getLast?, getLast?_eq_some_getLast (by simp)]
      exact getLast_mem _
    obtain ⟨w', hrun, hun, hcache⟩ := unlinkSlab_unlinked hmapp hnext hprev hmapx hmapy
    refine ⟨w', ?_, hun, ?_⟩
    · rw [detachSlab, if_neg, hrun]
      rw [hhead, hsize]
      simp [hxp]
    · have hsame : { w.cache.list id with head := (x :: xs ++ ys).headD 0 } = w.cache.list id := by
        rw [← show (w.cache.list id).head = (x :: xs ++ ys).headD 0 from hhead]
      rw [hcache, hsame]
      cases id <;> rfl

theorem Linked.deleteFromList_unlinked (hl : Linked w lists) (hv : w.heap.Valid)
    (hlist : lists id = xs ++ p :: ys) :
    ∃ w', deleteFromList w (some id) p = some w' ∧
      Unlinked w w' p (xs.getLastD 0) (ys.headD 0) ∧ nextOf w'.heap p = 0 ∧
      w'.cache = w.cache.setList id ⟨(lists id).length - 1, (xs ++ ys).headD 0⟩ := by
  have hp : p ∈ lists id := by
    rw [hlist]
    simp
  obtain ⟨w₁, hrun, hun, hcache⟩ := hl.detach hv hlist
  have hmap : mapped w₁.heap.regions p SLAB_BYTES := by
    rw [hun.stock.regions]
    exact (hv p ((hl id).known p hp)).2
  refine ⟨(w₁.mapSlab p fun s => { s with nextSlab := 0, prevSlab := 0 }).setList id
    ⟨(lists id).length - 1, (xs ++ ys).headD 0⟩, ?_, ⟨?_, fun q => ?_, fun q h0 hq => ?_,
    fun q h0 hq => ?_⟩, ?_, ?_⟩
  · have hlists : w₁.cache.list id = ⟨(lists id).length, (xs ++ ys).headD 0⟩ := by
      simp [hcache, (hl id).size]
    simp [MemCache.deleteFromList, hl.ne_zero hv hp, hrun, World.updateSlab_eq hmap, hlists]
  · exact hun.stock.trans (sameStock_mapSlab w₁ p (fun s => { s with nextSlab := 0, prevSlab := 0 })
      (fun _ => rfl) (fun _ => rfl) (fun _ => rfl))
  · by_cases hq : q = p
    · subst hq
      simpa using hun.listPtr q
    · rw [World.setList_heap, World.mapSlab_slabs_of_ne _ _ hq, hun.listPtr q]
  · rw [← hun.prev q h0 hq, prevOf, World.setList_heap, World.mapSlab_slabs_of_ne _ _ hq, prevOf]
  · rw [← hun.next q h0 hq, nextOf, World.setList_heap, World.mapSlab_slabs_of_ne _ _ hq, nextOf]
  · simp [nextOf]
  · rw [World.setList_cache, World.mapSlab_cache, hcache]
    cases id <;> rfl

theorem Unlinked.linked (hun : Unlinked w w' p (xs.getLastD 0) (ys.headD 0))
    (hlinked : Seg (prevOf w.heap) (nextOf w.heap) 0 (xs ++ p :: ys) 0)
    (hnodup : (xs ++ p :: ys).Nodup) (h0 : ∀ q ∈ xs ++ ys, q ≠ 0) :
    Seg (prevOf w'.heap) (nextOf w'.heap) 0 (xs ++ ys) 0 := by
  obtain ⟨hndx, hndy, hdisj⟩ := nodup_append.mp hnodup
  obtain ⟨hpy, hndy⟩ := nodup_cons.mp hndy
  have hxy : ∀ q ∈ xs, q ∉ ys := fun q hx hy => hdisj q hx q (by simp [hy]) rfl
  have hp : ∀ q ∈ xs ++ ys, q ≠ p := by
    rintro q hq rfl
    rcases mem_append.mp hq with h | h
    · exact hdisj q h q (by simp) rfl
    · exact hpy h
  have hprev : ∀ q ∈ xs ++ ys, q ≠ xs.getLastD 0 → prevOf w'.heap q = prevOf w.heap q := by
    intro q hq hne
    rw [hun.prev q (h0 q hq) (hp q hq), if_neg hne]
  have hnext : ∀ q ∈ xs ++ ys, q ≠ ys.headD 0 → nextOf w'.heap q = nextOf w.heap q := by
    intro q hq hne
    rw [hun.next q (h0 q hq) (hp q hq), if_neg hne]
  refine hlinked.unlink (fun x hx => ?_) (fun y hy => ?_) (fun q hq => ?_) (fun q hq => ?_)
    (fun q hq => ?_) (fun q hq => ?_)
  · have hmem : x ∈ xs ++ ys := mem_append_left _ (mem_of_getLast? hx)
    rw [hun.prev x (h0 x hmem) (hp x hmem), if_pos]
    rw [getLastD_eq_getLast?, hx, Option.getD_some]
  · have hmem : y ∈ xs ++ ys := mem_append_right _ (mem_of_head? hy)
    rw [hun.next y (h0 y hmem) (hp y hmem), if_pos]
    rw [headD_eq_head?_getD, hy, Option.getD_some]
  · have hmem : q ∈ xs ++ ys := mem_append_left _ (dropLast_subset _ hq)
    exact hprev q hmem (ne_getLastD_of_dropLast hndx hq)
  · have hmem : q ∈ xs ++ ys := mem_append_left _ hq
    exact hnext q hmem (ne_headD (h0 q hmem) (hxy q hq))
  · have hmem : q ∈ xs ++ ys := mem_append_right _ hq
    exact hprev q hmem (ne_getLastD (h0 q hmem) fun h => hxy q h hq)
  · have hmem : q ∈ xs ++ ys := mem_append_right _ (mem_of_mem_tail hq)
    exact hnext q hmem (ne_headD_of_tail hndy hq)

theorem Unlinked.other {zs : List Nat} (hun : Unlinked w w' p (xs.getLastD 0) (ys.headD 0))
    (hok : ListOk w id zs) (hcache : w'.cache.list id = w.cache.list id)
    (hnot : ∀ q ∈ zs, q ≠ 0 ∧ q ∉ xs ∧ q ≠ p ∧ q ∉ ys) : ListOk w' id zs := by
  refine hok.frame hcache (fun q hq => ?_) (fun q hq => ?_) (fun q _ => hun.listPtr q)
    fun q hq => ?_
  · obtain ⟨h0, hqx, hqp, -⟩ := hnot q hq
    rw [hun.prev q h0 hqp, if_neg (ne_getLastD h0 hqx)]
  · obtain ⟨h0, -, hqp, hqy⟩ := hnot q hq
    rw [hun.next q h0 hqp, if_neg (ne_headD h0 hqy)]
  · rw [hun.stock.slabAddrs]
    exact hok.known q hq

theorem Linked.delete (hl : Linked w lists) (hv : w.heap.Valid) (hp : p ∈ lists id) :
    ∃ w', deleteFromList w (some id) p = some w' ∧
      Linked w' (Function.update lists id ((lists id).erase p)) ∧ SameStock w.heap w'.heap ∧
      w'.cache.geometry = w.cache.geometry ∧ nextOf w'.heap p = 0 := by
  obtain ⟨xs, ys, hlist⟩ := append_of_mem hp
  obtain ⟨w', hrun, hun, hnext, hcache⟩ := hl.deleteFromList_unlinked hv hlist
  have hnodup := (hl id).nodup
  have hlinked := (hl id).linked
  rw [hlist] at hnodup hlinked
  have herase : (lists id).erase p = xs ++ ys := by
    have hpx : p ∉ xs := fun h => (nodup_append.mp hnodup).2.2 p h p (by simp) rfl
    rw [hlist, erase_append_right _ hpx, erase_cons_head]
  have hsub : ∀ q ∈ xs ++ ys, q ∈ lists id := fun q hq =>
    mem_of_mem_erase (herase ▸ hq)
  have h0 : ∀ q ∈ xs ++ ys, q ≠ 0 := fun q hq => hl.ne_zero hv (hsub q hq)
  rw [herase]
  refine ⟨w', hrun, .update ?_ fun id' hid => ?_, hun.stock, by rw [hcache]; simp, hnext⟩
  · refine ⟨by rw [hcache]; simp, ?_, hun.linked hlinked hnodup h0, ?_, ?_, ?_⟩
    · rw [hcache, hlist]
      simp
    · exact herase ▸ (hl id).nodup.erase p
    · intro q hq
      rw [hun.listPtr q]
      exact (hl id).named q (hsub q hq)
    · intro q hq
      rw [hun.stock.slabAddrs]
      exact (hl id).known q (hsub q hq)
  · apply hun.other (hl id')
    · rw [hcache, Cache.list_setList_of_ne _ _ hid]
    · intro q hq
      have hnot : q ∉ lists id := hl.not_mem (Ne.symm hid) hq
      rw [hlist] at hnot
      simp only [mem_append, mem_cons, not_or] at hnot
      exact ⟨hl.ne_zero hv hq, hnot⟩

end Delete

/-! ### Putting a slab in front -/

section Add

variable {w : World} {lists : ListId → List Nat} {id : ListId} {p : Nat} {xs : List Nat}

/-- The slab `p` stands in front of the slab `x`, `0` for none. -/
structure LinkedFront (w w' : World) (p x : Nat) : Prop where
  cache : w'.cache = w.cache
  stock : SameStock w.heap w'.heap
  listPtr : ∀ q, (w'.heap.slabs q).listPtr = (w.heap.slabs q).listPtr
  prev : ∀ q, prevOf w'.heap q = if q = p then x else prevOf w.heap q
  next : ∀ q, q ≠ 0 → nextOf w'.heap q =
    if q = p then 0 else if q = x then p else nextOf w.heap q

theorem linkHead_nil (hok : ListOk w id []) (hmap : mapped w.heap.regions p SLAB_BYTES) :
    ∃ w', linkHead w (w.cache.list id) p = some w' ∧ LinkedFront w w' p 0 := by
  have hsize : (w.cache.list id).size = 0 := hok.size
  refine ⟨_, (if_pos (.inl hsize)).trans (World.updateSlab_eq hmap _), rfl,
    sameStock_mapSlab w p _ (fun _ => rfl) (fun _ => rfl) (fun _ => rfl), ?_, ?_, ?_⟩
  · intro q
    rw [World.mapSlab_slabs]
    split
    · next h => rw [h]
    · rfl
  · intro q
    rw [prevOf, World.mapSlab_slabs]
    split <;> rfl
  · intro q h0
    rw [nextOf, World.mapSlab_slabs, if_neg h0]
    split <;> rfl

theorem linkHead_cons {x : Nat} (hok : ListOk w id (x :: xs)) (hv : w.heap.Valid)
    (hmap : mapped w.heap.regions p SLAB_BYTES) (hxp : x ≠ p) (hnext : nextOf w.heap p = 0) :
    ∃ w', linkHead w (w.cache.list id) p = some w' ∧ LinkedFront w w' p x := by
  obtain ⟨hx0, hmapx⟩ := hv x (hok.known x (by simp))
  have hhead : (w.cache.list id).head = x := hok.head
  have hsize : (w.cache.list id).size ≠ 0 := by
    rw [hok.size]
    simp
  refine ⟨(w.mapSlab p fun s => { s with prevSlab := x }).mapSlab x fun s =>
    { s with nextSlab := p }, ?_, rfl, ?_, fun q => ?_, fun q => ?_, fun q _ => ?_⟩
  · rw [linkHead, if_neg (not_or.mpr ⟨hsize, hhead ▸ hx0⟩), hhead, World.updateSlab_eq hmap]
    exact World.updateSlab_eq (w := w.mapSlab p fun s => { s with prevSlab := x }) hmapx _
  · exact (sameStock_mapSlab w p (fun s => { s with prevSlab := x }) (fun _ => rfl) (fun _ => rfl)
      (fun _ => rfl)).trans (sameStock_mapSlab (w.mapSlab p fun s => { s with prevSlab := x }) x
      (fun s => { s with nextSlab := p }) (fun _ => rfl) (fun _ => rfl) (fun _ => rfl))
  · rw [World.mapSlab_slabs, World.mapSlab_slabs, World.mapSlab_slabs]
    rw [if_neg hxp]
    split
    · next h => rw [h]
    · split
      · next h => rw [h]
      · rfl
  · rw [prevOf, World.mapSlab_slabs, World.mapSlab_slabs, World.mapSlab_slabs]
    rw [if_neg hxp]
    split
    · next h => rw [h, if_neg hxp, prevOf]
    · split <;> rfl
  · rw [nextOf, World.mapSlab_slabs, World.mapSlab_slabs, World.mapSlab_slabs]
    split
    · next h => rw [h, if_neg hxp]
    · split
      · exact hnext
      · rfl

/-- The slab `p` is the new head of the list `id`, in front of the slab `x`. -/
structure Pushed (w w' : World) (id : ListId) (p x : Nat) : Prop where
  cache : w'.cache = w.cache.setList id ⟨(w.cache.list id).size + 1, p⟩
  stock : SameStock w.heap w'.heap
  listPtr : ∀ q, (w'.heap.slabs q).listPtr = if q = p then some id else (w.heap.slabs q).listPtr
  prev : ∀ q, prevOf w'.heap q = if q = p then x else prevOf w.heap q
  next : ∀ q, q ≠ 0 → nextOf w'.heap q =
    if q = p then 0 else if q = x then p else nextOf w.heap q

theorem LinkedFront.pushed {w' : World} {x : Nat} (h : LinkedFront w w' p x) (id : ListId) :
    Pushed w ((w'.setList id ⟨(w.cache.list id).size + 1, p⟩).mapSlab p fun s =>
      { s with listPtr := some id }) id p x where
  cache := by rw [World.mapSlab_cache, World.setList_cache, h.cache]
  stock := h.stock.trans (sameStock_mapSlab (w'.setList id ⟨(w.cache.list id).size + 1, p⟩) p
    (fun s => { s with listPtr := some id }) (fun _ => rfl) (fun _ => rfl) (fun _ => rfl))
  listPtr q := by
    rw [World.mapSlab_slabs]
    split
    · rfl
    · exact h.listPtr q
  prev q := by
    rw [← h.prev, prevOf, World.mapSlab_slabs, prevOf]
    split
    · next hq => rw [hq]; rfl
    · rfl
  next q h0 := by
    rw [← h.next q h0, nextOf, World.mapSlab_slabs, nextOf]
    split
    · next hq => rw [hq]; rfl
    · rfl

theorem Linked.addToList_pushed (hl : Linked w lists) (hv : w.heap.Valid)
    (hp : p ∈ w.heap.slabAddrs) (hnot : p ∉ lists id) (hnext : nextOf w.heap p = 0) :
    ∃ w', addToList w id p = some w' ∧ Pushed w w' id p ((lists id).headD 0) := by
  obtain ⟨hp0, hmap⟩ := hv p hp
  obtain ⟨w₁, hrun, hfront⟩ :
      ∃ w', linkHead w (w.cache.list id) p = some w' ∧ LinkedFront w w' p ((lists id).headD 0) := by
    have hok := hl id
    cases hlist : lists id with
    | nil => exact linkHead_nil (hlist ▸ hok) hmap
    | cons x xs =>
      have hxp : x ≠ p := fun h => hnot (by simp [hlist, h])
      exact linkHead_cons (hlist ▸ hok) hv hmap hxp hnext
  have hmap₁ : mapped w₁.heap.regions p SLAB_BYTES := by
    rw [hfront.stock.regions]
    exact hmap
  refine ⟨_, ?_, hfront.pushed id⟩
  rw [addToList, if_neg hp0]
  simp only [hrun, Option.bind_eq_bind, Option.bind_some]
  exact World.updateSlab_eq (w := w₁.setList id _) hmap₁ _

theorem Linked.add (hl : Linked w lists) (hv : w.heap.Valid) (hp : p ∈ w.heap.slabAddrs)
    (hnot : ∀ id, p ∉ lists id) (hnext : nextOf w.heap p = 0) (id : ListId) :
    ∃ w', addToList w id p = some w' ∧ Linked w' (Function.update lists id (p :: lists id)) ∧
      SameStock w.heap w'.heap ∧ w'.cache.geometry = w.cache.geometry := by
  have hok := hl id
  have hp0 := (hv p hp).1
  obtain ⟨w', hrun, hpush⟩ := hl.addToList_pushed hv hp (hnot id) hnext
  have hne : ∀ id', ∀ q ∈ lists id', q ≠ p := fun id' q hq h => hnot id' (h ▸ hq)
  refine ⟨w', hrun, .update ?_ fun id' hid => ?_, hpush.stock, by rw [hpush.cache]; simp⟩
  · refine ⟨by rw [hpush.cache]; simp, by rw [hpush.cache]; simp [hok.size], ?_, ?_, ?_, ?_⟩
    · refine hok.linked.push ?_ ?_ ?_ ?_ ?_
      · rw [hpush.next p hp0, if_pos rfl]
      · rw [hpush.prev, if_pos rfl]
      · intro x hx
        have hmem := mem_of_head? hx
        rw [hpush.next x (hl.ne_zero hv hmem), if_neg (hne id x hmem), if_pos]
        rw [headD_eq_head?_getD, hx, Option.getD_some]
      · intro x hx
        rw [hpush.prev, if_neg (hne id x hx)]
      · intro x hx
        have hmem := mem_of_mem_tail hx
        rw [hpush.next x (hl.ne_zero hv hmem), if_neg (hne id x hmem),
          if_neg (ne_headD_of_tail hok.nodup hx)]
    · exact nodup_cons.mpr ⟨hnot id, hok.nodup⟩
    · intro q hq
      rw [hpush.listPtr]
      split
      · rfl
      · next h => exact hok.named q ((mem_cons.mp hq).resolve_left h)
    · intro q hq
      rw [hpush.stock.slabAddrs]
      rcases mem_cons.mp hq with rfl | hq
      · exact hp
      · exact hok.known q hq
  · refine (hl id').frame ?_ (fun q hq => ?_) (fun q hq => ?_) (fun q hq => ?_) fun q hq => ?_
    · rw [hpush.cache, Cache.list_setList_of_ne _ _ hid]
    · rw [hpush.prev, if_neg (hne id' q hq)]
    · have h0 := hl.ne_zero hv hq
      rw [hpush.next q h0, if_neg (hne id' q hq),
        if_neg (ne_headD h0 (hl.not_mem (Ne.symm hid) hq))]
    · rw [hpush.listPtr, if_neg (hne id' q hq)]
    · rw [hpush.stock.slabAddrs]
      exact (hl id').known q hq

end Add

/-! ### Moving and releasing slabs -/

def moved (lists : ListId → List Nat) (src dest : ListId) (p : Nat) : ListId → List Nat :=
  let rest := Function.update lists src ((lists src).erase p)
  Function.update rest dest (p :: rest dest)

section Release

variable {w : World} {lists : ListId → List Nat} {src dest id : ListId} {p fuel offset cnt : Nat}
  {chain : Nat → List Nat} {xs : List Nat}

theorem Linked.not_mem_erase (hl : Linked w lists) (hp : p ∈ lists src) (id : ListId) :
    p ∉ Function.update lists src ((lists src).erase p) id := by
  by_cases hid : id = src
  · subst hid
    rw [Function.update_self]
    exact ((hl id).nodup.mem_erase_iff).not.mpr fun h => h.1 rfl
  · rw [Function.update_of_ne hid]
    exact hl.not_mem hid hp

theorem Linked.reposition (hl : Linked w lists) (hv : w.heap.Valid) (hp : p ∈ lists src)
    (dest : ListId) :
    ∃ w', slabReposition w (some src) dest p = some w' ∧ Linked w' (moved lists src dest p) ∧
      SameStock w.heap w'.heap ∧ w'.cache.geometry = w.cache.geometry := by
  obtain ⟨w₁, hrun₁, hl₁, hstock₁, hgeo₁, hnext₁⟩ := hl.delete hv hp
  have hp₁ : p ∈ w₁.heap.slabAddrs := by
    rw [hstock₁.slabAddrs]
    exact (hl src).known p hp
  obtain ⟨w', hrun, hl', hstock, hgeo⟩ :=
    hl₁.add (hv.congr hstock₁.regions) hp₁ (hl.not_mem_erase hp) hnext₁ dest
  refine ⟨w', ?_, hl', hstock₁.trans hstock, hgeo.trans hgeo₁⟩
  simp only [slabReposition, hrun₁, Option.bind_eq_bind, Option.bind_some, hrun]

theorem Stocked.filter {h : Heap} (hs : Stocked offset cnt h chain) (f : Region → Bool) :
    Stocked offset cnt { h with regions := h.regions.filter f } chain where
  base_pos r hr := hs.base_pos r (mem_of_mem_filter hr)
  room r hr := hs.room r (mem_of_mem_filter hr)
  apart := hs.apart.filter _
  slab p hp := by
    obtain ⟨r, hr, rfl⟩ := Heap.mem_slabAddrs.mp hp
    have hr' := Heap.mem_slabAddrs.mpr ⟨r, mem_of_mem_filter hr, rfl⟩
    exact (hs.slab _ hr').frame rfl rfl rfl fun _ _ => rfl

section

variable (hl : Linked w lists)
include hl

theorem Linked.release (hs : Stocked offset cnt w.heap chain) (hlist : lists id = p :: xs) :
    ∃ w' h', deleteFromList w (some id) p = some w' ∧ freeSlab w'.heap p = some h' ∧
      Linked { w' with heap := h' } (Function.update lists id xs) ∧ Stocked offset cnt h' chain ∧
      w'.cache.geometry = w.cache.geometry ∧
      h'.regions = w.heap.regions.filter fun r => r.base ≠ p := by
  have hp : p ∈ lists id := by
    rw [hlist]
    simp
  obtain ⟨w', hrun, hl', hstock, hgeo, -⟩ := hl.delete hs.valid hp
  have hnot := hl.not_mem_erase hp
  rw [hlist, erase_cons_head] at hl' hnot
  have hs' := hs.congr hstock
  have hregions := hstock.regions
  have hany : w'.heap.regions.any fun r => r.base = p := by
    rw [hregions]
    obtain ⟨r, hr, hrp⟩ := Heap.mem_slabAddrs.mp ((hl id).known p hp)
    exact any_eq_true.mpr ⟨r, hr, by simpa using hrp⟩
  refine ⟨w', _, hrun, if_pos hany, fun id' => ?_, hs'.filter _, hgeo, by rw [hregions]⟩
  refine (hl' id').frame rfl (fun _ _ => rfl) (fun _ _ => rfl) (fun _ _ => rfl) fun q hq => ?_
  obtain ⟨r, hr, rfl⟩ := Heap.mem_slabAddrs.mp ((hl' id').known q hq)
  have hne : r.base ≠ p := fun h => hnot id' (h ▸ hq)
  exact Heap.mem_slabAddrs.mpr ⟨r, mem_filter.mpr ⟨hr, by simpa using hne⟩, rfl⟩

theorem slabListFreeLoop_spec (hs : Stocked offset cnt w.heap chain) (hlist : lists id = xs)
    (hfuel : xs.length < fuel) :
    ∃ w', slabListFreeLoop id fuel (xs.headD 0) w = some w' ∧
      Linked w' (Function.update lists id []) ∧ Stocked offset cnt w'.heap chain ∧
      w'.cache.geometry = w.cache.geometry ∧
      w'.heap.regions = w.heap.regions.filter fun r => r.base ∉ xs := by
  induction xs generalizing w lists fuel with
  | nil =>
    obtain ⟨fuel, rfl⟩ := Nat.exists_eq_add_one.mpr hfuel
    refine ⟨w, rfl, ?_, hs, rfl, by simp⟩
    rw [← hlist, Function.update_eq_self]
    exact hl
  | cons p xs ih =>
    obtain ⟨fuel, rfl⟩ := Nat.exists_eq_add_one.mpr (Nat.zero_lt_of_lt hfuel)
    have hok := hl id
    rw [hlist] at hok
    obtain ⟨hp0, hmap⟩ := hs.valid p (hok.known p (by simp))
    have hprev : (w.heap.slabs p).prevSlab = xs.headD 0 := hok.linked.2.1
    obtain ⟨w₁, h₁, hdel, hfree, hl₁, hs₁, hgeo₁, hreg₁⟩ := hl.release hs hlist
    obtain ⟨w', hrun, hl', hs', hgeo, hreg⟩ := ih hl₁ hs₁ (Function.update_self ..)
      (Nat.lt_of_succ_lt_succ hfuel)
    refine ⟨w', ?_, by simpa using hl', hs', hgeo.trans hgeo₁, ?_⟩
    · simp only [headD_cons, slabListFreeLoop, if_neg hp0, Heap.slab_eq hmap, hdel, hfree,
        hprev, Option.bind_eq_bind, Option.bind_some, hrun]
    · rw [hreg]
      simp only
      rw [hreg₁, filter_filter]
      simp [not_or, Bool.and_comm]

theorem Linked.length_le (id : ListId) : (lists id).length ≤ w.heap.regions.length := by
  have hsub := subperm_of_subset (hl id).nodup (hl id).known
  simpa [Heap.slabAddrs] using hsub.length_le

theorem Linked.slabListFree (hs : Stocked offset cnt w.heap chain) (id : ListId) :
    ∃ w', slabListFree w id = some w' ∧ Linked w' (Function.update lists id []) ∧
      Stocked offset cnt w'.heap chain ∧ w'.cache.geometry = w.cache.geometry ∧
      w'.heap.regions = w.heap.regions.filter fun r => r.base ∉ lists id := by
  by_cases hsize : (w.cache.list id).size = 0
  · -- an empty list: only a message
    have hnil : lists id = [] := length_eq_zero_iff.mp ((hl id).size.symm.trans hsize)
    refine ⟨_, if_pos hsize, ?_, hs.congr ⟨rfl, rfl, fun _ => rfl, fun _ => rfl, fun _ => rfl⟩, rfl,
      ?_⟩
    · rw [← hnil, Function.update_eq_self]
      exact fun id' => (hl id').frame rfl (fun _ _ => rfl) (fun _ _ => rfl) (fun _ _ => rfl)
        (hl id').known
    · simp [hnil, World.print, Heap.print]
  · obtain ⟨w', hrun, hspec⟩ := slabListFreeLoop_spec hl hs (rfl : lists id = _)
      (Nat.lt_succ_of_le (hl.length_le id))
    refine ⟨w', ?_, hspec⟩
    rw [MemCache.slabListFree]
    simp only [if_neg hsize, (hl id).head, hrun]

end

end Release

end LinuxWorkouts.MemCache
