/-
The slab cache of `src/mem/mem_cache`.

The two structures that live in allocated memory, `struct slab` and
`struct block`, are kept by address; `Heap.regions` are the blocks `malloc` handed
out and not yet freed. Every access asks for the bytes of the structure
to lie in one of them, so a null pointer, a freed slab and a block behind the end
of a slab have no value: a function that reads or writes one returns `none`.
`malloc` is a parameter of the functions that call it, `none` for `NULL`.

The three lists are fields of `struct cache`; the `list_ptr` of a slab, which points
to one of them, is a `ListId`. Counters are natural numbers: every slab takes at
least 64 bytes of the address space, so none of them gets near the word size.
-/

import LinuxWorkouts.Lib.WordMemory

namespace LinuxWorkouts.MemCache

open WordMemory

def PAGE_SIZE : Nat := 4096
def DEFAULT_SIZE : Nat := 10

def BLOCK_BYTES : Nat := 24

def SLAB_BYTES : Nat := 64

/-- The lists of a cache, as targets of `list_ptr`. -/
inductive ListId where
  | slabsFree
  | slabsPartial
  | slabsFull
deriving DecidableEq, Repr

structure Block where
  size : Nat
  nextBlock : Nat
  slabPtr : Nat
deriving Repr

structure Slab where
  size : Nat
  capacity : Nat
  blockSize : Nat
  firstBlock : Nat
  prevSlab : Nat
  nextSlab : Nat
  listPtr : Option ListId
  rawData : Nat
deriving Repr

structure SlabList where
  size : Nat
  head : Nat
deriving DecidableEq, Repr

structure Cache where
  slabsFree : SlabList
  slabsPartial : SlabList
  slabsFull : SlabList
  objectSize : Nat
  slabOrder : Nat
  slabObjects : Nat
  slabSize : Nat
deriving Repr

def Cache.list (c : Cache) : ListId → SlabList
  | .slabsFree => c.slabsFree
  | .slabsPartial => c.slabsPartial
  | .slabsFull => c.slabsFull

def Cache.setList (c : Cache) (id : ListId) (l : SlabList) : Cache :=
  match id with
  | .slabsFree => { c with slabsFree := l }
  | .slabsPartial => { c with slabsPartial := l }
  | .slabsFull => { c with slabsFull := l }

/-- A block of memory from `malloc`. -/
structure Region where
  base : Nat
  bytes : Nat
deriving DecidableEq, Repr

structure Heap where
  slabs : Nat → Slab
  blocks : Nat → Block
  regions : List Region
  stdout : List String

def blankHeap : Heap :=
  ⟨fun _ => ⟨0, 0, 0, 0, 0, 0, none, 0⟩, fun _ => ⟨0, 0, 0⟩, [], []⟩

structure World where
  heap : Heap
  cache : Cache

/-! ### Memory accesses -/

def mapped (regions : List Region) (a n : Nat) : Bool :=
  regions.any fun r => decide (r.base ≤ a) && decide (a + n ≤ r.base + r.bytes)

def Heap.slab (h : Heap) (p : Nat) : Option Slab :=
  if mapped h.regions p SLAB_BYTES then some (h.slabs p) else none

def Heap.block (h : Heap) (p : Nat) : Option Block :=
  if mapped h.regions p BLOCK_BYTES then some (h.blocks p) else none

def Heap.updateSlab (h : Heap) (p : Nat) (f : Slab → Slab) : Option Heap :=
  (h.slab p).map fun s => { h with slabs := Function.update h.slabs p (f s) }

def Heap.updateBlock (h : Heap) (p : Nat) (f : Block → Block) : Option Heap :=
  (h.block p).map fun b => { h with blocks := Function.update h.blocks p (f b) }

def Heap.print (h : Heap) (text : String) : Heap := { h with stdout := h.stdout ++ [text] }

def World.print (w : World) (text : String) : World := { w with heap := w.heap.print text }

def World.updateSlab (w : World) (p : Nat) (f : Slab → Slab) : Option World :=
  (w.heap.updateSlab p f).map fun h => { w with heap := h }

def World.setNext (w : World) (slab next : Nat) : Option World :=
  if slab ≠ 0 then w.updateSlab slab fun s => { s with nextSlab := next } else some w

def World.setPrev (w : World) (slab prev : Nat) : Option World :=
  if slab ≠ 0 then w.updateSlab slab fun s => { s with prevSlab := prev } else some w

def World.setList (w : World) (id : ListId) (l : SlabList) : World :=
  { w with cache := w.cache.setList id l }

/-! ### `slab.c` and `block.c` -/

/-- What `alloc_slab` asks `malloc` for. -/
def slabRequest (order : Nat) : Nat := PAGE_SIZE * order

def allocSlab (malloc : Nat → Option Region) (order : Nat) : Option Region :=
  malloc (slabRequest order)

/-- `free`, of a pointer that `malloc` returned. -/
def freeSlab (h : Heap) (slab : Nat) : Option Heap :=
  if h.regions.any fun r => r.base = slab then
    some { h with regions := h.regions.filter fun r => r.base ≠ slab }
  else none

def slabIsFull (h : Heap) (slab : Nat) : Option Bool :=
  (h.slab slab).map fun s => decide (s.size ≥ s.capacity)

/-- The loop of `init_block_list`: `cnt` more blocks behind the one at `prev`. -/
def initBlockLoop (slab objectSize offset : Nat) : Nat → Nat → Heap → Option Heap
  | 0, _, h => some h
  | cnt + 1, prev, h => do
      let raw := prev + offset
      let h ← h.updateBlock raw fun _ => ⟨objectSize, 0, slab⟩
      let h ← h.updateBlock prev fun b => { b with nextBlock := raw }
      initBlockLoop slab objectSize offset cnt raw h

def initBlockList (h : Heap) (slab objectSize blockCnt : Nat) : Option Heap := do
  let s ← h.slab slab
  let offset := wadd objectSize BLOCK_BYTES
  let h ← h.updateBlock s.rawData fun _ => ⟨objectSize, 0, slab⟩
  let h ← h.updateSlab slab fun s => { s with firstBlock := s.rawData }
  initBlockLoop slab objectSize offset (blockCnt - 1) s.rawData h

def createSlab (h : Heap) (malloc : Nat → Option Region) (objectSize slabOrder slabObjects : Nat) :
    Option (Heap × Nat) :=
  match allocSlab malloc slabOrder with
  | none => some (h.print "Can not allocate memory chunk for slab\n", 0)
  | some r => do
      let slab := r.base
      let h : Heap := { h with regions := r :: h.regions }
      let h ← h.updateSlab slab fun s =>
        { s with
          size := 0
          capacity := slabObjects
          prevSlab := 0
          nextSlab := 0
          blockSize := objectSize
          rawData := slab + SLAB_BYTES
          listPtr := none }
      let h ← initBlockList h slab objectSize slabObjects
      some (h, slab)

def allocBlock (h : Heap) (slab : Nat) : Option (Heap × Nat) := do
  let s ← h.slab slab
  if s.size ≥ s.capacity then
    some (h.print "Can not allocate a new block: slab is full\n", 0)
  else
    let block := s.firstBlock
    let b ← h.block block
    let h ← h.updateSlab slab fun s => { s with firstBlock := b.nextBlock, size := s.size + 1 }
    let h ← h.updateBlock block fun b => { b with nextBlock := 0 }
    some (h, block + BLOCK_BYTES)

def freeBlock (h : Heap) (slab targetBlock : Nat) : Option Heap := do
  let s ← h.slab slab
  if s.size = 0 then
    some (h.print "Slab is empty\n")
  else if s.firstBlock = targetBlock then
    some (h.print "Target block is already free\n")
  else
    let h ← h.updateBlock targetBlock fun b => { b with nextBlock := s.firstBlock }
    h.updateSlab slab fun s => { s with firstBlock := targetBlock, size := s.size - 1 }

/-! ### `list.c` -/

def slabListInit : SlabList := ⟨0, 0⟩

/-- Link a slab to the head of a list; the rest of the list is behind `prev_slab`. -/
def linkHead (w : World) (l : SlabList) (slab : Nat) : Option World :=
  if l.size = 0 ∨ l.head = 0 then
    w.updateSlab slab fun s => { s with prevSlab := 0, nextSlab := 0 }
  else do
    let w ← w.updateSlab slab fun s => { s with prevSlab := l.head }
    w.updateSlab l.head fun s => { s with nextSlab := slab }

def addToList (w : World) (list : ListId) (slab : Nat) : Option World :=
  if slab = 0 then
    some (w.print "Slab is null\n")
  else do
    let l := w.cache.list list
    let w ← linkHead w l slab
    let w := w.setList list ⟨l.size + 1, slab⟩
    w.updateSlab slab fun s => { s with listPtr := some list }

/-- Take the head off the list. -/
def deleteHead (w : World) (list : ListId) : Option World := do
  let l := w.cache.list list
  let s ← w.heap.slab l.head
  let w := w.setList list { l with head := s.prevSlab }
  w.setNext s.prevSlab 0

/-- Link the neighbours of a slab to each other. -/
def unlinkSlab (w : World) (slab : Nat) : Option World := do
  let s ← w.heap.slab slab
  let w ← w.setNext s.prevSlab s.nextSlab
  w.setPrev s.nextSlab s.prevSlab

def detachSlab (w : World) (list : ListId) (slab : Nat) : Option World :=
  let l := w.cache.list list
  if l.head = slab ∨ l.size = 0 then deleteHead w list else unlinkSlab w slab

def deleteFromList (w : World) (list : Option ListId) (slab : Nat) : Option World :=
  match list with
  | none => some (w.print "List is null\n")
  | some list =>
    if slab = 0 then
      some (w.print "Slab is null\n")
    else do
      let w ← detachSlab w list slab
      let w ← w.updateSlab slab fun s => { s with nextSlab := 0, prevSlab := 0 }
      let l := w.cache.list list
      some (w.setList list { l with size := l.size - 1 })

def slabReposition (w : World) (src : Option ListId) (dest : ListId) (slab : Nat) :
    Option World := do
  let w ← deleteFromList w src slab
  addToList w dest slab

/-- The loop of `slab_list_free`. Each round frees a block of `malloc`, so there are
no more rounds than there are blocks. -/
def slabListFreeLoop (list : ListId) : Nat → Nat → World → Option World
  | 0, _, _ => none
  | fuel + 1, currentSlab, w =>
    if currentSlab = 0 then some w
    else do
      let s ← w.heap.slab currentSlab
      let w ← deleteFromList w (some list) currentSlab
      let h ← freeSlab w.heap currentSlab
      slabListFreeLoop list fuel s.prevSlab { w with heap := h }

def slabListFree (w : World) (list : ListId) : Option World :=
  let l := w.cache.list list
  if l.size = 0 then some (w.print "List size is zero\n")
  else slabListFreeLoop list (w.heap.regions.length + 1) l.head w

/-! ### `mem_cache.c` -/

def calculateSlabSize (slabOrder : Nat) : Nat :=
  let exp := if slabOrder ≠ 0 then 2 * 2 ^ (slabOrder - 1) else 1
  exp * PAGE_SIZE

/-- The loop of `get_slab_order`. The order stops at 10, so ten rounds are enough. -/
def slabOrderLoop (totalSize : Nat) : Nat → Nat → Nat → Nat
  | 0, _, order => order
  | fuel + 1, base, order =>
    if PAGE_SIZE * base < totalSize ∧ order < 10 then
      slabOrderLoop totalSize fuel (base * 2) (order + 1)
    else order

def getSlabOrder (objectSize defaultCnt : Nat) : Nat :=
  let totalSize := wadd (wadd objectSize BLOCK_BYTES * defaultCnt % 2 ^ 64) SLAB_BYTES
  if PAGE_SIZE ≥ totalSize then 0 else slabOrderLoop totalSize 10 2 1

def calculateObjectCnt (slabSize objectSize : Nat) : Nat :=
  let workAreSize := wsub slabSize SLAB_BYTES
  let blockSize := wadd objectSize BLOCK_BYTES
  if blockSize ≠ 0 then workAreSize / blockSize else 0

def cacheSetup (objectSize : Nat) : Cache :=
  let slabOrder := getSlabOrder objectSize DEFAULT_SIZE
  let slabSize := calculateSlabSize slabOrder
  { slabsFree := slabListInit
    slabsPartial := slabListInit
    slabsFull := slabListInit
    objectSize := objectSize
    slabOrder := slabOrder
    slabSize := slabSize
    slabObjects := calculateObjectCnt slabSize objectSize }

/-- The slab a request is served from when no slab is free: the head of the partial
list, or a new slab. -/
def partialSlab (w : World) (malloc : Nat → Option Region) : Option (World × Nat) :=
  if w.cache.slabsPartial.size = 0 then do
    let (h, slab) ← createSlab w.heap malloc w.cache.objectSize w.cache.slabOrder
      w.cache.slabObjects
    let w ← addToList { w with heap := h } .slabsPartial slab
    some (w, slab)
  else some (w, w.cache.slabsPartial.head)

/-- `cache_alloc` on a free slab. -/
def allocFromFree (w : World) : Option (World × Nat) := do
  let slab := w.cache.slabsFree.head
  let (h, mem) ← allocBlock w.heap slab
  let full ← slabIsFull h slab
  let w ← slabReposition { w with heap := h } (some .slabsFree)
    (if full then .slabsFull else .slabsPartial) slab
  some (w, mem)

def allocFromPartial (w : World) (malloc : Nat → Option Region) : Option (World × Nat) := do
  let (w, slab) ← partialSlab w malloc
  let (h, mem) ← allocBlock w.heap slab
  let full ← slabIsFull h slab
  if full then do
    let w ← slabReposition { w with heap := h } (some .slabsPartial) .slabsFull slab
    some (w, mem)
  else some ({ w with heap := h }, mem)

def cacheAlloc (w : World) (malloc : Nat → Option Region) : Option (World × Nat) :=
  if w.cache.slabsFree.size > 0 then allocFromFree w else allocFromPartial w malloc

def cacheFree (w : World) (ptr : Nat) : Option World := do
  let block := ptr - BLOCK_BYTES
  let b ← w.heap.block block
  let slab := b.slabPtr
  let s ← w.heap.slab slab
  let list := s.listPtr
  let h ← freeBlock w.heap slab block
  let w : World := { w with heap := h }
  let s ← w.heap.slab slab
  slabReposition w list (if s.size = 0 then .slabsFree else .slabsPartial) slab

def cacheShrink (w : World) : Option World := slabListFree w .slabsFree

def cacheRelease (w : World) : Option World := do
  let w ← slabListFree w .slabsFree
  let w ← slabListFree w .slabsPartial
  slabListFree w .slabsFull

end LinuxWorkouts.MemCache
