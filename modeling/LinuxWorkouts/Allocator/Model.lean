/-
The boundary-tag allocator of `mem/allocator`, function by function.

A chunk is named by the pointer `myalloc` returns, the address of its first
payload byte. The four words in front of it hold the stored size, the next and
the previous chunk and the left border marker; the word `size / 8` words behind
it is the right border marker. All of it lives in the one buffer given to
`mysetup`, so the model keeps the raw memory: every getter is a load and every
setter a store, at the address the C code computes, with `size_t` and pointer
arithmetic modulo `2 ^ 64`.

The static `head` and the memory are the whole state (`Heap`). A `size_t *` is
its byte address, `NULL` is `0`.
-/

import LinuxWorkouts.Lib.WordMemory

namespace LinuxWorkouts.Allocator

open WordMemory

/-! ### `alloc_utils.h` -/

def FREE : Nat := 1
def ALLOCATED : Nat := 0
def METAINFO_SIZE : Nat := 40

def HEADER_SIZE : Nat := 4
def SIZE_OFFSET : Nat := 4
def NEXT_OFFSET : Nat := 3
def PREV_OFFSET : Nat := 2
def L_BORDER_MARKER_OFFSET : Nat := 1

def ONE_BYTE_OFFSET : Nat := 0x00FFFFFFFFFFFFFF
def TWO_BYTE_OFFSET : Nat := 0x0000FFFFFFFFFFFF
def THREE_BYTE_OFFSET : Nat := 0x000000FFFFFFFFFF
def FOUR_BYTE_OFFSET : Nat := 0x00000000FFFFFFFF
def FIVE_BYTE_OFFSET : Nat := 0x0000000000FFFFFF
def SIX_BYTE_OFFSET : Nat := 0x000000000000FFFF
def SEVEN_BYTE_OFFSET : Nat := 0x00000000000000FF

def ptrAdd (p k : Nat) : Nat := wadd p (8 * k)

def ptrSub (p k : Nat) : Nat := wsub p (8 * k)

/-! ### `alloc_utils.c` -/

def chunkInitMetainfo (chunk : Nat) : Nat := ptrAdd chunk HEADER_SIZE

def setSize (m : Mem) (chunk size : Nat) : Mem := m.store (ptrSub chunk SIZE_OFFSET) size

def getSize (m : Mem) (chunk : Nat) : Nat := m.load (ptrSub chunk SIZE_OFFSET)

def setNextChunkPtr (m : Mem) (chunk nextChunk : Nat) : Mem :=
  m.store (ptrSub chunk NEXT_OFFSET) nextChunk

def getNextChunkPtr (m : Mem) (chunk : Nat) : Nat := m.load (ptrSub chunk NEXT_OFFSET)

def setPrevChunkPtr (m : Mem) (chunk prevChunk : Nat) : Mem :=
  m.store (ptrSub chunk PREV_OFFSET) prevChunk

def getPrevChunkPtr (m : Mem) (chunk : Nat) : Nat := m.load (ptrSub chunk PREV_OFFSET)

def setLeftBorderMarker (m : Mem) (chunk flag : Nat) : Mem :=
  m.store (ptrSub chunk L_BORDER_MARKER_OFFSET) flag

def getLeftBorderMarker (m : Mem) (chunk : Nat) : Nat :=
  m.load (ptrSub chunk L_BORDER_MARKER_OFFSET)

/-- The marker's place is computed from the `size` argument, not from the stored
size. -/
def setRightBorderMarker (m : Mem) (chunk size flag : Nat) : Mem :=
  m.store (ptrAdd chunk (size / 8)) flag

def getRightBorderMarker (m : Mem) (chunk : Nat) : Nat :=
  m.load (ptrAdd chunk (getSize m chunk / 8))

def makeChunk (m : Mem) (chunk size status : Nat) : Mem × Nat :=
  let chunk := chunkInitMetainfo chunk
  let m := setSize m chunk size
  let m := setNextChunkPtr m chunk 0
  let m := setPrevChunkPtr m chunk 0
  let m := setLeftBorderMarker m chunk status
  let m := setRightBorderMarker m chunk size status
  (m, chunk)

/-- The `do … while (chunk)` loop of `find_chunk`. The two markers the body reads
into locals are not tested. -/
def findChunkLoop (m : Mem) (size : Nat) : Nat → Nat → Option Nat
  | 0, _ => none
  | fuel + 1, chunk =>
    if size < getSize m chunk then some chunk
    else
      let chunk := getNextChunkPtr m chunk
      if chunk = 0 then some 0 else findChunkLoop m size fuel chunk

/-- A walk of `2 ^ 64` steps has visited some address twice and never ends. -/
def walkLimit : Nat := 2 ^ 64

/-- `find_chunk`: `none` when the list is a cycle without a fitting chunk, so that
the call does not return. -/
def findChunk (m : Mem) (head size : Nat) : Option Nat := findChunkLoop m size walkLimit head

def addNext (m : Mem) (lChunk rChunk : Nat) : Mem :=
  let curNextLChunk := getNextChunkPtr m lChunk
  let m := if curNextLChunk ≠ 0 then setPrevChunkPtr m curNextLChunk rChunk else m
  let m := setNextChunkPtr m rChunk curNextLChunk
  let m := setPrevChunkPtr m rChunk lChunk
  setNextChunkPtr m lChunk rChunk

def mergeChunks (m : Mem) (lChunk rChunk : Nat) : Mem :=
  let m := setRightBorderMarker m rChunk (getSize m rChunk) FREE
  let nextRChunk := getNextChunkPtr m rChunk
  let m := if nextRChunk ≠ 0 then setPrevChunkPtr m nextRChunk lChunk else m
  let m := setLeftBorderMarker m lChunk FREE
  let m := setNextChunkPtr m lChunk nextRChunk
  setSize m lChunk (wadd (wadd (getSize m lChunk) (getSize m rChunk)) METAINFO_SIZE)

def getOffsetMask (bytes : Nat) : Nat :=
  match bytes with
  | 1 => ONE_BYTE_OFFSET
  | 2 => TWO_BYTE_OFFSET
  | 3 => THREE_BYTE_OFFSET
  | 4 => FOUR_BYTE_OFFSET
  | 5 => FIVE_BYTE_OFFSET
  | 6 => SIX_BYTE_OFFSET
  | _ => SEVEN_BYTE_OFFSET

/-- The `while (cur_ptr != end_chunk_ptr)` loop of `setzero`: the memory and `cur_ptr`
behind it. -/
def setzeroLoop (endChunkPtr : Nat) : Nat → Mem → Nat → Option (Mem × Nat)
  | 0, _, _ => none
  | fuel + 1, m, curPtr =>
    if curPtr ≠ endChunkPtr then
      setzeroLoop endChunkPtr fuel (m.store curPtr 0) (ptrAdd curPtr 1)
    else some (m, curPtr)

def setzero (m : Mem) (ptr bytesCnt : Nat) : Option Mem := do
  let intpartSize := bytesCnt / 8 * 8
  let otherpartSize := bytesCnt - intpartSize
  let endChunkPtr := ptrAdd ptr (intpartSize / 8)
  let (m, curPtr) ← setzeroLoop endChunkPtr walkLimit m ptr
  if otherpartSize ≠ 0 then
    some (m.store curPtr (m.load curPtr &&& getOffsetMask otherpartSize))
  else some m

def freeChunk (m : Mem) (chunk : Nat) : Mem :=
  let m := setLeftBorderMarker m chunk FREE
  setRightBorderMarker m chunk (getSize m chunk) FREE

/-! ### `alloc.c` -/

/-- The memory and the static `head`. -/
structure Heap where
  mem : Mem
  head : Nat

def mysetup (m : Mem) (buf size : Nat) : Heap :=
  let (m, head) := makeChunk m buf (wsub size METAINFO_SIZE) FREE
  ⟨m, head⟩

/-- `myalloc`: the heap after the call and the returned pointer, `0` for `NULL`. -/
def myalloc (h : Heap) (size : Nat) : Option (Heap × Nat) :=
  let realSize := wadd size METAINFO_SIZE
  match findChunk h.mem h.head realSize with
  | none => none
  | some chunk =>
    if chunk = 0 then some (h, 0)
    else
      let oldChunkNewSize := wsub (getSize h.mem chunk) realSize
      let m := setSize h.mem chunk oldChunkNewSize
      let m := setRightBorderMarker m chunk oldChunkNewSize FREE
      let offset := oldChunkNewSize / 8 + 1
      let (m, newChunk) := makeChunk m (ptrAdd chunk offset) size ALLOCATED
      some (⟨addNext m chunk newChunk, h.head⟩, newChunk)

/-- `mycalloc`: the product is taken modulo `2 ^ 64` before the request. -/
def mycalloc (h : Heap) (numitems size : Nat) : Option (Heap × Nat) := do
  let bytesCnt := numitems * size % 2 ^ 64
  let (h, rawChunk) ← myalloc h bytesCnt
  if rawChunk = 0 then some (h, 0)
  else
    let m ← setzero h.mem rawChunk bytesCnt
    some (⟨m, h.head⟩, rawChunk)

/-- The body of `myfree` once both markers say that the chunk is allocated. -/
def myfreeAllocated (m : Mem) (chunk : Nat) : Mem :=
  let prev := getPrevChunkPtr m chunk
  let next := getNextChunkPtr m chunk
  if prev = 0 ∧ next = 0 then freeChunk m chunk
  else if prev ≠ 0 ∧ next = 0 then
    -- the only branch that asks the right marker of the previous chunk
    if getRightBorderMarker m prev = FREE then mergeChunks m prev chunk
    else freeChunk m chunk
  else if prev = 0 ∧ next ≠ 0 then
    if getLeftBorderMarker m next = FREE then mergeChunks m chunk next
    else freeChunk m chunk
  else if getLeftBorderMarker m prev = FREE ∧ getLeftBorderMarker m next = FREE then
    mergeChunks (mergeChunks m chunk next) prev chunk
  else if getLeftBorderMarker m prev = FREE ∧ getLeftBorderMarker m next ≠ FREE then
    mergeChunks m prev chunk
  else if getLeftBorderMarker m prev ≠ FREE ∧ getLeftBorderMarker m next = FREE then
    mergeChunks m chunk next
  else freeChunk m chunk

def myfree (h : Heap) (p : Nat) : Heap :=
  if p = 0 then h
  else if getRightBorderMarker h.mem p = FREE ∨ getLeftBorderMarker h.mem p = FREE then h
  else ⟨myfreeAllocated h.mem p, h.head⟩

/-! ### What the list holds -/

/-- `d` is a chunk on the list: it is `head` or the next chunk of one on the list. -/
inductive OnList (h : Heap) : Nat → Prop where
  | head : OnList h h.head
  | next {d : Nat} : OnList h d → getNextChunkPtr h.mem d ≠ 0 →
      OnList h (getNextChunkPtr h.mem d)

/-- One row of `print_list`, with the address of the chunk it is about. -/
structure Chunk where
  addr : Nat
  size : Nat
  left : Nat
  right : Nat
deriving DecidableEq, Repr

def readChunk (m : Mem) (p : Nat) : Chunk :=
  ⟨p, getSize m p, getLeftBorderMarker m p, getRightBorderMarker m p⟩

def printListLoop (m : Mem) : Nat → Nat → Option (List Chunk)
  | 0, _ => none
  | fuel + 1, chunk =>
    let next := getNextChunkPtr m chunk
    if next = 0 then some [readChunk m chunk]
    else (printListLoop m fuel next).map (readChunk m chunk :: ·)

/-- `print_list head`: the rows it prints, `none` when the list is a cycle. -/
def printList (h : Heap) : Option (List Chunk) := printListLoop h.mem walkLimit h.head

end LinuxWorkouts.Allocator
