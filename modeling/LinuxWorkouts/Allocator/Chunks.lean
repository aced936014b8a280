/-
The chunk list as a list of records.

`Represents h lo cs hi` says that the memory of `h` stores exactly the chunks
`cs`: their headers and markers have the recorded values, they are linked both
ways from `head`, and their extents (size word to right marker) follow each
other without overlap inside `[lo, hi)`. Later modules never look at raw memory
again: they go through

* `Represents.edit`, the frame rule: a memory change inside the extent of some
  neighbouring chunks replaces those chunks in the list and no other;
* `findChunk_eq`, `printList_eq`, `onList_iff`: the walks of the C code read the
  list off.
-/

import LinuxWorkouts.Allocator.Model
import LinuxWorkouts.Lib.DoublyLinked

namespace LinuxWorkouts.Allocator

open WordMemory DoublyLinked List

/-! ### Extents -/

/-- The address of the right border marker, computed from the stored size. -/
def Chunk.marker (c : Chunk) : Nat := c.addr + c.size / 8 * 8

def Chunk.stop (c : Chunk) : Nat := c.marker + 8

theorem Chunk.extent (c : Chunk) : c.addr ≤ c.marker ∧ c.marker + 8 = c.stop :=
  ⟨Nat.le_add_right _ _, rfl⟩

/-- Chunks in address order with disjoint extents inside `[lo, hi)`. The extent
starts 32 bytes in front of the address, at the size word. -/
def Spaced : Nat → List Chunk → Nat → Prop
  | lo, [], hi => lo ≤ hi
  | lo, c :: cs, hi => lo + 32 ≤ c.addr ∧ Spaced c.stop cs hi

variable {xs ys : List Chunk} {m' : Mem}

theorem spaced_append {lo hi : Nat} :
    Spaced lo (xs ++ ys) hi ↔ ∃ mid, Spaced lo xs mid ∧ Spaced mid ys hi := by
  induction xs generalizing lo with
  | nil =>
    constructor
    · exact fun h => ⟨lo, Nat.le_refl lo, h⟩
    · rintro ⟨mid, hle, h⟩
      cases ys with
      | nil => exact Nat.le_trans hle h
      | cons y ys => exact ⟨Nat.le_trans (Nat.add_le_add_right hle 32) h.1, h.2⟩
  | cons x xs ih =>
    rw [cons_append]
    constructor
    · rintro ⟨hx, h⟩
      obtain ⟨mid, h1, h2⟩ := ih.mp h
      exact ⟨mid, ⟨hx, h1⟩, h2⟩
    · rintro ⟨mid, ⟨hx, h1⟩, h2⟩
      exact ⟨hx, ih.mpr ⟨mid, h1, h2⟩⟩

theorem Spaced.le {lo hi : Nat} {cs : List Chunk} (h : Spaced lo cs hi) : lo ≤ hi := by
  induction cs generalizing lo with
  | nil => exact h
  | cons c cs ih =>
    have hc := h.1
    have := ih h.2
    have := c.extent
    omega

theorem Spaced.mem {lo hi : Nat} {cs : List Chunk} (h : Spaced lo cs hi) {c : Chunk}
    (hc : c ∈ cs) : lo + 32 ≤ c.addr ∧ c.stop ≤ hi := by
  obtain ⟨xs, ys, rfl⟩ := append_of_mem hc
  obtain ⟨mid, h1, h2, h3⟩ := spaced_append.mp h
  have := h1.le
  exact ⟨by omega, h3.le⟩

theorem Spaced.pairwise {lo hi : Nat} {cs : List Chunk} (h : Spaced lo cs hi) :
    cs.Pairwise fun c d => c.stop + 32 ≤ d.addr := by
  induction cs generalizing lo with
  | nil => exact .nil
  | cons c cs ih => exact .cons (fun d hd => (h.2.mem hd).1) (ih h.2)

theorem Spaced.apart {lo hi : Nat} {cs : List Chunk} (h : Spaced lo cs hi) {c d : Chunk}
    (hc : c ∈ cs) (hd : d ∈ cs) : c = d ∨ c.stop + 32 ≤ d.addr ∨ d.stop + 32 ≤ c.addr := by
  induction cs generalizing lo with
  | nil => cases hc
  | cons e es ih =>
    have hpair := (pairwise_cons.mp h.pairwise).1
    rcases mem_cons.mp hc with rfl | hc'
    · rcases mem_cons.mp hd with rfl | hd'
      · exact .inl rfl
      · exact .inr (.inl (hpair d hd'))
    · rcases mem_cons.mp hd with rfl | hd'
      · exact .inr (.inr (hpair c hc'))
      · exact ih h.2 hc' hd'

/-- Where the space behind a list prefix ends: at the size word of the next chunk
or at the end of the range. -/
def limit (ys : List Chunk) (hi : Nat) : Nat :=
  match ys with
  | [] => hi
  | y :: _ => y.addr - 32

theorem Spaced.le_limit {lo hi : Nat} (h : Spaced lo ys hi) : lo ≤ limit ys hi := by
  cases ys with
  | nil => exact h
  | cons y ys =>
    have := h.1
    simp only [limit]
    omega

theorem Spaced.of_le_limit {lo lo' hi : Nat} (h : Spaced lo ys hi) (hle : lo' ≤ limit ys hi) :
    Spaced lo' ys hi := by
  cases ys with
  | nil => exact hle
  | cons y ys =>
    have := h.1
    simp only [limit] at hle
    exact ⟨by omega, h.2⟩

theorem Spaced.le_head {lo hi : Nat} (h : Spaced lo ys hi) (h0 : (ys.map Chunk.addr).headD 0 ≠ 0) :
    lo + 32 ≤ (ys.map Chunk.addr).headD 0 := by
  cases ys with
  | nil => exact absurd rfl h0
  | cons y ys => exact h.1

theorem Spaced.head_eq {lo hi : Nat} {y : Chunk} (h : Spaced lo ys hi) (hy : ys.head? = some y) :
    (ys.map Chunk.addr).headD 0 = y.addr ∧ lo + 32 ≤ y.addr := by
  cases ys with
  | nil => cases hy
  | cons z zs =>
    cases hy
    exact ⟨rfl, h.1⟩

/-! ### Representation -/

/-- The memory holds the recorded size and markers of `c`. -/
structure Stored (m : Mem) (c : Chunk) : Prop where
  size : m.load (c.addr - 32) = c.size
  left : m.load (c.addr - 8) = c.left
  right : m.load c.marker = c.right

def nextOf (m : Mem) (p : Nat) : Nat := m.load (p - 24)

def prevOf (m : Mem) (p : Nat) : Nat := m.load (p - 16)

/-- The heap `h` consists of the chunks `cs`, laid out inside `[lo, hi)`. -/
structure Represents (h : Heap) (lo : Nat) (cs : List Chunk) (hi : Nat) : Prop where
  head : (cs.map Chunk.addr).head? = some h.head
  stored : ∀ c ∈ cs, Stored h.mem c
  linked : Seg (nextOf h.mem) (prevOf h.mem) 0 (cs.map Chunk.addr) 0
  spaced : Spaced lo cs hi
  bound : hi ≤ 2 ^ 64

namespace Represents

variable {h : Heap} {lo hi : Nat} {cs : List Chunk}

section

variable (hr : Represents h lo cs hi)
include hr

theorem addr_ge {c : Chunk} (hc : c ∈ cs) : lo + 32 ≤ c.addr := (hr.spaced.mem hc).1

theorem stop_le {c : Chunk} (hc : c ∈ cs) : c.stop ≤ 2 ^ 64 :=
  Nat.le_trans (hr.spaced.mem hc).2 hr.bound

theorem addr_range {c : Chunk} (hc : c ∈ cs) : 32 ≤ c.addr ∧ c.addr < 2 ^ 64 := by
  have h1 := hr.addr_ge hc
  have h2 := hr.stop_le hc
  have := c.extent
  omega

theorem ne_null {c : Chunk} (hc : c ∈ cs) : c.addr ≠ 0 := by
  have := (hr.addr_range hc).1
  omega

end

end Represents

/-! ### Pointer arithmetic inside the buffer -/

theorem ptrSub_eq {p k : Nat} (hk : 8 * k ≤ p) (hp : p < 2 ^ 64) : ptrSub p k = p - 8 * k :=
  wsub_of_le hk hp

theorem ptrAdd_eq {p k : Nat} (h : p + 8 * k < 2 ^ 64) : ptrAdd p k = p + 8 * k := wadd_of_lt h

section Fields

variable {m : Mem} {p v : Nat}

section

variable (h1 : 32 ≤ p)
include h1

theorem getSize_eq (h2 : p < 2 ^ 64) : getSize m p = m.load (p - 32) := by
  rw [getSize, SIZE_OFFSET, ptrSub_eq (by omega) h2]

theorem setSize_eq (h2 : p < 2 ^ 64) : setSize m p v = m.store (p - 32) v := by
  rw [setSize, SIZE_OFFSET, ptrSub_eq (by omega) h2]

theorem getNextChunkPtr_eq (h2 : p < 2 ^ 64) : getNextChunkPtr m p = nextOf m p := by
  rw [getNextChunkPtr, NEXT_OFFSET, ptrSub_eq (by omega) h2, nextOf]

theorem setNextChunkPtr_eq (h2 : p < 2 ^ 64) : setNextChunkPtr m p v = m.store (p - 24) v := by
  rw [setNextChunkPtr, NEXT_OFFSET, ptrSub_eq (by omega) h2]

theorem getPrevChunkPtr_eq (h2 : p < 2 ^ 64) : getPrevChunkPtr m p = prevOf m p := by
  rw [getPrevChunkPtr, PREV_OFFSET, ptrSub_eq (by omega) h2, prevOf]

theorem setPrevChunkPtr_eq (h2 : p < 2 ^ 64) : setPrevChunkPtr m p v = m.store (p - 16) v := by
  rw [setPrevChunkPtr, PREV_OFFSET, ptrSub_eq (by omega) h2]

theorem getLeftBorderMarker_eq (h2 : p < 2 ^ 64) : getLeftBorderMarker m p = m.load (p - 8) := by
  rw [getLeftBorderMarker, L_BORDER_MARKER_OFFSET, ptrSub_eq (by omega) h2]

theorem setLeftBorderMarker_eq (h2 : p < 2 ^ 64) :
    setLeftBorderMarker m p v = m.store (p - 8) v := by
  rw [setLeftBorderMarker, L_BORDER_MARKER_OFFSET, ptrSub_eq (by omega) h2]

end

theorem setRightBorderMarker_eq {size : Nat} (h : p + size / 8 * 8 < 2 ^ 64) :
    setRightBorderMarker m p size v = m.store (p + size / 8 * 8) v := by
  rw [setRightBorderMarker, ptrAdd_eq (by omega), Nat.mul_comm]

end Fields

namespace Represents

variable {h : Heap} {lo hi : Nat} {cs : List Chunk} {c : Chunk}

section

variable (hr : Represents h lo cs hi)
include hr

theorem getSize_mem (hc : c ∈ cs) : getSize h.mem c.addr = c.size := by
  obtain ⟨h1, h2⟩ := hr.addr_range hc
  rw [getSize_eq h1 h2, (hr.stored c hc).size]

theorem getLeft_mem (hc : c ∈ cs) : getLeftBorderMarker h.mem c.addr = c.left := by
  obtain ⟨h1, h2⟩ := hr.addr_range hc
  rw [getLeftBorderMarker_eq h1 h2, (hr.stored c hc).left]

theorem getRight_mem (hc : c ∈ cs) : getRightBorderMarker h.mem c.addr = c.right := by
  have hstop := hr.stop_le hc
  unfold Chunk.stop Chunk.marker at hstop
  rw [getRightBorderMarker, hr.getSize_mem hc, ptrAdd_eq (by omega), Nat.mul_comm]
  exact (hr.stored c hc).right

theorem readChunk_mem (hc : c ∈ cs) : readChunk h.mem c.addr = c := by
  rw [readChunk, hr.getSize_mem hc, hr.getLeft_mem hc, hr.getRight_mem hc]

theorem size_lt (hc : c ∈ cs) : c.size < 2 ^ 64 := by
  rw [← (hr.stored c hc).size]
  exact load_lt _ _

end

theorem getPrev_mem (hr : Represents h lo (xs ++ c :: ys) hi) :
    getPrevChunkPtr h.mem c.addr = (xs.map Chunk.addr).getLastD 0 := by
  obtain ⟨h1, h2⟩ := hr.addr_range (c := c) (by simp)
  have hl := hr.linked
  rw [map_append, seg_append] at hl
  rw [getPrevChunkPtr_eq h1 h2]
  exact hl.2.1

theorem getNext_mem (hr : Represents h lo (xs ++ c :: ys) hi) :
    getNextChunkPtr h.mem c.addr = (ys.map Chunk.addr).headD 0 := by
  obtain ⟨h1, h2⟩ := hr.addr_range (c := c) (by simp)
  have hl := hr.linked
  rw [map_append, seg_append] at hl
  rw [getNextChunkPtr_eq h1 h2]
  exact hl.2.2.1

end Represents

/-! ### The frame rule -/

theorem Stored.frame {m : Mem} {c : Chunk} (hs : Stored m c)
    (h : ∀ a, a = c.addr - 32 ∨ a = c.addr - 8 ∨ a = c.marker → m'.load a = m.load a) :
    Stored m' c where
  size := (h _ (.inl rfl)).trans hs.size
  left := (h _ (.inr (.inl rfl))).trans hs.left
  right := (h _ (.inr (.inr rfl))).trans hs.right

theorem Represents.congr {h : Heap} {lo hi : Nat} {cs : List Chunk} (hr : Represents h lo cs hi)
    (hm : ∀ c ∈ cs, ∀ w, c.addr - 32 ≤ w ∧ w < c.addr ∨ w = c.marker →
      m'.load w = h.mem.load w) : Represents ⟨m', h.head⟩ lo cs hi := by
  have hrange := fun (c : Chunk) (hc : c ∈ cs) => hr.addr_range hc
  refine ⟨hr.head, fun c hc => ?_, hr.linked.congr ?_ ?_, hr.spaced, hr.bound⟩
  · have := hrange c hc
    refine (hr.stored c hc).frame fun w hw => hm c hc w ?_
    rcases hw with rfl | rfl | rfl
    · exact .inl (by omega)
    · exact .inl (by omega)
    · exact .inr rfl
  · intro p hp
    obtain ⟨c, hc, rfl⟩ := mem_map.mp hp
    have := hrange c hc
    exact hm c hc _ (.inl (by omega))
  · intro p hp
    obtain ⟨c, hc, rfl⟩ := mem_map.mp hp
    have := hrange c hc
    exact hm c hc _ (.inl (by omega))

/-- `m'` agrees with `m` outside `[s, e)`, but for the previous pointer of the
first chunk of `ys`. -/
def AgreeOutside (m m' : Mem) (s e : Nat) (ys : List Chunk) : Prop :=
  ∀ a, a < s ∨ e ≤ a → (∀ y, ys.head? = some y → a ≠ y.addr - 16) → m'.load a = m.load a

theorem agreeOutside_of_head {m : Mem} {s e s' e' : Nat} (hs : s ≤ s') (he : e' ≤ e)
    (h : ∀ a, a < s' ∨ e' ≤ a → ((ys.map Chunk.addr).headD 0 ≠ 0 →
      a ≠ (ys.map Chunk.addr).headD 0 - 16) → m'.load a = m.load a) :
    AgreeOutside m m' s e ys := by
  intro a ha hne
  refine h a (by omega) ?_
  cases ys with
  | nil => exact fun h0 => absurd rfl h0
  | cons y ys => exact fun _ => hne y rfl

section Frame

variable {m : Mem} {lo hi s e w : Nat} {c : Chunk}

theorem AgreeOutside.front (hm : AgreeOutside m m' s e ys) (hxs : Spaced lo xs s)
    (hys : Spaced e ys hi) (hse : s ≤ e) (hc : c ∈ xs) (hw : w < c.stop) :
    m'.load w = m.load w := by
  have hin := hxs.mem hc
  refine hm w (.inl (by omega)) fun y hy => ?_
  have hyin := hys.mem (mem_of_head? hy)
  omega

theorem AgreeOutside.behind (hm : AgreeOutside m m' s e ys) (hys : Spaced e ys hi) (hc : c ∈ ys)
    (hw : c.addr - 32 ≤ w) (hne : w ≠ c.addr - 16) : m'.load w = m.load w := by
  have hin := hys.mem hc
  refine hm w (.inr (by omega)) fun y hy => ?_
  cases ys with
  | nil => cases hy
  | cons z zs =>
    cases hy
    rcases mem_cons.mp hc with rfl | hc
    · exact hne
    · have hzc := (pairwise_cons.mp hys.pairwise).1 c hc
      have := y.extent
      have := hys.1
      omega

theorem AgreeOutside.behind_prev {y : Chunk} (hm : AgreeOutside m m' s e (y :: ys))
    (hys : Spaced e (y :: ys) hi) (hc : c ∈ ys) : prevOf m' c.addr = prevOf m c.addr := by
  have hyc := (pairwise_cons.mp hys.pairwise).1 c hc
  have hin := hys.mem (mem_cons_of_mem y hc)
  have hst := c.extent
  have hsty := y.extent
  refine hm _ (.inr (by omega)) fun z hz => ?_
  cases hz
  omega

theorem AgreeOutside.seg_front {first last : Nat} (hm : AgreeOutside m m' s e ys)
    (hxs : Spaced lo xs s) (hys : Spaced e ys hi) (hse : s ≤ e)
    (h : Seg (nextOf m) (prevOf m) first (xs.map Chunk.addr) last) :
    Seg (nextOf m') (prevOf m') first (xs.map Chunk.addr) last := by
  have hwords : ∀ c ∈ xs, ∀ w < c.stop, m'.load w = m.load w :=
    fun c hc w => hm.front hxs hys hse hc
  refine h.congr ?_ ?_
  all_goals
    intro p hp
    obtain ⟨c, hc, rfl⟩ := mem_map.mp hp
    have hin := hxs.mem hc
    have hst := c.extent
    exact hwords c hc _ (by omega)

theorem AgreeOutside.seg_behind {first first' last : Nat} (hm : AgreeOutside m m' s e ys)
    (hys : Spaced e ys hi) (hback : ∀ y, ys.head? = some y → prevOf m' y.addr = first')
    (h : Seg (nextOf m) (prevOf m) first (ys.map Chunk.addr) last) :
    Seg (nextOf m') (prevOf m') first' (ys.map Chunk.addr) last := by
  refine h.relink ?_ ?_ ?_
  · intro p hp
    obtain ⟨c, hc, rfl⟩ := mem_map.mp hp
    have hin := hys.mem hc
    have hst := c.extent
    exact hm.behind hys hc (by omega) (by omega)
  · intro p hp
    cases ys with
    | nil => cases hp
    | cons y ys =>
      cases hp
      exact hback y rfl
  · intro p hp
    cases ys with
    | nil => cases hp
    | cons y ys =>
      obtain ⟨c, hc, rfl⟩ := mem_map.mp hp
      exact hm.behind_prev hys hc

end Frame

theorem Represents.edit {h : Heap} {lo hi s e : Nat} (a : Chunk) (old : List Chunk) (b : Chunk)
    (new : List Chunk) (m' : Mem) (hr : Represents h lo (xs ++ (a :: old) ++ ys) hi)
    (haddr : b.addr = a.addr) (hxs : Spaced lo xs s) (hnew : Spaced s (b :: new) e)
    (hys : Spaced e ys hi) (hm : AgreeOutside h.mem m' s e ys)
    (hstored : ∀ c ∈ b :: new, Stored m' c)
    (hlink : Seg (nextOf m') (prevOf m') ((xs.map Chunk.addr).getLastD 0)
      ((b :: new).map Chunk.addr) ((ys.map Chunk.addr).headD 0)) (hback : ∀ y, ys.head? = some y →
      prevOf m' y.addr = ((b :: new).map Chunk.addr).getLastD 0) :
    Represents ⟨m', h.head⟩ lo (xs ++ (b :: new) ++ ys) hi := by
  have hlinked := hr.linked
  rw [map_append, map_append, seg_append, seg_append] at hlinked
  obtain ⟨⟨hlx, -⟩, hly⟩ := hlinked
  refine ⟨?_, ?_, ?_, ?_, hr.bound⟩
  · have := hr.head
    cases xs with
    | nil => simpa [haddr] using this
    | cons x xs => simpa using this
  · intro c hc
    have hst := c.extent
    rcases mem_append.mp hc with hc | hc
    · rcases mem_append.mp hc with hc | hc
      · have hin := hxs.mem hc
        refine (hr.stored c (by simp [hc])).frame fun w hw => hm.front hxs hys hnew.le hc ?_
        rcases hw with rfl | rfl | rfl <;> omega
      · exact hstored c hc
    · have hin := hys.mem hc
      refine (hr.stored c (by simp [hc])).frame fun w hw => hm.behind hys hc ?_ ?_
      · rcases hw with rfl | rfl | rfl <;> omega
      · rcases hw with rfl | rfl | rfl <;> omega
  · rw [map_append, map_append, seg_append, seg_append]
    have hhead : ((b :: new).map Chunk.addr).headD ((ys.map Chunk.addr).headD 0)
        = ((a :: old).map Chunk.addr).headD ((ys.map Chunk.addr).headD 0) := by
      simp [haddr]
    rw [hhead]
    refine ⟨⟨hm.seg_front hxs hys hnew.le hlx, hlink⟩, hm.seg_behind hys (fun y hy => ?_) hly⟩
    rw [hback y hy, getLastD_append, map_cons, getLastD_cons, getLastD_cons]
  · exact spaced_append.mpr ⟨e, spaced_append.mpr ⟨s, hxs, hnew⟩, hys⟩

/-! ### Walking the list -/

theorem Spaced.length_le {lo hi : Nat} {cs : List Chunk} (h : Spaced lo cs hi) :
    lo + 40 * cs.length ≤ hi := by
  induction cs generalizing lo with
  | nil => simpa [Spaced] using h
  | cons c cs ih =>
    have hc := h.1
    have := ih h.2
    have := c.extent
    rw [length_cons]
    omega

section Walk

variable {h : Heap} {lo hi : Nat}

theorem Represents.exists_head {cs : List Chunk} (hr : Represents h lo cs hi) :
    ∃ c ys, cs = c :: ys ∧ c.addr = h.head ∧ ys.length < walkLimit := by
  cases cs with
  | nil =>
    have := hr.head
    simp at this
  | cons c ys =>
    have hlen := hr.spaced.length_le
    have hb := hr.bound
    rw [length_cons] at hlen
    refine ⟨c, ys, rfl, by simpa using hr.head, ?_⟩
    unfold walkLimit
    omega

theorem findChunkLoop_eq {size fuel : Nat} {c : Chunk} (hr : Represents h lo (xs ++ c :: ys) hi)
    (hf : ys.length < fuel) :
    findChunkLoop h.mem size fuel c.addr =
      some ((((c :: ys).find? fun d => size < d.size).map Chunk.addr).getD 0) := by
  induction ys generalizing xs c fuel with
  | nil =>
    obtain ⟨fuel, rfl⟩ := Nat.exists_eq_add_one.mpr hf
    rw [findChunkLoop, hr.getSize_mem (by simp), hr.getNext_mem]
    by_cases hsize : size < c.size
    · simp [hsize]
    · simp [hsize]
  | cons y ys ih =>
    obtain ⟨fuel, rfl⟩ := Nat.exists_eq_add_one.mpr (Nat.zero_lt_of_lt hf)
    have hy := hr.ne_null (c := y) (by simp)
    have hr' : Represents h lo ((xs ++ [c]) ++ y :: ys) hi := by simpa using hr
    have hrest := ih hr' (Nat.lt_of_succ_lt_succ hf)
    rw [findChunkLoop, hr.getSize_mem (by simp), hr.getNext_mem]
    by_cases hsize : size < c.size
    · simp [hsize]
    · simpa [hsize, hy] using hrest

theorem findChunk_eq {size : Nat} {cs : List Chunk} (hr : Represents h lo cs hi) :
    findChunk h.mem h.head size =
      some (((cs.find? fun d => size < d.size).map Chunk.addr).getD 0) := by
  obtain ⟨c, ys, rfl, hhead, hlen⟩ := hr.exists_head
  rw [findChunk, ← hhead]
  exact findChunkLoop_eq (show Represents h lo ([] ++ c :: ys) hi from hr) hlen

theorem printListLoop_eq {fuel : Nat} {c : Chunk} (hr : Represents h lo (xs ++ c :: ys) hi)
    (hf : ys.length < fuel) :
    printListLoop h.mem fuel c.addr = some (c :: ys) := by
  induction ys generalizing xs c fuel with
  | nil =>
    obtain ⟨fuel, rfl⟩ := Nat.exists_eq_add_one.mpr hf
    rw [printListLoop, hr.getNext_mem, hr.readChunk_mem (by simp)]
    simp
  | cons y ys ih =>
    obtain ⟨fuel, rfl⟩ := Nat.exists_eq_add_one.mpr (Nat.zero_lt_of_lt hf)
    have hy := hr.ne_null (c := y) (by simp)
    have hr' : Represents h lo ((xs ++ [c]) ++ y :: ys) hi := by simpa using hr
    have hrest := ih hr' (Nat.lt_of_succ_lt_succ hf)
    rw [printListLoop, hr.getNext_mem, hr.readChunk_mem (by simp)]
    simp [hy, hrest]

theorem printList_eq {cs : List Chunk} (hr : Represents h lo cs hi) : printList h = some cs := by
  obtain ⟨c, ys, rfl, hhead, hlen⟩ := hr.exists_head
  rw [printList, ← hhead]
  exact printListLoop_eq (show Represents h lo ([] ++ c :: ys) hi from hr) hlen

theorem onList_iff {cs : List Chunk} (hr : Represents h lo cs hi) {d : Nat} :
    OnList h d ↔ ∃ c ∈ cs, c.addr = d := by
  constructor
  · intro hd
    induction hd with
    | head =>
      have := mem_of_head? hr.head
      simpa using this
    | @next d _ hne ih =>
      obtain ⟨c, hc, rfl⟩ := ih
      obtain ⟨xs, ys, rfl⟩ := append_of_mem hc
      rw [hr.getNext_mem] at hne ⊢
      cases ys with
      | nil => simp at hne
      | cons y ys => exact ⟨y, by simp, by simp⟩
  · rintro ⟨c, hc, rfl⟩
    obtain ⟨xs, ys, rfl⟩ := append_of_mem hc
    clear hc
    -- along the list from its head: the chunk in front of `c` is on it
    induction xs using reverseRecOn generalizing c ys with
    | nil =>
      have hhead : c.addr = h.head := by simpa using hr.head
      rw [hhead]
      exact .head
    | append_singleton xs x ih =>
      rw [append_assoc, singleton_append] at hr
      have hnext := hr.getNext_mem (c := x)
      have hc := hr.ne_null (c := c) (by simp)
      have hx := ih x (c :: ys) hr
      simp only [map_cons, headD_cons] at hnext
      rw [← hnext]
      exact .next hx (hnext ▸ hc)

end Walk

end LinuxWorkouts.Allocator
