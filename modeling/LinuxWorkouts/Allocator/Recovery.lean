/-
Allocate everything, free everything.

`main` asks for a few blocks, gives them back in another order and does so twice.
`full_recovery` is the general statement: whatever whole-word requests fit into
the buffer together, and in whatever order their pointers are given back, the
heap ends as the one free chunk `mysetup` made, so the next round finds the same
heap and gets the same pointers.

The requests are all served from the head, which is carved from its end
(`topDown`, `allocAll_tidy`). The frees may meet every combination of free and
allocated neighbours; the invariant of `Runs` carries them (`freeAll_tidy`), and
a coherent tiling without an allocated chunk is one chunk (`Tidy.recovered`).
-/

import LinuxWorkouts.Allocator.Runs

namespace LinuxWorkouts.Allocator

open WordMemory Transition List

/-- Ask for every size in turn: the heap and the pointers, in the order of the
requests. -/
def allocAll (h : Heap) : List Nat → Option (Heap × List Nat)
  | [] => some (h, [])
  | n :: ns => (myalloc h n).bind fun r => (allocAll r.1 ns).map fun t => (t.1, r.2 :: t.2)

def freeAll (h : Heap) (ps : List Nat) : Heap := ps.foldl myfree h

/-- Requests, and the order their pointers are given back in. -/
structure Round where
  sizes : List Nat
  order : List Nat → List Nat
  perm : ∀ ps, (order ps).Perm ps

def rounds (h : Heap) : List Round → Option Heap
  | [] => some h
  | r :: rs => (allocAll h r.sizes).bind fun t => rounds (freeAll t.1 (r.order t.2)) rs

def demand (ns : List Nat) : Nat := (ns.map fun n => n + METAINFO_SIZE).sum

/-- Requests of whole words that fit into a fresh buffer of `size` bytes. -/
def FitsIn (size : Nat) (ns : List Nat) : Prop :=
  (∀ n ∈ ns, n % 8 = 0) ∧ demand ns + METAINFO_SIZE < size

instance (size : Nat) (ns : List Nat) : Decidable (FitsIn size ns) :=
  inferInstanceAs (Decidable (_ ∧ _))

/-- The heap holds one chunk: the head, with all of the buffer but the metainfo, both
markers `FREE` and no neighbour. -/
structure Recovered (b : Buffer) (h : Heap) : Prop where
  head : h.head = b.base + 8 * HEADER_SIZE
  list : printList h = some [⟨h.head, b.size - METAINFO_SIZE, FREE, FREE⟩]
  next : getNextChunkPtr h.mem h.head = 0
  prev : getPrevChunkPtr h.mem h.head = 0

/-- The pointers carved one below the other from the chunk that ends at `top`. -/
def topDown (top : Nat) : List Nat → List Nat
  | [] => []
  | n :: ns => (top - 8 - n) :: topDown (top - (n + METAINFO_SIZE)) ns

/-! ### Carving from the top -/

theorem topDown_length (top : Nat) (ns : List Nat) : (topDown top ns).length = ns.length := by
  induction ns generalizing top with
  | nil => rfl
  | cons n ns ih => rw [topDown, length_cons, length_cons, ih]

@[simp] theorem demand_cons (n : Nat) (ns : List Nat) : demand (n :: ns) = n + 40 + demand ns := by
  simp [demand, METAINFO_SIZE]

theorem mem_topDown {top : Nat} {ns : List Nat} (hfit : demand ns ≤ top) {e : Nat × Nat}
    (he : e ∈ (topDown top ns).zip ns) : 0 < e.1 ∧ e.1 + e.2 + 8 ≤ top := by
  induction ns generalizing top with
  | nil => cases he
  | cons n ns ih =>
    rw [demand_cons] at hfit
    rcases mem_cons.mp he with rfl | he
    · simp only
      omega
    · have hrest : demand ns ≤ top - (n + METAINFO_SIZE) := by
        unfold METAINFO_SIZE
        omega
      have hin := ih hrest he
      omega

theorem topDown_apart {top : Nat} {ns : List Nat} (hfit : demand ns ≤ top) :
    ((topDown top ns).zip ns).Pairwise fun e f => Apart e.1 e.2 f.1 f.2 := by
  induction ns generalizing top with
  | nil => exact .nil
  | cons n ns ih =>
    rw [demand_cons] at hfit
    have hrest : demand ns ≤ top - (n + METAINFO_SIZE) := by
      unfold METAINFO_SIZE
      omega
    refine pairwise_cons.mpr ⟨fun e he a h1 h2 h3 h4 => ?_, ih hrest⟩
    have hin := (mem_topDown hrest he).2
    unfold METAINFO_SIZE at hin
    simp only at h1
    omega

section Rounds

variable {b : Buffer} {s s' : State} {cs : List Chunk}

/-! ### One round -/

theorem Tidy.alloc_head {c : Chunk} {n : Nat} (ht : Tidy b s (c :: cs)) (hfree : c.left = FREE)
    (hn : n % 8 = 0) (hfit : n + 40 < c.size) :
    ∃ h', myalloc s.heap n = some (h', (c.carved n).addr) ∧
      Tidy b ⟨h', ((c.carved n).addr, n) :: s.live, (c.carved n).addr :: s.returned⟩
        (c.shrunk n :: c.carved n :: cs) := by
  have hsize := ht.rep.size_lt (c := c) (by simp)
  have hwords : WholeWords (.alloc n) := ⟨hn, by unfold METAINFO_SIZE; omega⟩
  have hfits : allocChunks n (c :: cs) = (c.shrunk n :: c.carved n :: cs, (c.carved n).addr) :=
    if_pos hfit
  have hserved : ServedFree s (.alloc n) := by
    intro cs' d hcs' hd
    rw [printList_eq ht.rep] at hcs'
    cases hcs'
    rw [find?_cons_of_pos (p := fun d : Chunk => decide (n + METAINFO_SIZE < d.size))
      (decide_eq_true hfit)] at hd
    cases hd
    exact hfree
  obtain ⟨m', hm', -⟩ := myalloc_allocChunks ht.rep hwords.2
  rw [hfits] at hm'
  refine ⟨_, hm', ?_⟩
  have hnext := (ht.alloc hwords hserved (by rw [Allocator.step, hm']; rfl)).1
  rw [chunkStep, hfits] at hnext
  simpa [Chunk.carved] using hnext

theorem allocAll_tidy {c : Chunk} {ns : List Nat} (ht : Tidy b s (c :: cs))
    (hfree : c.left = FREE) (hword : c.size % 8 = 0) (hns : ∀ n ∈ ns, n % 8 = 0)
    (hfit : demand ns < c.size) :
    ∃ h', allocAll s.heap ns = some (h', topDown (c.addr + c.size + 8) ns) ∧
      ∃ s' cs', s'.heap = h' ∧ Tidy b s' cs' ∧
        (s'.live.map Prod.fst).Perm (topDown (c.addr + c.size + 8) ns ++ s.live.map Prod.fst) := by
  induction ns generalizing s c cs with
  | nil => exact ⟨_, rfl, s, _, rfl, ht, .refl _⟩
  | cons n ns ih =>
    rw [demand_cons] at hfit
    have hn := hns n (by simp)
    obtain ⟨h₁, halloc, ht₁⟩ := ht.alloc_head hfree hn (by omega)
    -- the head of the next request ends where this one begins
    have haddr : (c.carved n).addr = c.addr + c.size + 8 - 8 - n := by
      rw [carved_addr]
      simp only [Chunk.stop, Chunk.marker, Chunk.shrunk]
      omega
    have htop : (c.shrunk n).addr + (c.shrunk n).size + 8 =
        c.addr + c.size + 8 - (n + METAINFO_SIZE) := by
      simp only [Chunk.shrunk, METAINFO_SIZE]
      omega
    have hsize : (c.shrunk n).size = c.size - n - 40 := rfl
    obtain ⟨h', hall, s', cs', hs', ht', hlive⟩ := ih ht₁ hfree (by rw [hsize]; omega)
      (fun k hk => hns k (by simp [hk])) (by rw [hsize]; omega)
    rw [htop] at hall hlive
    refine ⟨h', ?_, s', cs', hs', ht', ?_⟩
    · rw [allocAll, halloc, Option.bind_some, hall, Option.map_some, topDown, haddr]
    · rw [topDown, ← haddr]
      exact hlive.trans perm_middle

theorem freeAll_tidy {qs : List Nat} (ht : Tidy b s cs) (hqs : qs.Perm (s.live.map Prod.fst)) :
    ∃ s' cs', s'.heap = freeAll s.heap qs ∧ Tidy b s' cs' ∧ s'.live = [] := by
  induction qs generalizing s cs with
  | nil => exact ⟨s, cs, rfl, ht, by simpa using hqs⟩
  | cons q qs ih =>
    obtain ⟨e, he, hq⟩ := mem_map.mp (hqs.mem_iff.mp mem_cons_self)
    obtain ⟨e', hfind⟩ := Option.isSome_iff_exists.mp
      (find?_isSome (p := fun e => decide (e.1 = q)).mpr ⟨e, he, by simpa using hq⟩)
    have hq' : e'.1 = q := by simpa using find?_some hfind
    have hstep : step s (.free q) =
        some { s with heap := myfree s.heap q, live := s.live.erase e' } := by
      rw [step, hfind]
      rfl
    have hrest : qs.Perm ((s.live.erase e').map Prod.fst) := by
      have hperm := (perm_cons_erase (mem_of_find?_eq_some hfind)).map Prod.fst
      rw [map_cons, hq'] at hperm
      exact (hqs.trans hperm).cons_inv
    exact ih (ht.free hstep).1 hrest

theorem Tidy.recovered (ht : Tidy b s cs) (hword : b.size % 8 = 0) (hnone : s.live = []) :
    cs = [⟨b.base + 32, b.size - 40, FREE, FREE⟩] ∧ Recovered b s.heap := by
  have hfree : allocated cs = [] := by
    have := ht.live
    rw [hnone] at this
    exact this.symm.eq_nil
  have hlen := coherent_all_free ht.coherent hfree
  obtain ⟨c, rfl⟩ : ∃ c, cs = [c] := by
    refine length_eq_one_iff.mp (Nat.le_antisymm hlen (length_pos_iff.mpr ?_))
    rintro rfl
    exact absurd ht.rep.head (by simp)
  obtain ⟨haddr, hstop⟩ := ht.tiled
  have hround : c.size % 8 = b.size % 8 := ht.rounded.1
  have hsize : c.size = b.size - 40 := by
    simp only [Tiled, Chunk.stop, Chunk.marker] at hstop
    omega
  have hleft : c.left = FREE := by
    refine ((ht.coherent.markers c (by simp)).2).resolve_right fun h => ?_
    rw [allocated_cons_allocated _ h] at hfree
    cases hfree
  have hright := ((ht.coherent.markers c (by simp)).1).trans hleft
  obtain rfl : c = ⟨b.base + 32, b.size - 40, FREE, FREE⟩ := by
    cases c
    simp_all
  have hhead : s.heap.head = b.base + 32 := by simpa using ht.rep.head.symm
  have hrep : Represents s.heap b.base ([] ++ ⟨b.base + 32, b.size - 40, FREE, FREE⟩ :: [])
      (b.base + b.size / 8 * 8) := ht.rep
  refine ⟨rfl, hhead, ?_, ?_, ?_⟩
  · rw [printList_eq ht.rep, hhead]
    rfl
  · rw [hhead]
    exact hrep.getNext_mem
  · rw [hhead]
    exact hrep.getPrev_mem

theorem round_recovered {ns : List Nat} (hword : b.size % 8 = 0) (hfit : FitsIn b.size ns)
    (ht : Tidy b s cs) (hnone : s.live = []) :
    ∃ h', allocAll s.heap ns = some (h', topDown (b.base + b.size) ns) ∧
      ∀ qs, qs.Perm (topDown (b.base + b.size) ns) →
        ∃ s' cs', s'.heap = freeAll h' qs ∧ Tidy b s' cs' ∧ s'.live = [] := by
  obtain ⟨rfl, -⟩ := ht.recovered hword hnone
  obtain ⟨hns, hdemand⟩ := hfit
  unfold METAINFO_SIZE at hdemand
  have htop : b.base + 32 + (b.size - 40) + 8 = b.base + b.size := by omega
  obtain ⟨h', hall, s', cs', rfl, ht', hlive⟩ := allocAll_tidy ht rfl
    (show (b.size - 40) % 8 = 0 by omega) hns (show demand ns < b.size - 40 by omega)
  rw [htop] at hall hlive
  rw [hnone, map_nil, append_nil] at hlive
  exact ⟨_, hall, fun qs hqs => freeAll_tidy ht' (hqs.trans hlive.symm)⟩

/-! ### Any number of rounds -/

theorem rounds_tidy {rs : List Round} (hword : b.size % 8 = 0)
    (hrs : ∀ r ∈ rs, FitsIn b.size r.sizes) (ht : Tidy b s cs) (hnone : s.live = []) :
    ∃ s' cs', rounds s.heap rs = some s'.heap ∧ Tidy b s' cs' ∧ s'.live = [] := by
  induction rs generalizing s cs with
  | nil => exact ⟨s, cs, rfl, ht, hnone⟩
  | cons r rs ih =>
    obtain ⟨h₁, hall, hfree⟩ := round_recovered hword (hrs r (by simp)) ht hnone
    obtain ⟨s₁, cs₁, hs₁, ht₁, hnone₁⟩ := hfree _ (r.perm _)
    obtain ⟨s', cs', hrun, ht', hnone'⟩ := ih (fun r' hr' => hrs r' (by simp [hr'])) ht₁ hnone₁
    refine ⟨s', cs', ?_, ht', hnone'⟩
    rw [rounds, hall, Option.bind_some, ← hs₁, hrun]

end Rounds

/-- **Full recovery.** After `mysetup` and any number of rounds, the heap is the one
free chunk. The requests of a further round all return the same non-null pointers
as in a fresh buffer, with disjoint payloads, and giving the pointers back in any
order recovers the one free chunk again. -/
theorem full_recovery (b : Buffer) (m : Mem) (hword : b.size % 8 = 0) (rs : List Round)
    (ns : List Nat) (hrs : ∀ r ∈ rs, FitsIn b.size r.sizes) (hns : FitsIn b.size ns) :
    ∃ h, rounds (mysetup m b.base b.size) rs = some h ∧ Recovered b h ∧
      ∃ h' ps, allocAll h ns = some (h', ps) ∧
        ps = topDown (b.base + b.size) ns ∧ ps.length = ns.length ∧ (∀ p ∈ ps, p ≠ 0) ∧
        (ps.zip ns).Pairwise (fun e f => Apart e.1 e.2 f.1 f.2) ∧
        ∀ qs, qs.Perm ps → Recovered b (freeAll h' qs) := by
  have hdemand := hns.2
  unfold METAINFO_SIZE at hdemand
  have hfit : demand ns ≤ b.base + b.size := by omega
  obtain ⟨s, cs, hrun, ht, hnone⟩ := rounds_tidy hword hrs (start_tidy b m (by omega)) rfl
  obtain ⟨h', hall, hfree⟩ := round_recovered hword hns ht hnone
  have hlen := topDown_length (b.base + b.size) ns
  refine ⟨s.heap, hrun, (ht.recovered hword hnone).2, h', _, hall, rfl, hlen, ?_,
    topDown_apart hfit, ?_⟩
  · intro p hp
    obtain ⟨i, hi, rfl⟩ := getElem_of_mem hp
    have hmem : ((topDown (b.base + b.size) ns)[i], ns[i]) ∈
        (topDown (b.base + b.size) ns).zip ns :=
      mem_iff_getElem.mpr ⟨i, by simpa [hlen] using hi, by simp⟩
    exact (mem_topDown hfit hmem).1.ne'
  · intro qs hqs
    obtain ⟨s', cs', hs', ht', hnone'⟩ := hfree qs hqs
    rw [← hs']
    exact (ht'.recovered hword hnone').2

def page : Buffer :=
  ⟨65536, 4096, smallBuffer.aligned, smallBuffer.mapped, by decide⟩

def mainRound : Round where
  sizes := [64, 128, 256, 1024, 2048, 64, 64, 32]
  order
    | [p1, p2, p3, p4, p5, p6, p7, p8] => [p3, p4, p7, p8, p6, p5, p1, p2]
    | ps => ps
  perm ps := by
    split
    · refine perm_iff_count.mpr fun a => ?_
      simp only [count_cons, count_nil]
      omega
    · exact .refl _

/-- The two rounds of `main`. -/
theorem full_recovery_main :
    ∃ h, rounds (mysetup zeroMem page.base page.size) [mainRound, mainRound] = some h ∧
      Recovered page h := by
  have hfit : FitsIn page.size mainRound.sizes := by decide
  have hrs : ∀ r ∈ [mainRound, mainRound], FitsIn page.size r.sizes := by simpa using hfit
  obtain ⟨h, hrun, hrec, -⟩ := full_recovery page zeroMem (by decide) _ _ hrs hfit
  exact ⟨h, hrun, hrec⟩

end LinuxWorkouts.Allocator
