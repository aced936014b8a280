/-
Requests of any number of bytes.

The stored sizes keep their residue modulo the word size while addresses are
rounded down to words. `merge_chunks` adds two stored sizes, so where the two
residues together make another word the merged chunk ends a word later than its
right half did. `extents_apart` says what keeps the list sound: as long as the
freed pointers are chunks of the list and every merge has room for that word, the
extents of the listed chunks stay apart and inside the buffer. `extents_overlap`
is a run of three requests where a merge has no room, although every request was
served from a free chunk.
-/

import LinuxWorkouts.Allocator.Runs

namespace LinuxWorkouts.Allocator

open WordMemory Transition

/-- The extents of the chunks on the list, from the size word of the header to the
right border marker, lie in the buffer and do not meet. -/
structure ExtentsApart (b : Buffer) (h : Heap) : Prop where
  inside : ∀ p, OnList h p → b.base + 8 * HEADER_SIZE ≤ p ∧
    rightMarkerAddr h.mem p + 8 ≤ b.base + b.size
  disjoint : ∀ p q, OnList h p → OnList h q → p ≠ q →
    rightMarkerAddr h.mem p + 8 ≤ q - 8 * HEADER_SIZE ∨
      rightMarkerAddr h.mem q + 8 ≤ p - 8 * HEADER_SIZE

/-- The chunk at `p` is on the list and the merges that freeing it makes have room. -/
def HasRoom (cs : List Chunk) (p hi : Nat) : Prop :=
  match cs.dropWhile fun d => d.addr ≠ p with
  | [] => False
  | c :: ys => c.right ≠ FREE → c.left ≠ FREE →
      FreeFits (cs.takeWhile fun d => d.addr ≠ p).getLast? c ys hi

instance (cs : List Chunk) (p hi : Nat) : Decidable (HasRoom cs p hi) := by
  unfold HasRoom
  split <;> infer_instance

/-- The condition on a step: a freed pointer is a chunk of the list, and its merges
have room. -/
def RoomToMerge (b : Buffer) (s : State) : Op → Prop
  | .free p => ∃ cs ∈ printList s.heap, HasRoom cs p (b.base + b.size)
  | _ => True

instance (b : Buffer) (s : State) : ∀ op, Decidable (RoomToMerge b s op)
  | .alloc _ => .isTrue trivial
  | .free _ => inferInstanceAs (Decidable (∃ cs ∈ printList s.heap, _))
  | .write _ _ => .isTrue trivial

def Unwrapped : Op → Prop
  | .alloc n => n + METAINFO_SIZE < 2 ^ 64
  | .free _ => True
  | .write _ _ => False

section Invariant

variable {b : Buffer} {s s' : State} {cs : List Chunk} {hi p : Nat}

theorem HasRoom.split (h : HasRoom cs p hi) :
    ∃ xs c ys, cs = xs ++ c :: ys ∧ c.addr = p ∧
      (c.right ≠ FREE → c.left ≠ FREE → FreeFits xs.getLast? c ys hi) := by
  unfold HasRoom at h
  split at h
  · exact h.elim
  · rename_i c ys hdrop
    refine ⟨cs.takeWhile fun d => d.addr ≠ p, c, ys, ?_, ?_, h⟩
    · rw [← hdrop, List.takeWhile_append_dropWhile]
    · have := List.head?_dropWhile_not (fun d : Chunk => decide (d.addr ≠ p)) cs
      rw [hdrop] at this
      simpa using this

theorem Represents.extentsApart {h : Heap} (hr : Represents h b.base cs (b.base + b.size)) :
    ExtentsApart b h := by
  have hmark : ∀ c ∈ cs, rightMarkerAddr h.mem c.addr + 8 = c.stop := by
    intro c hc
    rw [hr.rightMarkerAddr_mem hc, Chunk.stop]
  refine ⟨fun p hp => ?_, fun p q hp hq hne => ?_⟩
  · obtain ⟨c, hc, rfl⟩ := (onList_iff hr).mp hp
    rw [hmark c hc]
    exact hr.spaced.mem hc
  · obtain ⟨c, hc, rfl⟩ := (onList_iff hr).mp hp
    obtain ⟨d, hd, rfl⟩ := (onList_iff hr).mp hq
    rw [hmark c hc, hmark d hd, HEADER_SIZE]
    rcases hr.spaced.apart hc hd with rfl | h | h
    · exact absurd rfl hne
    · exact .inl (by omega)
    · exact .inr (by omega)

theorem represents_step {op : Op} (hr : Represents s.heap b.base cs (b.base + b.size))
    (hop : Unwrapped op) (hroom : RoomToMerge b s op) (hs : step s op = some s') :
    ∃ cs', Represents s'.heap b.base cs' (b.base + b.size) := by
  cases op with
  | write a v => exact hop.elim
  | alloc n =>
    obtain ⟨m', hm', hrep⟩ := myalloc_allocChunks hr hop
    rw [step, hm'] at hs
    cases hs
    exact ⟨_, hrep⟩
  | free p =>
    obtain ⟨e, -, rfl⟩ := Option.map_eq_some_iff.mp hs
    obtain ⟨cs₁, hcs₁, hroom⟩ := hroom
    rw [printList_eq hr] at hcs₁
    cases hcs₁
    obtain ⟨xs, c, ys, rfl, rfl, hfit⟩ := hroom.split
    obtain ⟨cs', -, hrep⟩ := myfree_represents hr hfit
    exact ⟨cs', hrep⟩

end Invariant

/-- **Extents over whole runs.** From `mysetup` on a buffer of at least one header and
marker, for requests of any size, the extents of the listed chunks are apart and
inside the buffer in every state reached, as long as every freed pointer is a
chunk of the list whose merges have room. -/
theorem extents_apart (b : Buffer) (m : Mem) (ops : List Op) (hsize : 40 ≤ b.size)
    (hops : ∀ op ∈ ops, Unwrapped op) (hroom : Along step (RoomToMerge b) (start b m) ops) :
    Always step (fun s => ExtentsApart b s.heap) (start b m) ops := by
  refine always_of_along (I := fun s => ∃ cs, Represents s.heap b.base cs (b.base + b.size))
    ?_ ?_ ⟨_, mysetup_represents m hsize b.fits⟩ hroom
  · exact fun s ⟨cs, hr⟩ => hr.extentsApart
  · exact fun s op s' hop ⟨cs, hr⟩ hg hs => represents_step hr (hops op hop) hg hs

def mediumBuffer : Buffer :=
  ⟨65536, 240, smallBuffer.aligned, smallBuffer.mapped, by decide⟩

def oddRun : List Op := [.alloc 5, .alloc 6, .free 65760, .alloc 1, .free 65712]

theorem extents_apart_odd :
    (run step (start mediumBuffer zeroMem) oddRun).isSome ∧
      Always step (fun s => ExtentsApart mediumBuffer s.heap)
        (start mediumBuffer zeroMem) oddRun := by
  refine ⟨by decide +kernel, extents_apart mediumBuffer zeroMem oddRun (by decide) ?_
    (by decide +kernel)⟩
  simp [oddRun, Unwrapped, METAINFO_SIZE]

/-- Every request is served from a free chunk. When the last pointer is freed, the list
holds chunks of 26, 8 and 6 bytes without a spare word between them. -/
def carryRun : List Op :=
  [.alloc 40, .alloc 6, .alloc 8, .free 65728, .free 65680, .alloc 40, .free 65632]

/-- The three chunks are merged into one of 120 bytes, whose marker is the size word
of the live chunk behind it. -/
theorem extents_overlap :
    (∀ op ∈ carryRun, Unwrapped op) ∧ Along step ServedFree (start mediumBuffer zeroMem) carryRun ∧
      ∃ s, run step (start mediumBuffer zeroMem) carryRun = some s ∧
        ¬ ExtentsApart mediumBuffer s.heap := by
  refine ⟨by simp [carryRun, Unwrapped, METAINFO_SIZE], by decide +kernel, ?_⟩
  have hend : (run step (start mediumBuffer zeroMem) carryRun).map
      (fun s => (s.heap.head, getNextChunkPtr s.heap.mem 65568, getSize s.heap.mem 65568)) =
      some (65568, 65720, 120) := by decide +kernel
  obtain ⟨s, hs, heq⟩ := Option.map_eq_some_iff.mp hend
  simp only [Prod.mk.injEq] at heq
  obtain ⟨hhead, hnext, hsize⟩ := heq
  refine ⟨s, hs, fun hapart => ?_⟩
  have h1 : OnList s.heap 65568 := hhead ▸ .head
  have h2 : OnList s.heap 65720 := hnext ▸ h1.next (by rw [hnext]; decide)
  have hmark : rightMarkerAddr s.heap.mem 65568 = 65688 := by rw [rightMarkerAddr, hsize]
  rcases hapart.disjoint _ _ h1 h2 (by decide) with h | h
  · rw [hmark] at h
    exact absurd h (by decide)
  · have : 65720 ≤ rightMarkerAddr s.heap.mem 65720 := Nat.le_add_right _ _
    unfold HEADER_SIZE at h
    omega

end LinuxWorkouts.Allocator
