/-
Requests whose size wraps.

`myalloc` adds the metainfo to the request modulo `2 ^ 64`, and `mycalloc` multiplies
before that, so a request near the top of the address space is compared as a
small one. `myalloc_fresh` is the pointer such a call returns on a heap that was just set up;
`requests_inside_iff` says for which sizes the bytes that were asked for lie
in the buffer.
-/

import LinuxWorkouts.Allocator.Runs
import LinuxWorkouts.Allocator.Zeroing

namespace LinuxWorkouts.Allocator

open WordMemory Option

/-- The call returns, and where it returns a pointer `bytes` bytes at it lie in the
buffer. -/
def Inside (b : Buffer) (bytes : Nat) (result : Option (Heap × Nat)) : Prop :=
  ∃ h' p, result = some (h', p) ∧ (p ≠ 0 → b.base ≤ p ∧ p + bytes ≤ b.base + b.size)

/-- `bytes` bytes are a request that does not wrap with its metainfo, or one that finds no
chunk even as it is compared, or one whose chunk would start at the end of the address space, so
that its pointer is `NULL`. -/
def Answerable (b : Buffer) (bytes : Nat) : Prop :=
  bytes + METAINFO_SIZE < 2 ^ 64 ∨
    b.size - METAINFO_SIZE ≤ wadd bytes METAINFO_SIZE ∨
    b.base + 72 + (b.size - METAINFO_SIZE - wadd bytes METAINFO_SIZE) / 8 * 8 = 2 ^ 64

section Pointer

variable {h : Heap} {lo hi : Nat} {cs : List Chunk}

theorem myalloc_pointer (hr : Represents h lo cs hi) (n : Nat) :
    ∃ h', myalloc h n = some (h', match cs.find? fun d => wadd n METAINFO_SIZE < d.size with
      | none => 0
      | some c => chunkInitMetainfo
          (ptrAdd c.addr (wsub c.size (wadd n METAINFO_SIZE) / 8 + 1))) := by
  cases hfind : cs.find? fun d => decide (wadd n METAINFO_SIZE < d.size) with
  | none =>
    refine ⟨h, ?_⟩
    simp only [myalloc, findChunk_eq hr, hfind, map_none, getD_none, if_true]
  | some c =>
    have hc := List.mem_of_find?_eq_some hfind
    have h0 := hr.ne_null hc
    simp only [myalloc, findChunk_eq hr, hfind, map_some, getD_some, if_neg h0,
      hr.getSize_mem hc, makeChunk]
    exact ⟨_, rfl⟩

end Pointer

section Fresh

variable {b : Buffer} {m : Mem}

/-- The pointer for a request that is compared as `realSize`, on a new heap. -/
def freshPointer (b : Buffer) (realSize : Nat) : Nat :=
  if realSize < b.size - METAINFO_SIZE then
    (b.base + 72 + (b.size - METAINFO_SIZE - realSize) / 8 * 8) % 2 ^ 64
  else 0

theorem myalloc_fresh (m : Mem) (hsize : METAINFO_SIZE ≤ b.size) (n : Nat) :
    ∃ h', myalloc (mysetup m b.base b.size) n =
      some (h', freshPointer b (wadd n METAINFO_SIZE)) := by
  have hfits := b.fits
  obtain ⟨h', hrun⟩ := myalloc_pointer (mysetup_represents m hsize b.fits) n
  refine ⟨h', hrun.trans ?_⟩
  generalize wadd n METAINFO_SIZE = real
  by_cases hlt : real < b.size - 40
  · have hold : wsub (b.size - 40) real = b.size - 40 - real :=
      wsub_of_le (Nat.le_of_lt hlt) (by omega)
    have hfind : [(⟨b.base + 32, b.size - 40, FREE, FREE⟩ : Chunk)].find?
        (fun d => decide (real < d.size)) = some ⟨b.base + 32, b.size - 40, FREE, FREE⟩ := by
      simp [hlt]
    have hnew : chunkInitMetainfo (ptrAdd (b.base + 32) ((b.size - 40 - real) / 8 + 1)) =
        (b.base + 72 + (b.size - 40 - real) / 8 * 8) % 2 ^ 64 := by
      unfold chunkInitMetainfo HEADER_SIZE ptrAdd wadd
      omega
    rw [hfind, freshPointer, METAINFO_SIZE, if_pos hlt]
    simp only [hold, hnew]
  · have hfind : [(⟨b.base + 32, b.size - 40, FREE, FREE⟩ : Chunk)].find?
        (fun d => decide (real < d.size)) = none := by
      simp [hlt]
    rw [hfind, freshPointer, METAINFO_SIZE, if_neg hlt]

theorem mycalloc_fresh (m : Mem) (hsize : METAINFO_SIZE ≤ b.size) (numitems size : Nat) :
    ∃ h', mycalloc (mysetup m b.base b.size) numitems size =
      some (h', freshPointer b (wadd (numitems * size) METAINFO_SIZE)) := by
  obtain ⟨h', hrun⟩ := myalloc_fresh m hsize (numitems * size % 2 ^ 64)
  have hreal : wadd (numitems * size % 2 ^ 64) METAINFO_SIZE =
      wadd (numitems * size) METAINFO_SIZE :=
    Nat.mod_add_mod _ _ _
  rw [hreal] at hrun
  generalize wadd (numitems * size) METAINFO_SIZE = real at *
  simp only [mycalloc, hrun, bind_eq_bind, bind_some]
  by_cases h0 : freshPointer b real = 0
  · rw [if_pos h0, h0]
    exact ⟨_, rfl⟩
  · have haligned : freshPointer b real % 8 = 0 := by
      have := b.aligned
      unfold freshPointer
      split <;> omega
    have hlt : freshPointer b real < 2 ^ 64 := by
      unfold freshPointer
      split <;> omega
    obtain ⟨m', hzero, -⟩ := setzero_spec h'.mem hlt haligned
      (Nat.mod_lt (numitems * size) (show 0 < 2 ^ 64 by decide))
    rw [if_neg h0, hzero]
    exact ⟨_, rfl⟩

theorem freshPointer_inside_iff (hsize : METAINFO_SIZE ≤ b.size) (bytes : Nat) :
    (freshPointer b (wadd bytes METAINFO_SIZE) ≠ 0 →
      b.base ≤ freshPointer b (wadd bytes METAINFO_SIZE) ∧
        freshPointer b (wadd bytes METAINFO_SIZE) + bytes ≤ b.base + b.size) ↔
      Answerable b bytes := by
  have hmapped := b.mapped
  have hfits := b.fits
  unfold Answerable freshPointer wadd METAINFO_SIZE at *
  split
  · omega
  · omega

end Fresh

/-- **Requests on a new heap.** In a buffer that holds its own metainfo, the bytes a call of
`myalloc` or `mycalloc` was asked for lie in the buffer, if it returns a pointer,
exactly when the size is answerable; for `mycalloc` that is the product over the natural
numbers. -/
theorem requests_inside_iff (b : Buffer) (m : Mem) (hsize : METAINFO_SIZE ≤ b.size) :
    (∀ n < 2 ^ 64, Inside b n (myalloc (mysetup m b.base b.size) n) ↔ Answerable b n) ∧
      ∀ numitems < 2 ^ 64, ∀ size < 2 ^ 64,
        Inside b (numitems * size) (mycalloc (mysetup m b.base b.size) numitems size) ↔
          Answerable b (numitems * size) := by
  have hinside : ∀ {bytes : Nat} {r : Option (Heap × Nat)},
      (∃ h', r = some (h', freshPointer b (wadd bytes METAINFO_SIZE))) →
      (Inside b bytes r ↔ Answerable b bytes) := by
    rintro bytes r ⟨h', rfl⟩
    rw [← freshPointer_inside_iff hsize]
    constructor
    · rintro ⟨h'', p, heq, hp⟩
      cases heq
      exact hp
    · exact fun hp => ⟨h', _, rfl, hp⟩
  constructor
  · exact fun n _ => hinside (myalloc_fresh m hsize n)
  · exact fun numitems _ size _ => hinside (mycalloc_fresh m hsize numitems size)

/-- 64 bytes, and four items of sixteen, are served inside of a buffer of 200 bytes. -/
theorem requests_inside_iff_small :
    METAINFO_SIZE ≤ smallBuffer.size ∧
      Inside smallBuffer 64 (myalloc (mysetup zeroMem smallBuffer.base smallBuffer.size) 64) ∧
      Inside smallBuffer (4 * 16)
        (mycalloc (mysetup zeroMem smallBuffer.base smallBuffer.size) 4 16) := by
  obtain ⟨halloc, hcalloc⟩ := requests_inside_iff smallBuffer zeroMem (by decide)
  exact ⟨by decide, (halloc 64 (by decide)).mpr (.inl (by decide)),
    (hcalloc 4 (by decide) 16 (by decide)).mpr (.inl (by decide))⟩

/-- A request of `2 ^ 64 - 40` bytes is compared as one of no bytes, and the pointer lies behind
the end of the buffer of 200 bytes; `2 ^ 63 + 4` items of two bytes are served with 8 bytes. -/
theorem wrapped_requests_served :
    (myalloc (mysetup zeroMem 65536 200) (2 ^ 64 - 40)).map Prod.snd = some 65768 ∧
      (mycalloc (mysetup zeroMem 65536 200) (2 ^ 63 + 4) 2).map Prod.snd = some 65720 ∧
      ¬ Inside smallBuffer (2 ^ 64 - 40) (myalloc (mysetup zeroMem 65536 200) (2 ^ 64 - 40)) ∧
      ¬ Inside smallBuffer ((2 ^ 63 + 4) * 2)
        (mycalloc (mysetup zeroMem 65536 200) (2 ^ 63 + 4) 2) := by
  have houtside : ∀ {bytes p : Nat} {r : Option (Heap × Nat)}, r.map Prod.snd = some p → p ≠ 0 →
      65736 < p + bytes → ¬ Inside smallBuffer bytes r := by
    rintro bytes p r hr hp hend ⟨h', p', rfl, hin⟩
    cases hr
    exact absurd (hin hp).2 (Nat.not_le_of_lt hend)
  have halloc : (myalloc (mysetup zeroMem 65536 200) (2 ^ 64 - 40)).map Prod.snd = some 65768 := by
    decide +kernel
  have hcalloc : (mycalloc (mysetup zeroMem 65536 200) (2 ^ 63 + 4) 2).map Prod.snd =
      some 65720 := by decide +kernel
  exact ⟨halloc, hcalloc, houtside halloc (by decide) (by decide),
    houtside hcalloc (by decide) (by decide)⟩

end LinuxWorkouts.Allocator
