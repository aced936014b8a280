/-
The client's writes and the allocator.

The headers and markers lie in the memory the client writes to, so nothing but
their place keeps a write from steering the allocator. `writes_invisible` says
that with requests of whole words they are out of reach: the run without the
client's writes returns the same pointers and prints the same list. The two runs
go through the same chunk lists, which `Tidy.next` computes without the memory.

`writes_visible` is the other side. The right marker of a request that is not a
multiple of the word size stands in the request's last bytes, and a byte written
there makes `myfree` take the chunk for a free one.
-/

import LinuxWorkouts.Allocator.Runs

namespace LinuxWorkouts.Allocator

open WordMemory Transition

def Op.ofAllocator : Op → Bool
  | .write _ _ => false
  | _ => true

/-- Two states that the allocator cannot tell apart: the same chunk list, the same
live pointers and the same pointers returned. -/
structure Alike (b : Buffer) (s t : State) (cs : List Chunk) : Prop where
  left : Tidy b s cs
  right : Tidy b t cs
  live : t.live = s.live
  returned : t.returned = s.returned

section Simulation

variable {b : Buffer} {s t s' : State} {cs : List Chunk}

section

variable (h : Alike b s t cs)
include h

theorem Alike.servedFree {op : Op} (hg : ServedFree s op) : ServedFree t op := by
  cases op with
  | alloc n =>
    have hs := printList_eq h.left.rep
    have ht := printList_eq h.right.rep
    exact fun cs' c hcs' hc => hg cs' c (hs.trans (ht.symm.trans hcs')) hc
  | free p => trivial
  | write a v => trivial

theorem Alike.step_right {op : Op} (hop : op.ofAllocator) (hn : WholeWords op)
    (hs : step s op = some s') :
    ∃ t', step t op = some t' ∧ t'.live = s'.live := by
  cases op with
  | write a v => cases hop
  | alloc n =>
    obtain ⟨m₁, hm₁, -⟩ := myalloc_allocChunks h.left.rep hn.2
    obtain ⟨m₂, hm₂, -⟩ := myalloc_allocChunks h.right.rep hn.2
    rw [step, hm₁] at hs
    cases hs
    refine ⟨_, by rw [step, hm₂]; rfl, ?_⟩
    simp only [h.live]
  | free p =>
    obtain ⟨e, hfind, rfl⟩ := Option.map_eq_some_iff.mp hs
    refine ⟨_, by rw [step, h.live, hfind]; rfl, ?_⟩
    rfl

theorem Alike.next {op : Op} (hop : op.ofAllocator) (hn : WholeWords op) (hg : ServedFree s op)
    (hs : step s op = some s') :
    ∃ t', Allocator.step t op = some t' ∧ Alike b s' t' (chunkStep cs op) := by
  obtain ⟨t', ht', hlive⟩ := h.step_right hop hn hs
  obtain ⟨hleft, hret⟩ := h.left.next hn hg hs
  obtain ⟨hright, hret'⟩ := h.right.next hn (h.servedFree hg) ht'
  refine ⟨t', ht', hleft, hright, hlive, ?_⟩
  rw [hret, hret', h.returned]

theorem Alike.write {op : Op} (hop : ¬ op.ofAllocator) (hs : step s op = some s') :
    Alike b s' t cs := by
  cases op with
  | alloc n => exact absurd rfl hop
  | free p => exact absurd rfl hop
  | write a v =>
    obtain ⟨hleft, hret⟩ := h.left.write hs
    refine ⟨hleft, h.right, ?_, h.returned.trans hret.symm⟩
    rw [step] at hs
    split at hs
    · cases hs
      exact h.live
    · cases hs

end

end Simulation

/-- **Non-interference.** On a buffer of at least one header and marker, for requests of
whole words that are served from free chunks: the run without the client's writes
goes through, returns the same pointers and ends with the same chunk list. -/
theorem writes_invisible (b : Buffer) (m : Mem) (ops : List Op) (s : State) (hsize : 40 ≤ b.size)
    (hops : ∀ op ∈ ops, WholeWords op) (hserved : Along step ServedFree (start b m) ops)
    (hs : run step (start b m) ops = some s) :
    ∃ t cs, run step (start b m) (ops.filter Op.ofAllocator) = some t ∧
      t.returned = s.returned ∧ printList s.heap = some cs ∧ printList t.heap = some cs := by
  have htidy := start_tidy b m hsize
  have hkeep : ∀ s t op s', op ∈ ops → (∃ cs, Alike b s t cs) → op.ofAllocator → ServedFree s op →
      step s op = some s' → ∃ t', step t op = some t' ∧ ∃ cs, Alike b s' t' cs := by
    intro s t op s' hop ⟨cs, h⟩ hk hg hs
    obtain ⟨t', ht', h'⟩ := h.next hk (hops op hop) hg hs
    exact ⟨t', ht', _, h'⟩
  have hskip : ∀ s t op s', (∃ cs, Alike b s t cs) → ¬ op.ofAllocator → ServedFree s op →
      step s op = some s' → ∃ cs, Alike b s' t cs :=
    fun s t op s' ⟨cs, h⟩ hk _ hs => ⟨cs, h.write hk hs⟩
  obtain ⟨t, ht, cs, h⟩ := run_filter hkeep hskip ⟨_, htidy, htidy, rfl, rfl⟩ hserved hs
  exact ⟨t, cs, ht, h.returned, printList_eq h.left.rep, printList_eq h.right.rep⟩

/-- The run `reuse`, with and without its write. -/
theorem writes_invisible_reuse :
    ∃ s t cs, run step (start smallBuffer zeroMem) reuse = some s ∧
      run step (start smallBuffer zeroMem) (reuse.filter Op.ofAllocator) = some t ∧
      t.returned = s.returned ∧ printList s.heap = some cs ∧ printList t.heap = some cs := by
  have hsome : (run step (start smallBuffer zeroMem) reuse).isSome := by decide +kernel
  obtain ⟨s, hs⟩ := Option.isSome_iff_exists.mp hsome
  have hwords : ∀ op ∈ reuse, WholeWords op := by simp [reuse, WholeWords, METAINFO_SIZE]
  obtain ⟨t, cs, h⟩ := writes_invisible smallBuffer zeroMem reuse s (by decide) hwords
    (by decide +kernel) hs
  exact ⟨s, t, cs, hs, h⟩

/-- Four bytes are asked for, the first is set to 1, the pointer is freed and 100 bytes
are asked for. -/
def spoil : List Op := [.alloc 4, .write 65720 1, .free 65720, .alloc 100]

/-- The byte is the right marker of the chunk, `myfree` takes the chunk for free and
leaves it alone: the last request gets `NULL`. Without the write it is served. -/
theorem writes_visible :
    Along step ServedFree (start smallBuffer zeroMem) spoil ∧
      (run step (start smallBuffer zeroMem) spoil).map State.returned = some [0, 65720] ∧
      (run step (start smallBuffer zeroMem) (spoil.filter Op.ofAllocator)).map State.returned =
        some [65624, 65720] := by
  decide +kernel

end LinuxWorkouts.Allocator
