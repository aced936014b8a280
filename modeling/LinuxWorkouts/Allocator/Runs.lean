/-
Runs of the allocator with its client.

A client asks for memory, gives back pointers it holds and writes bytes into
them. `step` is one such action; `State.live` records the pointers the client
holds with the sizes it asked for, `State.returned` every result of `myalloc`.

`payloads_safe_iff` is the safety result over whole runs. The payloads stay
inside the buffer, apart from each other and from every header and marker
exactly as long as each request is served from a chunk that is marked `FREE`:
`find_chunk` reads the markers and does not test them, so a request that only
fits into an allocated chunk is carved out of live memory
(`payloads_overlap`).
-/

import LinuxWorkouts.Allocator.Coalescing
import LinuxWorkouts.Lib.Transition

namespace LinuxWorkouts.Allocator

open WordMemory Transition List

/-- A buffer as the system hands it out: word aligned, not in the page at address
zero and inside the address space. -/
structure Buffer where
  base : Nat
  size : Nat
  aligned : base % 8 = 0
  mapped : 4096 ≤ base
  fits : base + size ≤ 2 ^ 64

/-- What the client does. -/
inductive Op where
  | alloc (n : Nat)
  | free (p : Nat)
  | write (a : Nat) (b : UInt8)
deriving DecidableEq, Repr

/-- The heap, the live pointers with their requested sizes and the pointers
returned so far, `0` for `NULL`. -/
structure State where
  heap : Heap
  live : List (Nat × Nat)
  returned : List Nat

def start (b : Buffer) (m : Mem) : State := ⟨mysetup m b.base b.size, [], []⟩

/-- One action of the client. It frees only live pointers and writes only into the
bytes of a live request. -/
def step (s : State) : Op → Option State
  | .alloc n => (myalloc s.heap n).map fun r =>
    { heap := r.1
      live := if r.2 = 0 then s.live else (r.2, n) :: s.live
      returned := r.2 :: s.returned }
  | .free p => (s.live.find? fun e => e.1 = p).map fun e =>
    { s with heap := myfree s.heap p, live := s.live.erase e }
  | .write a b =>
    if s.live.any fun e => e.1 ≤ a && a < e.1 + e.2 then
      some { s with heap := ⟨s.heap.mem.setByte a b, s.heap.head⟩ }
    else none

/-! ### The property -/

def Apart (p n q k : Nat) : Prop := ∀ a, p ≤ a → a < p + n → q ≤ a → a < q + k → False

/-- The payloads of the live pointers lie in the buffer, do not meet each other and
meet no header and no right border marker of a chunk on the list. -/
structure PayloadsSafe (b : Buffer) (s : State) : Prop where
  inside : ∀ e ∈ s.live, b.base ≤ e.1 ∧ e.1 + e.2 ≤ b.base + b.size
  disjoint : s.live.Pairwise fun e f => Apart e.1 e.2 f.1 f.2
  headers : ∀ e ∈ s.live, ∀ d, OnList s.heap d →
    Apart e.1 e.2 (d - 8 * HEADER_SIZE) (8 * HEADER_SIZE)
  markers : ∀ e ∈ s.live, ∀ d, OnList s.heap d → Apart e.1 e.2 (rightMarkerAddr s.heap.mem d) 8

/-- The first chunk of the list that is larger than the request with its metainfo,
if there is one, is marked `FREE`. -/
def ServedFree (s : State) : Op → Prop
  | .alloc n => ∀ cs c, printList s.heap = some cs →
      cs.find? (fun d => n + METAINFO_SIZE < d.size) = some c → c.left = FREE
  | _ => True

instance (s : State) : ∀ op, Decidable (ServedFree s op)
  | .alloc n =>
    decidable_of_iff (∀ cs ∈ printList s.heap,
      ∀ c ∈ cs.find? (fun d : Chunk => n + METAINFO_SIZE < d.size), c.left = FREE)
      ⟨fun h cs c hcs hc => h cs hcs c hc, fun h cs hcs c hc => h cs c hcs hc⟩
  | .free _ => .isTrue trivial
  | .write _ _ => .isTrue trivial

/-- The requests of a run: whole words, and fewer bytes than the buffer has. -/
def Requests (b : Buffer) (ops : List Op) : Prop :=
  ∀ n, Op.alloc n ∈ ops → n % 8 = 0 ∧ n < b.size

/-! ### The invariant -/

/-- What a run of whole-word requests, each served from a free chunk, keeps: the
heap is a coherent tiling whose allocated chunks are the live pointers. -/
structure Tidy (b : Buffer) (s : State) (cs : List Chunk) : Prop where
  rep : Represents s.heap b.base cs (b.base + b.size / 8 * 8)
  tiled : Tiled b.base cs (b.base + b.size / 8 * 8)
  rounded : Rounded (b.size % 8) cs
  coherent : Coherent cs
  live : s.live.Perm (allocated cs)
  words : ∀ e ∈ s.live, e.2 % 8 = 0

def WholeWords : Op → Prop
  | .alloc n => n % 8 = 0 ∧ n + METAINFO_SIZE < 2 ^ 64
  | _ => True

def chunkStep (cs : List Chunk) : Op → List Chunk
  | .alloc n => (allocChunks n cs).1
  | .free p => coalesce p cs
  | .write _ _ => cs

def returnedStep (cs : List Chunk) (ps : List Nat) : Op → List Nat
  | .alloc n => (allocChunks n cs).2 :: ps
  | _ => ps

section Invariant

variable {b : Buffer} {s s' : State} {cs : List Chunk}

theorem start_tidy (b : Buffer) (m : Mem) (hsize : 40 ≤ b.size) :
    Tidy b (start b m) [⟨b.base + 32, b.size - 40, FREE, FREE⟩] := by
  have hrep := mysetup_represents m hsize b.fits
  have htiled : Tiled b.base [⟨b.base + 32, b.size - 40, FREE, FREE⟩]
      (b.base + b.size / 8 * 8) := by
    refine ⟨rfl, ?_⟩
    simp only [Tiled, Chunk.stop, Chunk.marker]
    omega
  have hbound : b.base + b.size / 8 * 8 ≤ 2 ^ 64 := by
    have := b.fits
    omega
  refine ⟨⟨hrep.head, hrep.stored, hrep.linked, htiled.spaced, hbound⟩, htiled, ?_, ?_, ?_, ?_⟩
  · refine ⟨?_, by simp⟩
    show (b.size - 40) % 8 = b.size % 8
    omega
  · refine ⟨fun c hc => ?_, .singleton _⟩
    rcases mem_singleton.mp hc with rfl
    exact ⟨rfl, .inl rfl⟩
  · rw [allocated_cons_free _ rfl]
    exact .nil
  · simp [start]

section

variable (ht : Tidy b s cs)
include ht

theorem Tidy.chunk {e : Nat × Nat} (he : e ∈ s.live) :
    ∃ c ∈ cs, c.left = ALLOCATED ∧ c.addr = e.1 ∧ c.size = e.2 := by
  obtain ⟨c, hc, hleft, rfl⟩ := mem_allocated.mp (ht.live.mem_iff.mp he)
  exact ⟨c, hc, hleft, rfl, rfl⟩

theorem Tidy.alloc {n : Nat} (hn : WholeWords (.alloc n)) (hserved : ServedFree s (.alloc n))
    (hs : step s (.alloc n) = some s') :
    Tidy b s' (chunkStep cs (.alloc n)) ∧
      s'.returned = returnedStep cs s.returned (.alloc n) := by
  obtain ⟨m', hm', hrep⟩ := myalloc_allocChunks ht.rep hn.2
  obtain ⟨htiled, hround⟩ := tiled_allocChunks ht.tiled ht.rounded hn.1
  obtain ⟨hcoh, hlive⟩ := coherent_allocChunks ht.coherent
    fun d hd => hserved cs d (printList_eq ht.rep) hd
  rw [step, hm'] at hs
  cases hs
  refine ⟨⟨hrep, htiled, hround, hcoh, ?_, ?_⟩, rfl⟩
  · refine List.Perm.trans ?_ hlive.symm
    show (if (allocChunks n cs).2 = 0 then s.live else _).Perm _
    split
    · exact ht.live
    · exact ht.live.cons _
  · intro e he
    simp only at he
    split at he
    · exact ht.words e he
    · rcases mem_cons.mp he with rfl | he
      · exact hn.1
      · exact ht.words e he

theorem Tidy.free_absorbs {p : Nat} (hs : step s (.free p) = some s') :
    ∃ front c behind xs ys l r d, cs = front ++ c :: behind ∧ c.left = ALLOCATED ∧ c.addr = p ∧
      s' = { s with heap := myfree s.heap p, live := s.live.erase (c.addr, c.size) } ∧
      FreeStep cs c (coalesce p cs) ∧
      Represents (myfree s.heap p) b.base (coalesce p cs) (b.base + b.size / 8 * 8) ∧
      Absorbs cs c (coalesce p cs) xs ys l r d := by
  obtain ⟨e, hfind, rfl⟩ := Option.map_eq_some_iff.mp hs
  have he := mem_of_find?_eq_some hfind
  have hp : e.1 = p := by simpa using find?_some hfind
  obtain ⟨c, hc, hleft, haddr, hsize⟩ := ht.chunk he
  have hright := ((ht.coherent.markers c hc).1).trans hleft
  obtain ⟨front, behind, rfl⟩ := append_of_mem hc
  obtain ⟨cs', hfree, hrep⟩ := myfree_represents ht.rep fun _ _ => ht.rounded.freeFits _
  have hcoal := hfree.coalesce ht.tiled ht.rounded (fun d hd => (ht.coherent.markers d hd).1) hleft
    hright
  obtain ⟨xs, ys, l, r, d, habsorbs⟩ := hcoal.absorbs ht.tiled ht.rounded
  have hcs' := hcoal.eq_coalesce ht.rep.spaced
  have hcp : c.addr = p := haddr.trans hp
  have heq : e = (c.addr, c.size) := by rw [haddr, hsize]
  rw [hcp] at hrep hcs'
  subst hcs'
  exact ⟨front, c, behind, xs, ys, l, r, d, rfl, hleft, hcp, by rw [← heq], hfree, hrep, habsorbs⟩

theorem Tidy.free {p : Nat} (hs : step s (.free p) = some s') :
    Tidy b s' (chunkStep cs (.free p)) ∧ s'.returned = s.returned := by
  obtain ⟨front, c, behind, xs, ys, l, r, d, -, hleft, -, rfl, hfree, hrep, habsorbs⟩ :=
    ht.free_absorbs hs
  obtain ⟨htiled, hround⟩ := hfree.tiled ht.tiled ht.rounded
  obtain ⟨hold, hnew⟩ := habsorbs.allocated hleft
  refine ⟨⟨hrep, htiled, hround, habsorbs.coherent ht.coherent, ?_, ?_⟩, rfl⟩
  · show (s.live.erase (c.addr, c.size)).Perm _
    rw [chunkStep, hnew]
    refine (ht.live.erase _).trans ?_
    rw [hold]
    exact (perm_middle.erase _).trans (by simp)
  · exact fun e' he' => ht.words e' (mem_of_mem_erase he')

theorem Tidy.write {a : Nat} {v : UInt8} (hs : step s (.write a v) = some s') :
    Tidy b s' (chunkStep cs (.write a v)) ∧ s'.returned = s.returned := by
  rw [step] at hs
  split at hs
  · rename_i hany
    cases hs
    obtain ⟨e, he, hin⟩ := List.any_eq_true.mp hany
    simp only [Bool.and_eq_true, decide_eq_true_eq] at hin
    obtain ⟨c, hc, -, haddr, hsize⟩ := ht.chunk he
    have hword := ht.words e he
    have hca := ht.tiled.aligned b.aligned c hc
    refine ⟨⟨ht.rep.congr fun d hd w hw => load_setByte_of_ne ?_, ht.tiled, ht.rounded,
      ht.coherent, ht.live, ht.words⟩, rfl⟩
    have hrange := ht.rep.addr_range hd
    unfold Chunk.marker at hw
    rcases ht.rep.spaced.apart hc hd with rfl | h | h
    · omega
    · unfold Chunk.stop Chunk.marker at h
      omega
    · unfold Chunk.stop Chunk.marker at h
      omega
  · cases hs

theorem Tidy.next {op : Op} (hn : WholeWords op) (hserved : ServedFree s op)
    (hs : step s op = some s') :
    Tidy b s' (chunkStep cs op) ∧ s'.returned = returnedStep cs s.returned op := by
  cases op with
  | alloc n => exact ht.alloc hn hserved hs
  | free p => exact ht.free hs
  | write a v => exact ht.write hs

theorem Tidy.payloadsSafe : PayloadsSafe b s := by
  have hword : ∀ e ∈ s.live, ∀ c : Chunk, c.size = e.2 → c.addr + c.size = c.marker := by
    intro e he c hsize
    have := ht.words e he
    unfold Chunk.marker
    omega
  refine ⟨?_, ?_, ?_, ?_⟩
  · intro e he
    obtain ⟨c, hc, -, haddr, hsize⟩ := ht.chunk he
    have hin := ht.rep.spaced.mem hc
    have hm := hword e he c hsize
    unfold Chunk.stop at hin
    omega
  · refine (ht.live.pairwise_iff ?_).mpr ?_
    · exact fun {e f} h a h1 h2 h3 h4 => h a h3 h4 h1 h2
    · refine pairwise_map.mpr ((ht.rep.spaced.pairwise.filter _).imp ?_)
      intro c d hcd a h1 h2 h3 h4
      unfold Chunk.stop Chunk.marker at hcd
      simp only at h1 h2 h3 h4
      omega
  · intro e he d hd a h1 h2 h3 h4
    obtain ⟨c, hc, -, haddr, hsize⟩ := ht.chunk he
    obtain ⟨d', hd', rfl⟩ := (onList_iff ht.rep).mp hd
    have hrange := ht.rep.addr_range hd'
    unfold HEADER_SIZE at h3 h4
    rcases ht.rep.spaced.apart hc hd' with rfl | h | h
    · omega
    · unfold Chunk.stop Chunk.marker at h
      omega
    · unfold Chunk.stop Chunk.marker at h
      omega
  · intro e he d hd a h1 h2 h3 h4
    obtain ⟨c, hc, -, haddr, hsize⟩ := ht.chunk he
    obtain ⟨d', hd', rfl⟩ := (onList_iff ht.rep).mp hd
    have hm := hword e he c hsize
    rw [ht.rep.rightMarkerAddr_mem hd'] at h3 h4
    rcases ht.rep.spaced.apart hc hd' with rfl | h | h
    · omega
    · unfold Chunk.stop Chunk.marker at h
      unfold Chunk.marker at h3 h4
      omega
    · unfold Chunk.stop at h
      omega

end

end Invariant

/-! ### Whole runs -/

def Returns (s : State) : Prop := ∀ n, n + METAINFO_SIZE < 2 ^ 64 → (myalloc s.heap n).isSome

section Runs

variable {b : Buffer} {s s' : State}

theorem requests_wholeWords {ops : List Op} (h : Requests b ops) : ∀ op ∈ ops, WholeWords op := by
  intro op hop
  cases op with
  | alloc n =>
    obtain ⟨h1, h2⟩ := h n hop
    have := b.mapped
    have := b.fits
    refine ⟨h1, ?_⟩
    unfold METAINFO_SIZE
    omega
  | free p => trivial
  | write a v => trivial

theorem Tidy.returns {cs : List Chunk} (ht : Tidy b s cs) : Returns s := by
  intro n hn
  obtain ⟨m', hm', -⟩ := myalloc_allocChunks ht.rep hn
  rw [hm']
  rfl

theorem tidy_of_run {m : Mem} {ops : List Op} (hsize : 40 ≤ b.size)
    (hwords : ∀ op ∈ ops, WholeWords op) (hserved : Along step ServedFree (start b m) ops)
    (hrun : run step (start b m) ops = some s) : ∃ cs, Tidy b s cs := by
  have halways : Always step (fun s => ∃ cs, Tidy b s cs) (start b m) ops := by
    refine always_of_along (fun _ h => h) ?_ ⟨_, start_tidy b m hsize⟩ hserved
    rintro s op s' hop ⟨_, ht⟩ hg hs
    exact ⟨_, (ht.next (hwords op hop) hg hs).1⟩
  exact halways.run hrun

theorem Tidy.overlap {cs : List Chunk} {op : Op} (ht : Tidy b s cs) (hn : WholeWords op)
    (hserved : ¬ ServedFree s op) : ∃ s', step s op = some s' ∧ ¬ PayloadsSafe b s' := by
  cases op with
  | free p => exact absurd trivial hserved
  | write a v => exact absurd trivial hserved
  | alloc n =>
    simp only [ServedFree, printList_eq ht.rep] at hserved
    push Not at hserved
    obtain ⟨cs', c, hcs', hfind, hleft⟩ := hserved
    cases hcs'
    have hc := mem_of_find?_eq_some hfind
    have hfit : n + METAINFO_SIZE < c.size := by simpa using find?_some hfind
    obtain ⟨xs, d, ys, hlist, hxs, hd⟩ := exists_first_fit ⟨c, hc, hfit⟩
    -- the chunk `find_chunk` takes is `c`
    have hdc : d = c := by
      rw [hlist, find_first_fit hxs hd] at hfind
      exact Option.some.inj hfind
    subst hdc
    have hleft' : d.left = ALLOCATED := ((ht.coherent.markers d hc).2).resolve_left hleft
    obtain ⟨m', hm', hrep⟩ := myalloc_allocChunks ht.rep hn.2
    have hlive : (d.addr, d.size) ∈ s.live :=
      ht.live.mem_iff.mpr (mem_allocated.mpr ⟨d, hc, hleft', rfl⟩)
    rw [hlist, allocChunks_fits hxs hd] at hm' hrep
    have hq : (d.carved n).addr ≠ 0 := by simp [Chunk.carved]
    refine ⟨_, by rw [Allocator.step, hm']; rfl, fun hsafe => ?_⟩
    have hmem : (d.addr, d.size) ∈ if (d.carved n).addr = 0 then s.live
        else ((d.carved n).addr, n) :: s.live := by
      rw [if_neg hq]
      exact mem_cons_of_mem _ hlive
    have hon : OnList ⟨m', s.heap.head⟩ (d.carved n).addr :=
      (onList_iff hrep).mpr ⟨d.carved n, by simp, rfl⟩
    have hq' := carved_addr d n
    have hroom : n + 40 < d.size := hd
    refine hsafe.headers _ hmem _ hon ((d.carved n).addr - 32) ?_ ?_ ?_ ?_ <;>
      simp only [Chunk.stop, Chunk.marker, Chunk.shrunk, HEADER_SIZE] at hq' ⊢ <;> omega

/-- **Payload safety over whole runs.** From `mysetup` on a buffer of whole words, and
with requests of whole words below the buffer size, the payloads of the live
pointers are inside the buffer and apart from each other and from all metainfo in
every state reached, exactly when every request is served from a chunk marked
`FREE`. Such runs also never hang in `find_chunk`. -/
theorem payloads_safe_iff (b : Buffer) (m : Mem) (ops : List Op) (hsize : 40 ≤ b.size)
    (hops : Requests b ops) :
    (Always step (PayloadsSafe b) (start b m) ops ↔ Along step ServedFree (start b m) ops) ∧
      (Along step ServedFree (start b m) ops → Always step Returns (start b m) ops) := by
  have hwords := requests_wholeWords hops
  have h0 : ∃ cs, Tidy b (start b m) cs := ⟨_, start_tidy b m hsize⟩
  have hstep : ∀ s op s', op ∈ ops → (∃ cs, Tidy b s cs) → ServedFree s op →
      step s op = some s' → ∃ cs, Tidy b s' cs :=
    fun s op s' hop ⟨_, ht⟩ hserved hs => ⟨_, (ht.next (hwords op hop) hserved hs).1⟩
  refine ⟨⟨fun h => ?_, fun h => ?_⟩, fun h => ?_⟩
  · exact along_of_always hstep (fun s op hop ⟨_, ht⟩ => ht.overlap (hwords op hop)) h0 h
  · exact always_of_along (fun s ⟨_, ht⟩ => ht.payloadsSafe) hstep h0 h
  · exact always_of_along (fun s ⟨_, ht⟩ => ht.returns) hstep h0 h

end Runs

def smallBuffer : Buffer := ⟨65536, 200, by decide, by decide, by decide⟩

def zeroMem : Mem := ⟨fun _ => 0⟩

/-- A run on the safe side: two requests, a write into the first, the second given
back and its space used again. -/
def reuse : List Op := [.alloc 16, .alloc 24, .write 65720 7, .free 65648, .alloc 8]

theorem payloads_safe_reuse :
    (run step (start smallBuffer zeroMem) reuse).isSome ∧
      Along step ServedFree (start smallBuffer zeroMem) reuse ∧
      Always step (PayloadsSafe smallBuffer) (start smallBuffer zeroMem) reuse := by
  have h : Along step ServedFree (start smallBuffer zeroMem) reuse := by decide +kernel
  refine ⟨by decide +kernel, h, (payloads_safe_iff smallBuffer zeroMem _ (by decide) ?_).1.mpr h⟩
  simp [Requests, smallBuffer, reuse]

/-- After a request of 96 bytes the only chunk with room for 8 more is the
allocated one: the second pointer lies in the payload of the first. -/
theorem payloads_overlap :
    Requests smallBuffer [.alloc 96, .alloc 8] ∧
      ∃ s, run step (start smallBuffer zeroMem) [.alloc 96, .alloc 8] = some s ∧
        s.live = [(65720, 8), (65632, 96)] ∧ ¬ PayloadsSafe smallBuffer s := by
  refine ⟨by simp [Requests, smallBuffer], ?_⟩
  have hlive : (run step (start smallBuffer zeroMem) [.alloc 96, .alloc 8]).map State.live =
      some [(65720, 8), (65632, 96)] := by decide +kernel
  obtain ⟨s, hs, hl⟩ := Option.map_eq_some_iff.mp hlive
  refine ⟨s, hs, hl, fun hsafe => ?_⟩
  have hdisj := hsafe.disjoint
  rw [hl, pairwise_pair] at hdisj
  exact hdisj 65720 (by decide) (by decide) (by decide) (by decide)

end LinuxWorkouts.Allocator
