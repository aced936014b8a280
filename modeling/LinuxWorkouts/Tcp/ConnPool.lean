import LinuxWorkouts.Lib.Transition

/-!
The connection pool of the file server (`conn_pool.c`).

A slot is taken by clearing the lowest bit that is set in a 64-bit word, and given back
by setting it again; both go through a mask of type `int`, and the lowest bit is searched
in the low half of the word only. `bookPos_lowest` and `unbookPos_eq` with `getLsbD_clear` and
`getLsbD_set` say what the two do to each bit. Every call runs under the lock of the pool, so a run
is a sequence of calls, and `pool_consistent` is about all of them for pools of at most 31 slots.
-/

namespace LinuxWorkouts.ConnPool

open Transition List

def NOT_OK : Int := -1

def INT64_MAX : BitVec 64 := BitVec.ofNat 64 (2 ^ 63 - 1)

structure ConnectionDesc where
  threadId : Nat
  connectionSock : Int
  offset : Int
deriving DecidableEq, Repr

structure ConnectionsPool where
  connections : List ConnectionDesc
  size : Nat
  freeSpaceBitmap : BitVec 64
deriving DecidableEq, Repr

inductive Cond where
  | cond
  | isFreeCond
deriving DecidableEq, Repr

/-- What a call does outside of the pool. -/
inductive Event where
  | close (sock : Int)
  | broadcast (c : Cond)
deriving DecidableEq, Repr

/-- The allocations are taken to succeed. -/
def createConnPool (size : Nat) : ConnectionsPool :=
  { connections := replicate size ⟨0, 0, 0⟩
    size := size
    freeSpaceBitmap := INT64_MAX }

def poolIsFree (pool : ConnectionsPool) : Bool := pool.freeSpaceBitmap = INT64_MAX

/-! ### The bitmap -/

/-- `int mask = 1; mask <<= k;`, which is undefined from the width of an `int` on. -/
def intMask (k : Nat) : Option (BitVec 32) := if k < 32 then some (1#32 <<< k) else none

/-- `__builtin_ctz`, which is undefined for 0. -/
def builtinCtz (x : BitVec 32) : Option Nat := if x = 0#32 then none else some x.ctz.toNat

/-- The word is cut to an `unsigned int` for the search, and the mask is extended with its
sign for the update. -/
def bookPos (bitmap : BitVec 64) : Option (Nat × BitVec 64) := do
  let res ← builtinCtz (bitmap.setWidth 32)
  let mask ← intMask res
  some (res, bitmap &&& (~~~mask).signExtend 64)

def unbookPos (bitmap : BitVec 64) (offset : Nat) : Option (BitVec 64) := do
  let mask ← intMask offset
  some (bitmap ||| mask.signExtend 64)

/-! ### Connections -/

/-- `threadId` is what happens to be in the descriptor that is copied into the slot. -/
def storeConnection (pool : ConnectionsPool) (threadId : Nat) (connectionSock : Int) :
    Option (ConnectionsPool × Int) :=
  if pool.freeSpaceBitmap = 0#64 then some (pool, NOT_OK)
  else
    (bookPos pool.freeSpaceBitmap).map fun r =>
      if pool.size ≤ r.1 then ({ pool with freeSpaceBitmap := r.2 }, NOT_OK)
      else
        ({ pool with
            freeSpaceBitmap := r.2
            connections := pool.connections.set r.1 ⟨threadId, connectionSock, r.1⟩ }, r.1)

def releaseConnection (pool : ConnectionsPool) (offset : Nat) :
    Option (ConnectionsPool × List Event) := do
  let conn ← pool.connections[offset]?
  let bitmap ← unbookPos pool.freeSpaceBitmap offset
  let pool := { pool with freeSpaceBitmap := bitmap }
  let wake := if poolIsFree pool then [Event.broadcast .cond] else []
  some ({ pool with connections := pool.connections.set offset ⟨0, 0, 0⟩ },
    .close conn.connectionSock :: wake ++ [.broadcast .isFreeCond])

def setThread (pool : ConnectionsPool) (offset threadId : Nat) : ConnectionsPool :=
  { pool with
    connections := pool.connections.modify offset fun d => { d with threadId := threadId } }

section Bits

variable {bitmap : BitVec 64} {k i : Nat}

theorem getLsbD_intMask (hk : k < 32) : (1#32 <<< k).getLsbD i = decide (i = k) := by
  rw [BitVec.getLsbD_shiftLeft]
  by_cases hik : i = k
  · subst hik
    simp [hk]
  · simp only [hik, decide_false, Bool.and_eq_false_imp]
    intro h
    simp at h ⊢
    omega

theorem getLsbD_clear (hk : k < 32) :
    (bitmap &&& (~~~(1#32 <<< k)).signExtend 64).getLsbD i =
      (bitmap.getLsbD i && decide (i ≠ k ∧ (k = 31 → i < 31))) := by
  have hmsb : (~~~(1#32 <<< k)).msb = decide (k ≠ 31) := by
    rw [BitVec.msb_eq_getLsbD_last, BitVec.getLsbD_not, getLsbD_intMask hk]
    simp [eq_comm]
  rw [BitVec.getLsbD_and, BitVec.getLsbD_signExtend, hmsb]
  by_cases h64 : i < 64
  · congr 1
    rw [decide_eq_true h64, Bool.true_and]
    by_cases h32 : i < 32
    · rw [if_pos h32, BitVec.getLsbD_not, getLsbD_intMask hk, decide_eq_true h32, Bool.true_and,
        ← decide_not, decide_eq_decide]
      omega
    · rw [if_neg h32, decide_eq_decide]
      omega
  · rw [BitVec.getLsbD_of_ge _ _ (by omega)]
    rfl

theorem getLsbD_set (hk : k < 32) :
    (bitmap ||| (1#32 <<< k).signExtend 64).getLsbD i =
      (bitmap.getLsbD i || decide (i = k ∨ k = 31 ∧ 31 ≤ i ∧ i < 64)) := by
  have hmsb : (1#32 <<< k).msb = decide (k = 31) := by
    rw [BitVec.msb_eq_getLsbD_last, getLsbD_intMask hk]
    simp [eq_comm]
  rw [BitVec.getLsbD_or, BitVec.getLsbD_signExtend, hmsb]
  congr 1
  by_cases h32 : i < 32
  · rw [if_pos h32, getLsbD_intMask hk, decide_eq_true (show i < 64 by omega), Bool.true_and,
      decide_eq_decide]
    omega
  · rw [if_neg h32, ← Bool.decide_and, decide_eq_decide]
    omega

theorem bookPos_lowest {j : Nat} (hj : j < 32) (hset : bitmap.getLsbD j = true) :
    ∃ k bitmap', bookPos bitmap = some (k, bitmap') ∧ k ≤ j ∧ bitmap.getLsbD k = true ∧
      ∀ i, bitmap'.getLsbD i = (bitmap.getLsbD i && decide (i ≠ k ∧ (k = 31 → i < 31))) := by
  -- the bit is in the half that is searched
  have hlow : ∀ m, m < 32 → (bitmap.setWidth 32).getLsbD m = bitmap.getLsbD m := by
    intro m hm
    simp [hm]
  have hne : bitmap.setWidth 32 ≠ 0#32 := by
    intro h0
    have hbit := hlow j hj
    rw [h0, hset] at hbit
    simp at hbit
  have hle : (bitmap.setWidth 32).ctz.toNat ≤ j := by
    by_contra hgt
    have hfalse := BitVec.getLsbD_false_of_lt_ctz (Nat.lt_of_not_le hgt)
    rw [hlow j hj, hset] at hfalse
    cases hfalse
  refine ⟨(bitmap.setWidth 32).ctz.toNat, _, ?_, hle, ?_, fun i => getLsbD_clear (by omega)⟩
  · simp only [bookPos, builtinCtz, if_neg hne, intMask, Option.bind_eq_bind, Option.bind_some,
      if_pos (show (bitmap.setWidth 32).ctz.toNat < 32 by omega)]
  · rw [← hlow _ (by omega)]
    exact BitVec.getLsbD_true_ctz_of_ne_zero hne

theorem unbookPos_eq (hk : k < 32) :
    unbookPos bitmap k = some (bitmap ||| (1#32 <<< k).signExtend 64) := by
  simp only [unbookPos, intMask, if_pos hk, Option.bind_eq_bind, Option.bind_some]

end Bits

/-! ### Runs -/

/-- The pool, the connections that are live, with their offset and socket, and what the
calls have done outside of the pool. -/
structure State where
  pool : ConnectionsPool
  live : List (Nat × Int)
  events : List Event
deriving DecidableEq, Repr

inductive Op where
  | store (threadId : Nat) (sock : Int)
  | threadCreated (offset threadId : Nat)
  | release (offset : Nat)
deriving DecidableEq, Repr

def start (size : Nat) : State := ⟨createConnPool size, [], []⟩

def step (s : State) : Op → Option State
  | .store threadId sock =>
    (storeConnection s.pool threadId sock).map fun r =>
      if r.2 = NOT_OK then { s with pool := r.1 }
      else { s with pool := r.1, live := (r.2.toNat, sock) :: s.live }
  | .threadCreated offset threadId => some { s with pool := setThread s.pool offset threadId }
  | .release offset =>
    (releaseConnection s.pool offset).map fun r =>
      { pool := r.1
        live := s.live.filter fun c => c.1 ≠ offset
        events := s.events ++ r.2 }

def State.offsets (s : State) : List Nat := s.live.map Prod.fst

/-- A connection is stored while there is room, and the rest is about live ones. -/
def Allowed (s : State) : Op → Prop
  | .store _ _ => s.live.length < s.pool.size
  | .threadCreated offset _ => offset ∈ s.offsets
  | .release offset => offset ∈ s.offsets

/-- What holds in every state of a run. -/
structure Consistent (s : State) : Prop where
  nodup : s.offsets.Nodup
  range : ∀ offset ∈ s.offsets, offset < s.pool.size
  slots : ∀ c ∈ s.live, ∃ threadId,
    s.pool.connections[c.1]? = some ⟨threadId, c.2, c.1⟩
  bits : ∀ i < 63, s.pool.freeSpaceBitmap.getLsbD i = false ↔ i ∈ s.offsets
  free : poolIsFree s.pool = true ↔ s.live = []

/-- What a call returns and does: a new connection gets an offset that nobody holds, and
a released one is the socket that was stored. -/
def Served (s : State) : Op → Prop
  | .store threadId sock =>
    ∃ (s' : State) (offset : Nat), step s (.store threadId sock) = some s' ∧
      storeConnection s.pool threadId sock = some (s'.pool, (offset : Int)) ∧
      offset < s.pool.size ∧ offset ∉ s.offsets ∧ s'.live = (offset, sock) :: s.live
  | .threadCreated _ _ => True
  | .release offset =>
    ∃ s' sock, step s (.release offset) = some s' ∧ (offset, sock) ∈ s.live ∧
      Event.close sock ∈ s'.events.drop s.events.length ∧
      (poolIsFree s'.pool → Event.broadcast .cond ∈ s'.events.drop s.events.length)

section Invariant

variable {size lost : Nat} {s s' : State} {op : Op}

/-- The invariant behind `Consistent`: it knows every bit of the word. -/
structure PoolInv (size : Nat) (s : State) : Prop where
  size_eq : s.pool.size = size
  length : s.pool.connections.length = size
  nodup : s.offsets.Nodup
  range : ∀ offset ∈ s.offsets, offset < size
  slots : ∀ c ∈ s.live, ∃ threadId,
    s.pool.connections[c.1]? = some ⟨threadId, c.2, c.1⟩
  bits : ∀ i, s.pool.freeSpaceBitmap.getLsbD i = decide (i < 63 ∧ i ∉ s.offsets)

/-- The same for a pool that has lost the first `lost` bits above its slots. With the sign bit of
the mask it loses all of them. -/
structure WordInv (size lost : Nat) (s : State) : Prop where
  size_eq : s.pool.size = size
  length : s.pool.connections.length = size
  nodup : s.offsets.Nodup
  range : ∀ offset ∈ s.offsets, offset < size
  slots : ∀ c ∈ s.live, ∃ threadId,
    s.pool.connections[c.1]? = some ⟨threadId, c.2, c.1⟩
  bits : ∀ i, s.pool.freeSpaceBitmap.getLsbD i =
    decide (i ∉ s.offsets ∧ (i < size ∨ size + lost ≤ i ∧ i < 63 ∧ size + lost < 32))

theorem PoolInv.wordInv (h : PoolInv size s) (hsize : size ≤ 31) : WordInv size 0 s where
  size_eq := h.size_eq
  length := h.length
  nodup := h.nodup
  range := h.range
  slots := h.slots
  bits i := by
    rw [h.bits, decide_eq_decide]
    constructor
    · rintro ⟨hi, hnot⟩
      exact ⟨hnot, by omega⟩
    · rintro ⟨hnot, hi⟩
      exact ⟨by omega, hnot⟩

theorem WordInv.poolInv (h : WordInv size 0 s) (hsize : size ≤ 31) : PoolInv size s where
  size_eq := h.size_eq
  length := h.length
  nodup := h.nodup
  range := h.range
  slots := h.slots
  bits i := by
    rw [h.bits, decide_eq_decide]
    constructor
    · rintro ⟨hnot, hi⟩
      exact ⟨by omega, hnot⟩
    · rintro ⟨hi, hnot⟩
      exact ⟨hnot, by omega⟩

theorem getLsbD_INT64_MAX (i : Nat) : INT64_MAX.getLsbD i = decide (i < 63) := by
  rw [INT64_MAX, BitVec.getLsbD_ofNat, Nat.testBit_two_pow_sub_one]
  by_cases h : i < 63
  · simp [h]
    omega
  · simp [h]

theorem PoolInv.start (size : Nat) : PoolInv size (start size) where
  size_eq := rfl
  length := length_replicate
  nodup := nodup_nil
  range := fun offset h => absurd h not_mem_nil
  slots := fun c h => absurd h not_mem_nil
  bits i := by
    rw [show (ConnPool.start size).pool.freeSpaceBitmap = INT64_MAX from rfl, getLsbD_INT64_MAX]
    simp [ConnPool.start, State.offsets]

theorem PoolInv.poolIsFree_iff (h : PoolInv size s) (hsize : size ≤ 31) :
    poolIsFree s.pool = true ↔ s.live = [] := by
  rw [poolIsFree, decide_eq_true_iff]
  constructor
  · intro heq
    by_contra hne
    obtain ⟨c, hc⟩ := exists_mem_of_ne_nil _ hne
    have hmem : c.1 ∈ s.offsets := mem_map_of_mem hc
    have hlt := h.range c.1 hmem
    -- the bit of a live connection is clear
    have hbit := h.bits c.1
    rw [heq, getLsbD_INT64_MAX] at hbit
    simp [hmem] at hbit
    omega
  · intro hnil
    apply BitVec.eq_of_getLsbD_eq
    intro i _
    rw [h.bits, getLsbD_INT64_MAX]
    simp [State.offsets, hnil]

theorem PoolInv.consistent (h : PoolInv size s) (hsize : size ≤ 31) : Consistent s where
  nodup := h.nodup
  range offset hmem := h.size_eq ▸ h.range offset hmem
  slots := h.slots
  bits i hi := by
    rw [h.bits]
    simp [hi]
  free := h.poolIsFree_iff hsize

theorem exists_free (hroom : s.live.length < size) : ∃ j < size, j ∉ s.offsets := by
  by_contra hfull
  have hsub : range size ⊆ s.offsets := by
    intro j hj
    by_contra hnot
    exact hfull ⟨j, mem_range.mp hj, hnot⟩
  have hle := (subperm_of_subset nodup_range hsub).length_le
  rw [length_range, State.offsets, length_map] at hle
  omega

theorem storeConnection_of_book {pool : ConnectionsPool} {j k : Nat} {bitmap : BitVec 64}
    (hset : pool.freeSpaceBitmap.getLsbD j = true)
    (hbook : bookPos pool.freeSpaceBitmap = some (k, bitmap)) (threadId : Nat) (sock : Int) :
    storeConnection pool threadId sock =
      some (if pool.size ≤ k then ({ pool with freeSpaceBitmap := bitmap }, NOT_OK)
        else ({ pool with
          freeSpaceBitmap := bitmap
          connections := pool.connections.set k ⟨threadId, sock, k⟩ }, (k : Int))) := by
  have hne : pool.freeSpaceBitmap ≠ 0#64 := by
    intro h0
    rw [h0] at hset
    simp at hset
  rw [storeConnection, if_neg hne, hbook, Option.map_some]

section

variable (h : WordInv size lost s)
include h

theorem WordInv.stored (hsize : size ≤ 31) {k : Nat} (hk : k < size) (hnot : k ∉ s.offsets)
    {bitmap : BitVec 64} (hclear : ∀ i, bitmap.getLsbD i =
      (s.pool.freeSpaceBitmap.getLsbD i && decide (i ≠ k ∧ (k = 31 → i < 31)))) (threadId : Nat)
    (sock : Int) :
    WordInv size lost { s with
      pool := { s.pool with
        freeSpaceBitmap := bitmap
        connections := s.pool.connections.set k ⟨threadId, sock, k⟩ }
      live := (k, sock) :: s.live } where
  size_eq := h.size_eq
  length := by rw [length_set, h.length]
  nodup := nodup_cons.mpr ⟨hnot, h.nodup⟩
  range offset hmem := by
    rcases mem_cons.mp hmem with rfl | hmem
    · exact hk
    · exact h.range offset hmem
  slots c hc := by
    rcases mem_cons.mp hc with rfl | hc
    · exact ⟨threadId, getElem?_set_self (h.length ▸ hk)⟩
    · have hne : k ≠ c.1 := fun heq => hnot (heq ▸ mem_map_of_mem hc)
      obtain ⟨t, ht⟩ := h.slots c hc
      exact ⟨t, (getElem?_set_ne hne).trans ht⟩
  bits i := by
    have hsign : ¬ k = 31 := by omega
    rw [hclear, h.bits, ← Bool.decide_and, decide_eq_decide]
    simp only [hsign, false_imp_iff, and_true, State.offsets, map_cons, mem_cons, not_or]
    tauto

theorem WordInv.store (hsize : size ≤ 31) (hroom : s.live.length < size) (threadId : Nat)
    (sock : Int) :
    ∃ (s' : State) (offset : Nat), step s (.store threadId sock) = some s' ∧
      storeConnection s.pool threadId sock = some (s'.pool, (offset : Int)) ∧
      offset < size ∧ offset ∉ s.offsets ∧ s'.live = (offset, sock) :: s.live ∧
      WordInv size lost s' := by
  obtain ⟨j, hj, hfree⟩ := exists_free hroom
  have hset : s.pool.freeSpaceBitmap.getLsbD j = true := by
    rw [h.bits, decide_eq_true_iff]
    exact ⟨hfree, .inl hj⟩
  obtain ⟨k, bitmap, hbook, hkj, hbit, hclear⟩ := bookPos_lowest (by omega) hset
  have hk : k < size := Nat.lt_of_le_of_lt hkj hj
  have hnot : k ∉ s.offsets := by
    rw [h.bits, decide_eq_true_iff] at hbit
    exact hbit.1
  have hinside : ¬ s.pool.size ≤ k := by
    rw [h.size_eq]
    omega
  have hstore := storeConnection_of_book hset hbook threadId sock
  rw [if_neg hinside] at hstore
  have hok : (k : Int) ≠ NOT_OK := by
    unfold NOT_OK
    omega
  refine ⟨_, k, ?_, hstore, hk, hnot, rfl, h.stored hsize hk hnot hclear threadId sock⟩
  rw [step, hstore, Option.map_some, if_neg hok, Int.toNat_natCast]

theorem WordInv.released {offset : Nat} (hlt : offset < size) {bitmap : BitVec 64}
    (hbitmap : ∀ i, bitmap.getLsbD i = true ↔
      s.pool.freeSpaceBitmap.getLsbD i = true ∨ i = offset) (events : List Event) :
    WordInv size lost { s with
      pool := { s.pool with
        freeSpaceBitmap := bitmap
        connections := s.pool.connections.set offset ⟨0, 0, 0⟩ }
      live := s.live.filter fun c => c.1 ≠ offset
      events := events } := by
  have hoffsets : (s.live.filter fun c => c.1 ≠ offset).map Prod.fst =
      s.offsets.filter fun o => o ≠ offset := by
    rw [State.offsets, filter_map]
    rfl
  refine ⟨h.size_eq, ?_, ?_, fun o ho => ?_, fun c hc => ?_, fun i => ?_⟩
  · rw [length_set, h.length]
  · rw [State.offsets, hoffsets]
    exact h.nodup.filter _
  · rw [State.offsets, hoffsets] at ho
    exact h.range o (mem_of_mem_filter ho)
  · obtain ⟨hc, hne⟩ := mem_filter.mp hc
    obtain ⟨t, ht⟩ := h.slots c hc
    refine ⟨t, (getElem?_set_ne ?_).trans ht⟩
    exact fun heq => by simp [heq] at hne
  · rw [State.offsets, hoffsets, Bool.eq_iff_iff, hbitmap, h.bits, decide_eq_true_iff,
      decide_eq_true_iff]
    simp only [mem_filter, decide_eq_true_eq, not_and, not_not]
    constructor
    · rintro (⟨hnot, hi⟩ | rfl)
      · exact ⟨fun hin => absurd hin hnot, hi⟩
      · exact ⟨fun _ => rfl, .inl hlt⟩
    · rintro ⟨himp, hi⟩
      by_cases hin : i ∈ s.offsets
      · exact .inr (himp hin)
      · exact .inl ⟨hin, hi⟩

theorem WordInv.release (hsize : size ≤ 31) {offset : Nat} (hmem : offset ∈ s.offsets) :
    ∃ s' sock, step s (.release offset) = some s' ∧ (offset, sock) ∈ s.live ∧
      Event.close sock ∈ s'.events.drop s.events.length ∧
      (poolIsFree s'.pool → Event.broadcast .cond ∈ s'.events.drop s.events.length) ∧
      s'.live = (s.live.filter fun c => c.1 ≠ offset) ∧ WordInv size lost s' := by
  obtain ⟨sock, hlive⟩ : ∃ sock, (offset, sock) ∈ s.live := by
    obtain ⟨c, hc, rfl⟩ := mem_map.mp hmem
    exact ⟨c.2, hc⟩
  obtain ⟨threadId, hslot⟩ := h.slots _ hlive
  dsimp only at hslot
  have hlt := h.range offset hmem
  have hunbook : unbookPos s.pool.freeSpaceBitmap offset =
      some (s.pool.freeSpaceBitmap ||| (1#32 <<< offset).signExtend 64) := unbookPos_eq (by omega)
  have hbitmap : ∀ i,
      (s.pool.freeSpaceBitmap ||| (1#32 <<< offset).signExtend 64).getLsbD i = true ↔
        s.pool.freeSpaceBitmap.getLsbD i = true ∨ i = offset := by
    intro i
    have hsign : ¬ offset = 31 := by omega
    rw [getLsbD_set (by omega), Bool.or_eq_true, decide_eq_true_iff]
    simp only [hsign, false_and, or_false]
  simp only [step, releaseConnection, hslot, hunbook, Option.bind_eq_bind, Option.bind_some,
    Option.map_some]
  refine ⟨_, sock, rfl, hlive, ?_, ?_, rfl, h.released hlt hbitmap _⟩
  · simp
  · intro hfree
    have hfree' : poolIsFree { s.pool with
        freeSpaceBitmap := s.pool.freeSpaceBitmap ||| (1#32 <<< offset).signExtend 64 } = true :=
      hfree
    simp [hfree']

theorem WordInv.threadCreated (offset threadId : Nat) :
    WordInv size lost { s with pool := setThread s.pool offset threadId } where
  size_eq := h.size_eq
  length := by
    rw [setThread, length_modify, h.length]
  nodup := h.nodup
  range := h.range
  slots c hc := by
    obtain ⟨t, ht⟩ := h.slots c hc
    simp only [setThread, getElem?_modify, ht]
    by_cases heq : offset = c.1
    · exact ⟨threadId, by simp [heq]⟩
    · exact ⟨t, by simp [heq]⟩
  bits := h.bits

end

theorem PoolInv.next (h : PoolInv size s) (hsize : size ≤ 31) (hop : Allowed s op)
    (hstep : step s op = some s') : PoolInv size s' := by
  have hword := h.wordInv hsize
  cases op with
  | store threadId sock =>
    have hroom : s.live.length < size := h.size_eq ▸ hop
    obtain ⟨t, -, ht, -, -, -, -, hinv⟩ := hword.store hsize hroom threadId sock
    rw [ht] at hstep
    exact Option.some.inj hstep ▸ hinv.poolInv hsize
  | threadCreated offset threadId =>
    cases hstep
    exact (hword.threadCreated offset threadId).poolInv hsize
  | release offset =>
    obtain ⟨t, -, ht, -, -, -, -, hinv⟩ := hword.release hsize hop
    rw [ht] at hstep
    exact Option.some.inj hstep ▸ hinv.poolInv hsize

theorem PoolInv.served (h : PoolInv size s) (hsize : size ≤ 31) (hop : Allowed s op) :
    Served s op := by
  have hword := h.wordInv hsize
  cases op with
  | store threadId sock =>
    have hroom : s.live.length < size := h.size_eq ▸ hop
    obtain ⟨t, offset, ht, hstore, hlt, hnot, hlive, -⟩ := hword.store hsize hroom threadId sock
    exact ⟨t, offset, ht, hstore, h.size_eq ▸ hlt, hnot, hlive⟩
  | threadCreated offset threadId => trivial
  | release offset =>
    obtain ⟨t, sock, ht, hlive, hclose, hwake, -⟩ := hword.release hsize hop
    exact ⟨t, sock, ht, hlive, hclose, hwake⟩

end Invariant

/-- **The pool is consistent.** In every run of a pool of at most 31 slots whose calls are all
allowed, every state is consistent, every new connection gets an offset inside the pool
that no live connection holds, and every released one is closed with the socket that was
stored for it. -/
theorem pool_consistent (size : Nat) (hsize : size ≤ 31) (ops : List Op)
    (hops : Along step Allowed (start size) ops) :
    Always step Consistent (start size) ops ∧ Along step Served (start size) ops := by
  have hstep : ∀ s op s', PoolInv size s → Allowed s op → step s op = some s' → PoolInv size s' :=
    fun s op s' h hop hs => h.next hsize hop hs
  constructor
  · exact always_of_along (fun s h => PoolInv.consistent h hsize)
      (fun s op s' _ => hstep s op s') (PoolInv.start size) hops
  · exact hops.imp (fun s op h hop => PoolInv.served h hsize hop) hstep (PoolInv.start size)

instance decidableAllowed (s : State) (op : Op) : Decidable (Allowed s op) := by
  unfold Allowed
  split <;> infer_instance

/-- Three connections, the second of which is released and its slot taken again. -/
def reuseRun : List Op :=
  [.store 7 40, .threadCreated 0 9, .store 7 41, .store 7 42, .release 1, .store 7 43, .release 0]

theorem pool_consistent_reuse :
    Along step Allowed (start 16) reuseRun ∧
      Always step Consistent (start 16) reuseRun ∧ Along step Served (start 16) reuseRun ∧
      (run step (start 16) reuseRun).map State.live = some [(1, 43), (2, 42)] :=
  have hops : Along step Allowed (start 16) reuseRun := by decide +kernel
  have hrun := pool_consistent 16 (by decide) reuseRun hops
  ⟨hops, hrun.1, hrun.2, by decide +kernel⟩

end LinuxWorkouts.ConnPool
