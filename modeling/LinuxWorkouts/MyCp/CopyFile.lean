import Mathlib

/-!
`copyFile` of `file-system/my-cp/my_cp.go`.

Every round reads into the first bytes of one buffer and writes the whole buffer, whatever was read;
the loop ends behind the first read that did not fill it. The destination is opened without
`O_TRUNC`, so what it had behind the last block written stays. `counts` are the numbers of bytes
that the reads return until the end of the file; writes succeed.
-/

namespace LinuxWorkouts.MyCp

open List

abbrev Bytes := List UInt8

def NOCLOBBER : UInt8 := 2

def buffSize : Nat := 4096

/-! ### The options -/

/-- The loop of `checkMod` over the bits of the flag; it does not end for a flag without bits. -/
def checkModLoop (mod : UInt8) : Nat → UInt8 → UInt8 → Option Bool
  | 0, _, _ => none
  | rounds + 1, flag, iters =>
    if flag &&& 1 ≠ 1 then checkModLoop mod rounds (flag >>> 1) (iters + 1)
    else some ((mod >>> iters) &&& 1 == 1)

def checkMod (mod flag : UInt8) : Option Bool := checkModLoop mod 8 flag 0

/-! ### The files -/

/-- What `copyFile` finds at its two paths. -/
structure Files where
  dest : Option Bytes
  destOpens : Bool
  src : Option Bytes

/-- What `Write` leaves of a file, at an offset that is not behind its end. -/
def writeAt (file : Bytes) (offset : Nat) (block : Bytes) : Bytes :=
  file.take offset ++ block ++ file.drop (offset + block.length)

/-- The buffer when `count` bytes were read into it. -/
def readInto (buff rest : Bytes) (count : Nat) : Bytes := rest.take count ++ buff.drop count

/-- The loop: `rest` of the source is not yet read, and `dest` is written up to `offset`. -/
def copyLoop : List Nat → Bytes → Bytes → Bytes → Nat → Bytes
  | [], _, _, dest, _ => dest
  | count :: counts, rest, buff, dest, offset =>
    if count = 0 then dest
    else if count ≠ (readInto buff rest count).length then
      writeAt dest offset (readInto buff rest count)
    else
      copyLoop counts (rest.drop count) (readInto buff rest count)
        (writeAt dest offset (readInto buff rest count))
        (offset + (readInto buff rest count).length)

/-- What is at `destPath` behind `copyFile`. -/
def copyFile (mod : UInt8) (files : Files) (counts : List Nat) : Option Bytes :=
  if checkMod mod NOCLOBBER = some true ∧ files.dest.isSome then files.dest
  else if files.destOpens then
    match files.src with
    | none => some (files.dest.getD [])
    | some src =>
      some (copyLoop counts src (replicate buffSize 0) (files.dest.getD []) 0)
  else files.dest

def Reads (counts : List Nat) (length : Nat) : Prop :=
  (∀ count ∈ counts, 0 < count ∧ count ≤ buffSize) ∧ counts.sum = length

def lastBlock (buff rest : Bytes) (full : Nat) : Bytes :=
  if full = 0 then buff else (rest.drop (buffSize * (full - 1))).take buffSize

/-- What the buffer has behind the bytes of a short read: zeros in the first round, and otherwise
bytes of the block before. -/
def staleBytes (src : Bytes) (full count : Nat) : Bytes :=
  (lastBlock (replicate buffSize 0) src full).drop count

/-- The first read that does not fill the buffer is behind `full` ones that do. -/
def FirstShort (counts : List Nat) (full count : Nat) : Prop :=
  count < buffSize ∧ ∃ later, counts = replicate full buffSize ++ count :: later

/-! ### Rounds -/

section Rounds

variable {counts : List Nat} {rest buff done old : Bytes} {count : Nat}

theorem writeAt_append (done old block : Bytes) :
    writeAt (done ++ old) done.length block = done ++ block ++ old.drop block.length := by
  rw [writeAt, take_left, drop_length_add_append]

section

variable (hbuff : buff.length = buffSize)
include hbuff

theorem length_readInto (hcount : count ≤ buffSize) (hrest : count ≤ rest.length) :
    (readInto buff rest count).length = buffSize := by
  rw [readInto, length_append, length_take_of_le hrest, length_drop, hbuff]
  omega

theorem copyLoop_full (hrest : buffSize ≤ rest.length) :
    copyLoop (buffSize :: counts) rest buff (done ++ old) done.length =
      copyLoop counts (rest.drop buffSize) (rest.take buffSize)
        (done ++ rest.take buffSize ++ old.drop buffSize)
        (done ++ rest.take buffSize).length := by
  have hread : readInto buff rest buffSize = rest.take buffSize := by
    rw [readInto, ← hbuff, drop_length, append_nil]
  have hlength : (rest.take buffSize).length = buffSize := length_take_of_le hrest
  rw [copyLoop, if_neg (by decide), hread, hlength, if_neg (not_not.mpr rfl), writeAt_append,
    hlength, length_append, hlength]

theorem copyLoop_short (hpos : 0 < count) (hcount : count < buffSize)
    (hrest : count ≤ rest.length) :
    copyLoop (count :: counts) rest buff (done ++ old) done.length =
      done ++ (rest.take count ++ buff.drop count) ++ old.drop buffSize := by
  have hlength := length_readInto hbuff hcount.le hrest
  rw [copyLoop, if_neg hpos.ne', hlength, if_pos hcount.ne, writeAt_append, hlength, readInto]

theorem length_lastBlock {full : Nat} (hrest : buffSize * full ≤ rest.length) :
    (lastBlock buff rest full).length = buffSize := by
  rw [lastBlock]
  split_ifs with hfull
  · exact hbuff
  · obtain ⟨n, rfl⟩ := Nat.exists_eq_succ_of_ne_zero hfull
    apply length_take_of_le
    rw [Nat.mul_succ] at hrest
    rw [length_drop, Nat.succ_sub_one]
    omega

end

theorem copyLoop_replicate (done old : Bytes) (full : Nat) (hbuff : buff.length = buffSize)
    (hrest : buffSize * full ≤ rest.length) :
    copyLoop (replicate full buffSize ++ counts) rest buff (done ++ old) done.length =
      copyLoop counts (rest.drop (buffSize * full)) (lastBlock buff rest full)
        (done ++ rest.take (buffSize * full) ++ old.drop (buffSize * full))
        (done ++ rest.take (buffSize * full)).length := by
  induction full generalizing counts with
  | zero => simp [lastBlock]
  | succ full ih =>
    rw [Nat.mul_succ] at hrest
    have hhere : buffSize ≤ (rest.drop (buffSize * full)).length := by
      rw [length_drop]
      omega
    have hprev : buffSize * full ≤ rest.length := Nat.le_of_add_right_le hrest
    rw [replicate_succ', append_assoc, singleton_append, ih hprev,
      copyLoop_full (length_lastBlock hbuff hprev) hhere, drop_drop, drop_drop,
      append_assoc done, ← take_add, ← Nat.mul_succ]
    rfl

end Rounds

/-! ### The copy -/

section Copy

variable {counts : List Nat} {src old : Bytes} {full count : Nat}

theorem copyLoop_blocks (counts : List Nat) (old : Bytes) (hsrc : buffSize * full ≤ src.length) :
    copyLoop (replicate full buffSize ++ counts) src (replicate buffSize 0) old 0 =
      copyLoop counts (src.drop (buffSize * full)) (lastBlock (replicate buffSize 0) src full)
        (src.take (buffSize * full) ++ old.drop (buffSize * full))
        (src.take (buffSize * full)).length :=
  copyLoop_replicate [] old full length_replicate hsrc

theorem copyLoop_all_full (hreads : Reads counts src.length) (hall : ∀ n ∈ counts, n = buffSize) :
    copyLoop counts src (replicate buffSize 0) old 0 = src ++ old.drop src.length := by
  have hcounts := eq_replicate_of_mem hall
  generalize counts.length = full at hcounts
  subst hcounts
  have hsum : buffSize * full = src.length := by
    rw [← hreads.2, sum_replicate, smul_eq_mul, Nat.mul_comm]
  have hblocks := copyLoop_blocks [] old hsum.le
  rwa [append_nil, copyLoop, hsum, take_length] at hblocks

theorem copyLoop_firstShort (hreads : Reads counts src.length)
    (hshort : FirstShort counts full count) :
    copyLoop counts src (replicate buffSize 0) old 0 =
      src.take (buffSize * full + count) ++
        (staleBytes src full count ++ old.drop (buffSize * (full + 1))) := by
  obtain ⟨hcount, later, rfl⟩ := hshort
  obtain ⟨hrange, hsum⟩ := hreads
  have hpos := (hrange count (by simp)).1
  rw [sum_append, sum_replicate, smul_eq_mul, sum_cons, Nat.mul_comm] at hsum
  have hrest : count ≤ (src.drop (buffSize * full)).length := by
    rw [length_drop]
    omega
  have hblocks : buffSize * full ≤ src.length := by omega
  have hlast := length_lastBlock (length_replicate (a := (0 : UInt8))) hblocks
  rw [copyLoop_blocks _ old hblocks, copyLoop_short hlast hpos hcount hrest, drop_drop,
    take_add, staleBytes, Nat.mul_succ]
  simp only [append_assoc]

theorem all_full_or_firstShort (hle : ∀ n ∈ counts, n ≤ buffSize) :
    (∀ n ∈ counts, n = buffSize) ∨ ∃ full count, FirstShort counts full count := by
  induction counts with
  | nil => exact .inl (forall_mem_nil _)
  | cons n counts ih =>
    obtain ⟨hn, hrest⟩ := forall_mem_cons.mp hle
    rcases hn.eq_or_lt with rfl | hlt
    · rcases ih hrest with hall | ⟨full, count, hcount, later, rfl⟩
      · exact .inl (forall_mem_cons.mpr ⟨rfl, hall⟩)
      · exact .inr ⟨full + 1, count, hcount, later, rfl⟩
    · exact .inr ⟨0, n, hlt, counts, rfl⟩

theorem copyFile_eq {mod : UInt8} {dest : Option Bytes}
    (hclobber : checkMod mod NOCLOBBER = some false ∨ dest = none) :
    copyFile mod ⟨dest, true, some src⟩ counts =
      some (copyLoop counts src (replicate buffSize 0) (dest.getD []) 0) := by
  have hgo : ¬ (checkMod mod NOCLOBBER = some true ∧ dest.isSome) := by
    rcases hclobber with h | rfl
    · simp [h]
    · simp
  rw [copyFile, if_neg hgo]
  rfl

end Copy

/-- The destination is the source iff all reads fill the buffer and it was not longer, or what the
buffer and the old destination have behind the first short read is what the source has there. -/
theorem copyFile_exact_iff (mod : UInt8) (dest : Option Bytes) (src : Bytes) (counts : List Nat)
    (hreads : Reads counts src.length)
    (hclobber : checkMod mod NOCLOBBER = some false ∨ dest = none) :
    copyFile mod ⟨dest, true, some src⟩ counts = some src ↔
      ((∀ n ∈ counts, n = buffSize) ∧ (dest.getD []).length ≤ src.length) ∨
      ∃ full count, FirstShort counts full count ∧
        src.drop (buffSize * full + count) =
          staleBytes src full count ++ (dest.getD []).drop (buffSize * (full + 1)) := by
  rw [copyFile_eq hclobber, Option.some.injEq]
  generalize dest.getD [] = old
  have hfull : (∀ n ∈ counts, n = buffSize) →
      (copyLoop counts src (replicate buffSize 0) old 0 = src ↔ old.length ≤ src.length) := by
    intro hall
    rw [copyLoop_all_full hreads hall, append_right_eq_self, drop_eq_nil_iff]
  have hshort : ∀ full count, FirstShort counts full count →
      (copyLoop counts src (replicate buffSize 0) old 0 = src ↔
        src.drop (buffSize * full + count) =
          staleBytes src full count ++ old.drop (buffSize * (full + 1))) := by
    intro full count hfirst
    rw [copyLoop_firstShort hreads hfirst]
    conv_lhs => rhs; rw [← take_append_drop (buffSize * full + count) src]
    rw [append_cancel_left_eq]
    exact eq_comm
  constructor
  · intro h
    rcases all_full_or_firstShort fun n hn => (hreads.1 n hn).2 with hall | ⟨full, count, hfirst⟩
    · exact .inl ⟨hall, (hfull hall).mp h⟩
    · exact .inr ⟨full, count, hfirst, (hshort full count hfirst).mp h⟩
  · rintro (⟨hall, hle⟩ | ⟨full, count, hfirst, heq⟩)
    · exact (hfull hall).mpr hle
    · exact (hshort full count hfirst).mpr heq

/-- A file of one block over a shorter one. -/
theorem copyFile_exact_block :
    copyFile 0 ⟨some [66], true, some (replicate buffSize 65)⟩ [buffSize] =
      some (replicate buffSize 65) := by
  have hreads : Reads [buffSize] (replicate buffSize (65 : UInt8)).length :=
    ⟨forall_mem_singleton.mpr ⟨by decide, le_rfl⟩, by rw [length_replicate]; rfl⟩
  refine (copyFile_exact_iff 0 (some [66]) _ _ hreads (.inl rfl)).mpr (.inl ⟨?_, ?_⟩)
  · exact forall_mem_singleton.mpr rfl
  · rw [length_replicate]
    decide

/-- The copy of one byte is a block. -/
theorem copyFile_pads_block :
    Reads [1] [65].length ∧ copyFile 0 ⟨none, true, some [65]⟩ [1] ≠ some [65] := by
  have hreads : Reads [1] ([65] : Bytes).length :=
    ⟨forall_mem_singleton.mpr ⟨by decide, by decide⟩, rfl⟩
  have hfirst : FirstShort [1] 0 1 := ⟨by decide, [], rfl⟩
  refine ⟨hreads, fun h => ?_⟩
  have hstale : (staleBytes [65] 0 1).length = 4095 := by
    rw [staleBytes, lastBlock, if_pos rfl, length_drop, length_replicate]
    rfl
  rw [copyFile_eq (.inr rfl), copyLoop_firstShort hreads hfirst] at h
  generalize staleBytes [65] 0 1 = stale at h hstale
  have hlength := congrArg length (Option.some.inj h)
  simp only [length_append, hstale, length_singleton] at hlength
  omega

end LinuxWorkouts.MyCp
