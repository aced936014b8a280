import LinuxWorkouts.Collections.Vector
import LinuxWorkouts.Lib.LittleEndian

/-!
The vector of integers of `utils/collections/vector/number_interface.c`, with the
multithread flag off.

`add_int` and `set_int` take an `int64_t`, store it in an `int` and copy eight bytes from there: the
low half of the value and four bytes that lie behind the `int` on the stack. What lies there is an
input of each call. `get_int` reads all eight bytes as an `int64_t`; `top_int` and `pop_int` do,
too, but return a `uint8_t`.

A run of calls refines the list of the values with the bytes that went with them (`Holds.step`),
and `ints_kept_iff` says which of the values come back.
-/

namespace LinuxWorkouts.Collections

open Transition LittleEndian List

/-! ### The code -/

/-- The eight bytes from `&num` on. -/
def numBytes (el : Int64) (behind : Element 4) : Element 8 :=
  ⟨toBytes 4 el.toInt32.toUInt32.toNat ++ behind.toList, by
    rw [length_append, length_toBytes, behind.toList_length]⟩

/-- `*((int64_t*)num_buff)` -/
def int64At (numBuff : List UInt8) : Int64 := Int64.ofNat (ofBytes numBuff)

def NO_EL : Int64 := -1

/-- The end of the reading functions. -/
def elementOf (res : Reply) : Int64 :=
  if res.code ≠ .noErr then NO_EL else int64At (res.value.getD [])

def toUint8 (el : Int64) : UInt8 := el.toInt8.toUInt8

def addInt (p : Platform) (inst : Vector) (el : Int64) (behind : Element 4)
    (outcomes : Nat → Realloc) : Option (Vector × ErrorCode) :=
  add p inst (some (numBytes el behind)) outcomes

def getInt (inst : Vector) (index : Nat) : Option Int64 := (get 8 inst index).map elementOf

def setInt (inst : Vector) (index : Nat) (el : Int64) (behind : Element 4) :
    Option (Vector × ErrorCode) :=
  set inst index (some (numBytes el behind))

def topInt (inst : Vector) : Option UInt8 := (top 8 inst).map fun res => toUint8 (elementOf res)

def popInt (inst : Vector) : Option (Vector × UInt8) :=
  (pop 8 inst).map fun r => (r.1, toUint8 (elementOf r.2))

/-- One call; the storing ones come with the bytes behind their `int`. -/
inductive IntOp
  | add (el : Int64) (behind : Element 4) (outcomes : Nat → Realloc)
  | set (index : Nat) (el : Int64) (behind : Element 4)
  | get (index : Nat)
  | top
  | pop

def intStep (p : Platform) (inst : Vector) : IntOp → Option Vector
  | .add el behind outcomes => (addInt p inst el behind outcomes).map Prod.fst
  | .set index el behind => (setInt inst index el behind).map Prod.fst
  | .get index => (getInt inst index).map fun _ => inst
  | .top => (topInt inst).map fun _ => inst
  | .pop => (popInt inst).map Prod.fst

def intVectorInit (capacity : Nat) (instOk dataOk : Bool) : Except ErrorCode Vector :=
  vectorInit capacity 8 instOk dataOk

def IntCanGrow (p : Platform) (inst : Vector) : IntOp → Prop
  | .add el behind outcomes => CanGrow p ⟨inst, []⟩ (.add (some (numBytes el behind)) outcomes)
  | _ => True

instance decidableIntCanGrow (p : Platform) (inst : Vector) (op : IntOp) :
    Decidable (IntCanGrow p inst op) := by
  unfold IntCanGrow
  split <;> infer_instance

/-! ### What is stored -/

/-- A value with the bytes that were behind it when it was stored. -/
structure Stored where
  el : Int64
  behind : Element 4

def Stored.bytes (x : Stored) : Element 8 := numBytes x.el x.behind

def Stored.Whole (x : Stored) : Prop := ofBytes x.behind.toList = x.el.toBitVec.toNat / 2 ^ 32

instance (x : Stored) : Decidable x.Whole := by
  unfold Stored.Whole
  infer_instance

def storedStep (xs : List Stored) : IntOp → List Stored
  | .add el behind _ => xs ++ [⟨el, behind⟩]
  | .set index el behind => xs.set index ⟨el, behind⟩
  | .get _ => xs
  | .top => xs
  | .pop => xs.dropLast

/-- The values that the calls leave stored, each the last one at its index. -/
def storedBy (ops : List IntOp) : List Stored := ops.foldl storedStep []

def Holds (inst : Vector) (xs : List Stored) : Prop := Represents inst (xs.map Stored.bytes)

/-! ### Reading back -/

theorem toNat_toInt32 (el : Int64) : el.toInt32.toUInt32.toNat = el.toBitVec.toNat % 2 ^ 32 := by
  have hbits : el.toInt32.toUInt32.toBitVec = el.toBitVec.signExtend 32 := rfl
  rw [← UInt32.toNat_toBitVec, hbits, BitVec.signExtend_eq_setWidth_of_le _ (by decide),
    BitVec.toNat_setWidth]

theorem toNat_toUint8 (el : Int64) : (toUint8 el).toNat = el.toBitVec.toNat % 2 ^ 8 := by
  have hbits : (toUint8 el).toBitVec = el.toBitVec.signExtend 8 := rfl
  rw [← UInt8.toNat_toBitVec, hbits, BitVec.signExtend_eq_setWidth_of_le _ (by decide),
    BitVec.toNat_setWidth]

theorem ofBytes_bytes (x : Stored) :
    ofBytes x.bytes.toList = x.el.toBitVec.toNat % 2 ^ 32 + 2 ^ 32 * ofBytes x.behind.toList := by
  have hbytes : x.bytes.toList = toBytes 4 x.el.toInt32.toUInt32.toNat ++ x.behind.toList := rfl
  have hpow : (256 : Nat) ^ 4 = 2 ^ 32 := by norm_num
  rw [hbytes, ofBytes_append, ofBytes_toBytes, length_toBytes, toNat_toInt32, hpow, Nat.mod_mod]

theorem toNat_int64At (x : Stored) :
    (int64At x.bytes.toList).toBitVec.toNat =
      x.el.toBitVec.toNat % 2 ^ 32 + 2 ^ 32 * ofBytes x.behind.toList := by
  have hbits : (int64At x.bytes.toList).toBitVec = BitVec.ofNat 64 (ofBytes x.bytes.toList) := rfl
  have hbehind : ofBytes x.behind.toList < 2 ^ 32 := by
    have hlt := ofBytes_lt x.behind.toList
    rw [x.behind.toList_length] at hlt
    exact hlt
  rw [hbits, BitVec.toNat_ofNat, ofBytes_bytes]
  omega

theorem int64At_eq_iff (x : Stored) : int64At x.bytes.toList = x.el ↔ x.Whole := by
  rw [← Int64.toBitVec_inj, ← BitVec.toNat_inj, toNat_int64At, Stored.Whole]
  omega

theorem toUint8_eq_iff (x : Stored) :
    ((toUint8 (int64At x.bytes.toList)).toNat : Int) = x.el.toInt ↔
      0 ≤ x.el.toInt ∧ x.el.toInt < 256 := by
  have hlt := x.el.toBitVec.isLt
  have hlow : (toUint8 (int64At x.bytes.toList)).toNat = x.el.toBitVec.toNat % 2 ^ 8 := by
    rw [toNat_toUint8, toNat_int64At]
    omega
  rw [hlow, ← Int64.toInt_toBitVec, BitVec.toInt_eq_toNat_cond]
  split <;> omega

section Calls

variable {p : Platform} {inst : Vector} {xs : List Stored} (h : Holds inst xs)

include h

theorem Holds.getInt {i : Nat} {x : Stored} (hx : xs[i]? = some x) :
    Collections.getInt inst i = some (int64At x.bytes.toList) := by
  have hslot : (xs.map Stored.bytes)[i]? = some x.bytes := by
    rw [getElem?_map, hx, Option.map_some]
  rw [Collections.getInt, Represents.get h, hslot]
  rfl

theorem Holds.popInt {x : Stored} (hx : xs.getLast? = some x) :
    ∃ inst', Collections.popInt inst = some (inst', toUint8 (int64At x.bytes.toList)) := by
  have hlast : (xs.map Stored.bytes).getLast? = some x.bytes := by
    rw [getLast?_map, hx, Option.map_some]
  obtain ⟨inst', hpop, -⟩ := Represents.pop h
  refine ⟨inst', ?_⟩
  rw [Collections.popInt, hpop, hlast]
  rfl

theorem Holds.step {op : IntOp} (hgrow : IntCanGrow p inst op) :
    ∃ inst', intStep p inst op = some inst' ∧ Holds inst' (storedStep xs op) := by
  cases op with
  | add el behind outcomes =>
    obtain ⟨inst', hadd, hrep⟩ := Represents.add h (numBytes el behind) (fun _ => by decide) hgrow
    refine ⟨inst', ?_, ?_⟩
    · rw [intStep, addInt, hadd, Option.map_some]
    · rw [Holds, storedStep, map_append]
      exact hrep
  | set index el behind =>
    by_cases hi : index < (xs.map Stored.bytes).length
    · obtain ⟨inst', hset, hrep⟩ := Represents.set h hi (numBytes el behind)
      refine ⟨inst', ?_, ?_⟩
      · rw [intStep, setInt, hset, Option.map_some]
      · rw [Holds, storedStep, map_set]
        exact hrep
    · have hrange : isOutRange inst index = true := by
        simpa [isOutRange, Represents.size h] using hi
      refine ⟨inst, ?_, ?_⟩
      · rw [intStep, setInt, Collections.set, hrange]
        rfl
      · rw [storedStep, set_eq_of_length_le (by simpa using hi)]
        exact h
  | get index =>
    refine ⟨inst, ?_, h⟩
    rw [intStep, Collections.getInt, Represents.get h]
    rfl
  | top =>
    refine ⟨inst, ?_, h⟩
    rw [intStep, topInt, Represents.top h]
    rfl
  | pop =>
    obtain ⟨inst', hpop, hrep⟩ := Represents.pop h
    refine ⟨inst', ?_, ?_⟩
    · rw [intStep, Collections.popInt, hpop]
      rfl
    · rw [Holds, storedStep, map_dropLast]
      exact hrep

end Calls

/-! ### Whole runs -/

variable {capacity : Nat} {instOk dataOk : Bool} {inst : Vector}

theorem holds_intVectorInit (hpos : 1 ≤ capacity) (hbytes : capacity * 8 < 2 ^ 64)
    (hinit : intVectorInit capacity instOk dataOk = .ok inst) : Holds inst [] :=
  (refines_init hpos (by omega) hbytes hinit).1

/-- **Which integers come back.** After every sequence of calls in which `realloc` succeeds where it
is needed and nothing wraps around, `get_int` returns the value last stored at an index exactly if
the bytes behind the `int` were the upper half of that value, and `pop_int` returns the value at
the end exactly if a `uint8_t` holds it. -/
theorem ints_kept_iff (p : Platform) (hpos : 1 ≤ capacity) (hbytes : capacity * 8 < 2 ^ 64)
    (hinit : intVectorInit capacity instOk dataOk = .ok inst) (ops : List IntOp)
    (hgrow : Along (intStep p) (IntCanGrow p) inst ops) :
    ∃ final, run (intStep p) inst ops = some final ∧
      (∀ i x, (storedBy ops)[i]? = some x →
        ∃ v, getInt final i = some v ∧ (v = x.el ↔ x.Whole)) ∧
      ∀ x, (storedBy ops).getLast? = some x →
        ∃ inst' v, popInt final = some (inst', v) ∧
          ((v.toNat : Int) = x.el.toInt ↔ 0 ≤ x.el.toInt ∧ x.el.toInt < 256) := by
  have hstep : ∀ (inst : Vector) (xs : List Stored) op, Holds inst xs → IntCanGrow p inst op →
      ∃ inst', intStep p inst op = some inst' ∧ Holds inst' (storedStep xs op) :=
    fun inst xs op h hg => h.step hg
  obtain ⟨final, hrun, hholds⟩ := run_refines hstep (holds_intVectorInit hpos hbytes hinit) hgrow
  refine ⟨final, hrun, ?_, ?_⟩
  · intro i x hx
    exact ⟨_, hholds.getInt hx, int64At_eq_iff x⟩
  · intro x hx
    obtain ⟨inst', hpop⟩ := hholds.popInt hx
    exact ⟨inst', _, hpop, toUint8_eq_iff x⟩

def oneSlot : Vector := ⟨replicate 8 0, 0, 1, false⟩

/-- A value that fits into the `int`, with clear bytes behind it, and a negative one, with set bytes
behind it; the second `add_int` grows the vector. -/
def smallInts : List IntOp :=
  [.add 7 ⟨[0, 0, 0, 0], rfl⟩ fun _ => none,
    .add 9 ⟨[1, 2, 3, 4], rfl⟩ fun attempt => if attempt < 2 then none else some fun _ => 0,
    .set 0 (-7) ⟨[255, 255, 255, 255], rfl⟩]

theorem ints_kept_iff_small :
    Along (intStep .glibc) (IntCanGrow .glibc) oneSlot smallInts ∧
      ∃ inst, run (intStep .glibc) oneSlot smallInts = some inst ∧ getInt inst 0 = some (-7) ∧
        (∃ v, getInt inst 1 = some v ∧ v ≠ 9) ∧ ∃ inst', popInt inst = some (inst', 9) := by
  have hgrow : Along (intStep .glibc) (IntCanGrow .glibc) oneSlot smallInts := by decide +kernel
  obtain ⟨inst, hrun, hget, hpop⟩ := ints_kept_iff .glibc (by decide) (by decide)
    (show intVectorInit 1 true true = .ok oneSlot from rfl) smallInts hgrow
  obtain ⟨v, hv, hfirst⟩ := hget 0 ⟨-7, ⟨[255, 255, 255, 255], rfl⟩⟩ rfl
  obtain ⟨w, hw, hsecond⟩ := hget 1 ⟨9, ⟨[1, 2, 3, 4], rfl⟩⟩ rfl
  obtain ⟨inst', u, hu, hlast⟩ := hpop ⟨9, ⟨[1, 2, 3, 4], rfl⟩⟩ rfl
  refine ⟨hgrow, inst, hrun, ?_, ⟨w, hw, ?_⟩, inst', ?_⟩
  · rw [hv, hfirst.mpr (by decide)]
  · exact fun h => absurd (hsecond.mp h) (by decide)
  · have hnine : u = 9 := UInt8.toNat_inj.mp (Int.ofNat_inj.mp (hlast.mpr (by decide)))
    rw [hu, hnine]

/-- `2 ^ 32` has nothing in its low half and comes back as 0 from clear memory; 300 is popped as 44,
whatever lies behind the `int`. -/
theorem ints_cut_off :
    intVectorInit 1 true true = .ok oneSlot ∧
      (∃ inst, run (intStep .glibc) oneSlot [.add 4294967296 ⟨[0, 0, 0, 0], rfl⟩ fun _ => none] =
        some inst ∧ getInt inst 0 = some 0) ∧
      ∀ behind, ∃ inst inst',
        run (intStep .glibc) oneSlot [.add 300 behind fun _ => none] = some inst ∧
        popInt inst = some (inst', 44) := by
  refine ⟨rfl, ⟨_, rfl, by decide⟩, fun behind => ?_⟩
  have hinit : intVectorInit 1 true true = .ok oneSlot := rfl
  obtain ⟨inst, hstep, hholds⟩ := (holds_intVectorInit (Nat.le_refl 1) (by decide) hinit).step
    (show IntCanGrow .glibc oneSlot (.add 300 behind fun _ => none) from
      fun h => absurd h (by decide))
  obtain ⟨inst', hpop⟩ := hholds.popInt (x := ⟨300, behind⟩) rfl
  refine ⟨inst, inst', ?_, ?_⟩
  · rw [run, hstep]
    rfl
  · have hvalue : toUint8 (int64At (Stored.bytes ⟨300, behind⟩).toList) = 44 := by
      have hbits : (300 : Int64).toBitVec.toNat = 300 := rfl
      have hbyte : (44 : UInt8).toNat = 44 := rfl
      rw [← UInt8.toNat_inj, toNat_toUint8, toNat_int64At, hbits, hbyte]
      omega
    rw [hpop, hvalue]

end LinuxWorkouts.Collections
