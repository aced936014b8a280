import Mathlib

/-!
`send_request` of `pthreads-problems/problem-6-HTTP-Client/HTTPClient.c`.

The function calls `send` until one call takes the whole message, at most `CNT_RETRIES` times more
than once. What `send` took is compared with the length only: after a call that took a part the next
one starts at the first byte again. The result of `send` goes through an `int`, and the comparison
with a `size_t` converts it back; from 2 ^ 31 bytes on the two never agree.
-/

namespace LinuxWorkouts.HttpClient

open List

def CNT_RETRIES : Nat := 5

/-- A C string, without its terminating zero. -/
structure Message where
  bytes : List UInt8
  noZero : 0 ∉ bytes
  fits : bytes.length < 2 ^ 63

def Message.len (msg : Message) : Nat := msg.bytes.length

/-- What a `send` of `len` bytes does. -/
inductive SendResult (len : Nat) where
  | error
  | sent (count : Nat) (le : count ≤ len)

namespace SendResult

variable {len : Nat}

def value : SendResult len → Int
  | error => -1
  | sent count _ => count

def taken : SendResult len → Nat
  | error => 0
  | sent count _ => count

def Whole : SendResult len → Prop
  | error => False
  | sent count _ => count = len

end SendResult

inductive Code where
  | noErr
  | sockErrWrite
deriving DecidableEq, Repr

/-- What `send_request` returns, and the bytes that the socket took over all calls. -/
structure Outcome where
  code : Code
  handed : List UInt8
deriving DecidableEq, Repr

def toInt (value : Int) : Int := value.bmod (2 ^ 32)

/-- An `int` as a `size_t`. -/
def toSize (n : Int) : Nat := (n % 2 ^ 64).toNat

variable (msg : Message) (results : Nat → SendResult msg.len)

/-- The loop. Every call gets the whole message; `results retries` is what the next one does. -/
def sendLoop (retries : Nat) (handed : List UInt8) : Outcome :=
  if toSize (toInt (results retries).value) = msg.len then
    ⟨.noErr, handed ++ msg.bytes.take (results retries).taken⟩
  else if retries ≥ CNT_RETRIES then
    ⟨.sockErrWrite, handed ++ msg.bytes.take (results retries).taken⟩
  else sendLoop (retries + 1) (handed ++ msg.bytes.take (results retries).taken)
termination_by CNT_RETRIES - retries

def sendRequest : Outcome := sendLoop msg results 0 []

def FirstWhole (j : Nat) : Prop := (results j).Whole ∧ ∀ i < j, ¬ (results i).Whole

/-! ### The comparison -/

theorem toInt_natCast {n : Nat} (h : n < 2 ^ 31) : toInt n = n :=
  Int.bmod_eq_of_le (by omega) (by omega)

theorem toInt_bounds (n : Int) : -2 ^ 31 ≤ toInt n ∧ toInt n < 2 ^ 31 :=
  ⟨Int.le_bmod (by decide), Int.bmod_lt (by decide)⟩

variable {msg results}

theorem toSize_toInt_eq_iff (result : SendResult msg.len) :
    toSize (toInt result.value) = msg.len ↔ msg.len < 2 ^ 31 ∧ result.Whole := by
  have hfits : msg.len < 2 ^ 63 := msg.fits
  obtain ⟨hlow, hhigh⟩ := toInt_bounds result.value
  by_cases hsmall : msg.len < 2 ^ 31
  · cases result with
    | error =>
      have : toSize (toInt (-1)) = 2 ^ 64 - 1 := by decide
      simp only [SendResult.value, SendResult.Whole, and_false, iff_false, this]
      omega
    | sent count le =>
      simp only [SendResult.value, SendResult.Whole, hsmall, true_and,
        toInt_natCast (le.trans_lt hsmall), toSize]
      omega
  · refine iff_of_false ?_ fun h => hsmall h.1
    rw [toSize]
    omega

/-! ### The loop -/

def takenFrom (msg : Message) (results : Nat → SendResult msg.len) (start n : Nat) : List UInt8 :=
  (range' start n).flatMap fun i => msg.bytes.take (results i).taken

theorem takenFrom_succ (start n : Nat) :
    takenFrom msg results start (n + 1) =
      msg.bytes.take (results start).taken ++ takenFrom msg results (start + 1) n := by
  rw [takenFrom, range'_succ, flatMap_cons]
  rfl

theorem sendLoop_of_first {retries j : Nat} (handed : List UInt8) (hle : retries ≤ j)
    (hj : j ≤ CNT_RETRIES) (hlast : toSize (toInt (results j).value) = msg.len)
    (hbefore : ∀ i, retries ≤ i → i < j → toSize (toInt (results i).value) ≠ msg.len) :
    sendLoop msg results retries handed =
      ⟨.noErr, handed ++ takenFrom msg results retries (j + 1 - retries)⟩ := by
  induction retries, handed using sendLoop.induct msg results with
  | case1 retries handed heq =>
    obtain rfl : retries = j := by
      by_contra hne
      exact hbefore retries le_rfl (lt_of_le_of_ne hle hne) heq
    rw [sendLoop, if_pos heq, Nat.add_sub_cancel_left, takenFrom_succ]
    simp [takenFrom]
  | case2 retries handed hne hlimit =>
    obtain rfl : retries = j := by omega
    exact absurd hlast hne
  | case3 retries handed hne hlimit ih =>
    have hlt : retries < j := by
      refine lt_of_le_of_ne hle ?_
      rintro rfl
      exact hne hlast
    have hcalls : j + 1 - retries = j + 1 - (retries + 1) + 1 := by omega
    rw [sendLoop, if_neg hne, if_neg hlimit, hcalls, takenFrom_succ, ← append_assoc]
    exact ih hlt fun i hi => hbefore i (Nat.le_of_succ_le hi)

theorem sendLoop_of_none {retries : Nat} (handed : List UInt8)
    (hnone : ∀ i, retries ≤ i → i ≤ max retries CNT_RETRIES →
      toSize (toInt (results i).value) ≠ msg.len) :
    (sendLoop msg results retries handed).code = .sockErrWrite := by
  induction retries, handed using sendLoop.induct msg results with
  | case1 retries handed heq => exact absurd heq (hnone retries le_rfl (le_max_left _ _))
  | case2 retries handed hne hlimit => rw [sendLoop, if_neg hne, if_pos hlimit]
  | case3 retries handed hne hlimit ih =>
    rw [sendLoop, if_neg hne, if_neg hlimit]
    refine ih fun i hi hle => hnone i (Nat.le_of_succ_le hi) ?_
    omega

/-! ### The message, once -/

theorem SendResult.taken_of_whole {result : SendResult msg.len} (h : result.Whole) :
    result.taken = msg.len := by
  cases result with
  | error => exact h.elim
  | sent count le => exact h

theorem SendResult.taken_le (result : SendResult msg.len) : result.taken ≤ msg.len := by
  cases result with
  | error => exact Nat.zero_le _
  | sent count le => exact le

theorem takenFrom_eq_bytes_iff {j : Nat} (hwhole : (results j).Whole) :
    takenFrom msg results 0 (j + 1) = msg.bytes ↔ ∀ i < j, (results i).taken = 0 := by
  have hlast : takenFrom msg results 0 (j + 1) = takenFrom msg results 0 j ++ msg.bytes := by
    rw [takenFrom, range'_concat, flatMap_append, flatMap_singleton, Nat.one_mul,
      Nat.zero_add, SendResult.taken_of_whole hwhole]
    exact congrArg _ take_length
  rw [hlast, append_left_eq_self, takenFrom, flatMap_eq_nil_iff]
  constructor
  · intro h i hi
    have htake := h i (mem_range'_1.mpr ⟨Nat.zero_le i, by omega⟩)
    have hlength : min (results i).taken msg.len = 0 :=
      (length_take.symm.trans (congrArg length htake))
    rwa [min_eq_left (results i).taken_le] at hlength
  · intro h i hi
    have hlt : i < j := by
      have := (mem_range'_1.mp hi).2
      omega
    rw [h i hlt, take_zero]

/-- `NO_ERR` says that the socket took the message once, iff no call before the first one that takes
all of it takes a part. From `2 ^ 31` bytes on `NO_ERR` is not returned. -/
theorem sendRequest_exact_iff (msg : Message) (results : Nat → SendResult msg.len) :
    ((sendRequest msg results).code = .noErr → (sendRequest msg results).handed = msg.bytes) ↔
      (msg.len < 2 ^ 31 → ∀ j ≤ CNT_RETRIES, FirstWhole msg results j →
        ∀ i < j, (results i).taken = 0) := by
  constructor
  · intro h hsmall j hj hfirst
    have hrun := sendLoop_of_first [] (Nat.zero_le j) hj
      ((toSize_toInt_eq_iff _).mpr ⟨hsmall, hfirst.1⟩)
      fun i _ hi heq => hfirst.2 i hi ((toSize_toInt_eq_iff _).mp heq).2
    rw [sendRequest, hrun, nil_append] at h
    exact (takenFrom_eq_bytes_iff hfirst.1).mp (h rfl)
  · intro h hcode
    by_cases hsome : ∃ j, j ≤ CNT_RETRIES ∧ toSize (toInt (results j).value) = msg.len
    · -- the first call whose result passes for the length
      obtain ⟨j, ⟨hj, hlast⟩, hmin⟩ := Nat.findX hsome
      have hbefore : ∀ i < j, toSize (toInt (results i).value) ≠ msg.len :=
        fun i hi heq => hmin i hi ⟨hi.le.trans hj, heq⟩
      obtain ⟨hsmall, hwhole⟩ := (toSize_toInt_eq_iff _).mp hlast
      have hfirst : FirstWhole msg results j :=
        ⟨hwhole, fun i hi hw => hbefore i hi ((toSize_toInt_eq_iff _).mpr ⟨hsmall, hw⟩)⟩
      rw [sendRequest, sendLoop_of_first [] (Nat.zero_le j) hj hlast fun i _ => hbefore i,
        nil_append]
      exact (takenFrom_eq_bytes_iff hwhole).mpr (h hsmall j hj hfirst)
    · have hnone : (sendLoop msg results 0 []).code = .sockErrWrite :=
        sendLoop_of_none [] fun i _ hi heq => hsome ⟨i, hi, heq⟩
      rw [sendRequest, hnone] at hcode
      cases hcode

theorem get_noZero : 0 ∉ ([71, 69, 84] : List UInt8) := by decide

theorem get_fits : ([71, 69, 84] : List UInt8).length < 2 ^ 63 := by decide

def getMessage : Message := ⟨[71, 69, 84], get_noZero, get_fits⟩

theorem one_le_getMessage : 1 ≤ getMessage.len := by decide

def partThenAll : Nat → SendResult getMessage.len
  | 0 => .sent 1 one_le_getMessage
  | _ + 1 => .sent getMessage.len le_rfl

theorem sendRequest_repeats_bytes :
    (sendRequest getMessage partThenAll).code = .noErr ∧
      (sendRequest getMessage partThenAll).handed ≠ getMessage.bytes := by
  have hrun : sendRequest getMessage partThenAll = ⟨.noErr, [71, 71, 69, 84]⟩ := by
    rw [sendRequest, sendLoop, if_neg (by decide), if_neg (by decide), sendLoop, if_pos (by decide)]
    rfl
  rw [hrun]
  decide

end LinuxWorkouts.HttpClient
