import Mathlib

/-!
Numbers in memory, the low byte first.

`toBytes k n` are the low `k` bytes of `n` and `ofBytes` is the number that bytes stand for.
`ofBytes_append` reads a number whose halves were stored apart.
-/

namespace LinuxWorkouts.LittleEndian

def toBytes : Nat → Nat → List UInt8
  | 0, _ => []
  | k + 1, n => UInt8.ofNat n :: toBytes k (n / 256)

def ofBytes : List UInt8 → Nat
  | [] => 0
  | b :: bytes => b.toNat + 256 * ofBytes bytes

@[simp] theorem length_toBytes (k n : Nat) : (toBytes k n).length = k := by
  induction k generalizing n with
  | zero => rfl
  | succ k ih => rw [toBytes, List.length_cons, ih]

theorem ofBytes_toBytes (k n : Nat) : ofBytes (toBytes k n) = n % 256 ^ k := by
  induction k generalizing n with
  | zero => rw [pow_zero, Nat.mod_one, toBytes, ofBytes]
  | succ k ih =>
    rw [toBytes, ofBytes, ih, UInt8.toNat_ofNat', pow_succ' 256 k, Nat.mod_mul]

theorem ofBytes_append (low high : List UInt8) :
    ofBytes (low ++ high) = ofBytes low + 256 ^ low.length * ofBytes high := by
  induction low with
  | nil => simp [ofBytes]
  | cons b low ih =>
    rw [List.cons_append, ofBytes, ofBytes, ih, List.length_cons, pow_succ']
    ring

theorem ofBytes_lt (bytes : List UInt8) : ofBytes bytes < 256 ^ bytes.length := by
  induction bytes with
  | nil => exact Nat.one_pos
  | cons b bytes ih =>
    have hb : b.toNat < 256 := b.toNat_lt
    rw [ofBytes, List.length_cons, pow_succ']
    omega

end LinuxWorkouts.LittleEndian
