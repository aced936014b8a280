import Mathlib

/-!
One allocated block, read and written in runs of cells.

`read` and `write` are the two directions of a `memcpy`: the copied cells have to lie inside
the block, otherwise the access has no result. The lemmas are the three a proof about an array
of fixed-size slots needs: a write is read back, it leaves disjoint cells alone, and it does
not change the length. `grow` is the block a successful `realloc` to a larger size returns.
-/

namespace LinuxWorkouts.ByteBlock

open List

variable {α : Type*}

/-- `n` cells from `pos` on. -/
def read (block : List α) (pos n : Nat) : Option (List α) :=
  if pos + n ≤ block.length then some ((block.drop pos).take n) else none

def write (block : List α) (pos : Nat) (cells : List α) : Option (List α) :=
  if pos + cells.length ≤ block.length then
    some (block.take pos ++ cells ++ block.drop (pos + cells.length))
  else none

/-- The block of `n` cells that starts as the old one; `fill` is what the allocator leaves in
the cells behind it. -/
def grow (block : List α) (n : Nat) (fill : Nat → α) : List α :=
  block.take n ++ (range (n - block.length)).map fill

variable {block cells block' : List α} {pos : Nat}

theorem write_of_le (h : pos + cells.length ≤ block.length) :
    write block pos cells = some (block.take pos ++ cells ++ block.drop (pos + cells.length)) := by
  rw [write, if_pos h]

section

variable (h : write block pos cells = some block')
include h

theorem length_write : block'.length = block.length := by
  unfold write at h
  split at h
  case isTrue hle =>
    cases h
    simp only [length_append, length_take, length_drop]
    omega
  case isFalse => cases h

theorem read_write_same : read block' pos cells.length = some cells := by
  have hlen := length_write h
  unfold write at h
  split at h
  case isTrue hle =>
    cases h
    have htake : (block.take pos).length = pos := by
      rw [length_take]
      omega
    rw [read, if_pos (by omega), append_assoc, drop_append_of_le_length (by omega),
      drop_of_length_le (by omega), nil_append, take_left]
  case isFalse => cases h

theorem read_write_apart {at' n : Nat} (apart : at' + n ≤ pos ∨ pos + cells.length ≤ at') :
    read block' at' n = read block at' n := by
  have hlen := length_write h
  unfold write at h
  split at h
  case isTrue hle =>
    cases h
    simp only [read, hlen]
    congr 2
    apply ext_getElem?
    intro i
    by_cases hi : i < n
    · rw [getElem?_take_of_lt hi, getElem?_take_of_lt hi, getElem?_drop, getElem?_drop]
      rcases apart with hbefore | hbehind
      · rw [append_assoc, getElem?_append_left, getElem?_take_of_lt (by omega)]
        rw [length_take]
        omega
      · rw [getElem?_append_right, getElem?_drop]
        · congr 1
          rw [length_append, length_take]
          omega
        · rw [length_append, length_take]
          omega
    · rw [getElem?_take_eq_none (by omega), getElem?_take_eq_none (by omega)]
  case isFalse => cases h

end

@[simp] theorem length_grow (block : List α) (n : Nat) (fill : Nat → α) :
    (grow block n fill).length = n := by
  simp only [grow, length_append, length_take, length_map, length_range]
  omega

theorem read_grow {n m : Nat} {fill : Nat → α} (hm : block.length ≤ m)
    (h : read block pos n = some cells) :
    read (grow block m fill) pos n = some cells := by
  unfold read at h ⊢
  split at h
  case isTrue hle =>
    rw [length_grow, if_pos (by omega), ← h, grow, take_of_length_le hm,
      drop_append_of_le_length (by omega),
      take_append_of_le_length (by rw [length_drop]; omega)]
  case isFalse => cases h

end LinuxWorkouts.ByteBlock
