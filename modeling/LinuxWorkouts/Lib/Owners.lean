import Mathlib

/-!
Slots that refer to keys, and how many refer to each.

`slots` says what is in each slot; `owners slots key k` is the set of the slots whose content has
the key `k`. A reference count is right when it is the number of owners, so the lemmas here are how
that number changes when a slot is filled or emptied.
-/

namespace LinuxWorkouts.Owners

open Function

variable {α β κ : Type*} {slots : α → Option β} {key : β → κ} {a b : α} {x : β} {k : κ}

def owners (slots : α → Option β) (key : β → κ) (k : κ) : Set α :=
  {a | ∃ x, slots a = some x ∧ key x = k}

theorem mem_owners : a ∈ owners slots key k ↔ ∃ x, slots a = some x ∧ key x = k := Iff.rfl

theorem mem_owners_of_eq (h : slots a = some x) : a ∈ owners slots key (key x) := ⟨x, h, rfl⟩

section Update

variable [DecidableEq α]

theorem owners_fill_self (hfree : slots a = none) (hx : key x = k) :
    owners (update slots a (some x)) key k = insert a (owners slots key k) := by
  ext b
  by_cases hb : b = a
  · subst hb
    simp [mem_owners, hx]
  · simp [mem_owners, hb]

theorem owners_fill_other (hfree : slots a = none) (hx : key x ≠ k) :
    owners (update slots a (some x)) key k = owners slots key k := by
  ext b
  by_cases hb : b = a
  · subst hb
    simp [mem_owners, hx, hfree]
  · simp [mem_owners, hb]

theorem owners_clear : owners (update slots a none) key k = owners slots key k \ {a} := by
  ext b
  by_cases hb : b = a
  · subst hb
    simp [mem_owners]
  · simp [mem_owners, hb]

variable [Finite α]

theorem ncard_fill_self (hfree : slots a = none) (hx : key x = k) :
    (owners (update slots a (some x)) key k).ncard = (owners slots key k).ncard + 1 := by
  rw [owners_fill_self hfree hx, Set.ncard_insert_of_notMem]
  rintro ⟨y, hy, -⟩
  rw [hfree] at hy
  cases hy

theorem ncard_clear_self (h : slots a = some x) (hx : key x = k) :
    (owners (update slots a none) key k).ncard + 1 = (owners slots key k).ncard := by
  rw [owners_clear]
  exact Set.ncard_sdiff_singleton_add_one ⟨x, h, hx⟩

omit [Finite α] in
theorem ncard_clear_other (h : slots a = some x) (hx : key x ≠ k) :
    (owners (update slots a none) key k).ncard = (owners slots key k).ncard := by
  rw [owners_clear, Set.sdiff_singleton_eq_self]
  rintro ⟨y, hy, hyk⟩
  rw [h] at hy
  cases hy
  exact hx hyk

end Update

theorem eq_of_ncard_eq_one (h : (owners slots key k).ncard = 1) (ha : a ∈ owners slots key k)
    (hb : b ∈ owners slots key k) : a = b := by
  obtain ⟨c, hc⟩ := Set.ncard_eq_one.mp h
  rw [hc] at ha hb
  exact (Set.mem_singleton_iff.mp ha).trans (Set.mem_singleton_iff.mp hb).symm

end LinuxWorkouts.Owners
