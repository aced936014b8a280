import Mathlib

/-!
Bubble sort of a list by a key, with a part at its end that is sorted.

`bubble` carries an element through a list and leaves it in front of the first one with a larger
key, which it carries on. A pass without an exchange has found the list sorted; any other one has
moved a greatest element to the end (`le_last`), where `bubbleSort` adds it to the sorted part. Only
elements with different keys change places, so that those with one key keep their order
(`filter_bubbleSort`).
-/

namespace LinuxWorkouts.BubbleSort

open List

variable {α κ : Type*} [LinearOrder κ] (key : α → κ)

/-- What a pass leaves: a list, the element behind it, and whether it exchanged any. -/
structure Pass (α : Type*) where
  front : List α
  last : α
  swapped : Bool

def Pass.toList (p : Pass α) : List α := p.front ++ [p.last]

def bubble (c : α) : List α → Pass α
  | [] => ⟨[], c, false⟩
  | x :: xs =>
    if key x < key c then
      ⟨x :: (bubble c xs).front, (bubble c xs).last, true⟩
    else ⟨c :: (bubble x xs).front, (bubble x xs).last, (bubble x xs).swapped⟩

variable {key} {c : α} {xs : List α}

theorem length_front (c : α) (xs : List α) : (bubble key c xs).front.length = xs.length := by
  induction xs generalizing c with
  | nil => rfl
  | cons x xs ih =>
    rw [bubble]
    split
    · exact congrArg Nat.succ (ih c)
    · exact congrArg Nat.succ (ih x)

variable (key) in
/-- Passes over `region` until one exchanges nothing; `tail` is sorted. -/
def bubbleSort (region tail : List α) : List α :=
  match region with
  | [] => tail
  | c :: xs =>
    if (bubble key c xs).swapped then
      bubbleSort (bubble key c xs).front ((bubble key c xs).last :: tail)
    else (bubble key c xs).toList ++ tail
termination_by region.length
decreasing_by
  rw [length_front]
  exact Nat.lt_succ_self _

/-! ### One pass -/

theorem bubble_cons_of_lt {x : α} (h : key x < key c) :
    bubble key c (x :: xs) = ⟨x :: (bubble key c xs).front, (bubble key c xs).last, true⟩ :=
  if_pos h

theorem bubble_cons_of_le {x : α} (h : key c ≤ key x) :
    bubble key c (x :: xs) =
      ⟨c :: (bubble key x xs).front, (bubble key x xs).last, (bubble key x xs).swapped⟩ :=
  if_neg h.not_gt

theorem toList_of_lt {x : α} (h : key x < key c) :
    (bubble key c (x :: xs)).toList = x :: (bubble key c xs).toList := by
  rw [bubble_cons_of_lt h]
  rfl

theorem toList_of_le {x : α} (h : key c ≤ key x) :
    (bubble key c (x :: xs)).toList = c :: (bubble key x xs).toList := by
  rw [bubble_cons_of_le h]
  rfl

theorem toList_perm (c : α) (xs : List α) : (bubble key c xs).toList.Perm (c :: xs) := by
  induction xs generalizing c with
  | nil => exact .refl _
  | cons x xs ih =>
    rcases lt_or_ge (key x) (key c) with h | h
    · rw [toList_of_lt h]
      exact ((ih c).cons x).trans (.swap c x xs)
    · rw [toList_of_le h]
      exact (ih x).cons c

theorem filter_toList [DecidableEq κ] (w : κ) (c : α) (xs : List α) :
    (bubble key c xs).toList.filter (key · = w) = (c :: xs).filter (key · = w) := by
  induction xs generalizing c with
  | nil => rfl
  | cons x xs ih =>
    rcases lt_or_ge (key x) (key c) with h | h
    · rw [toList_of_lt h, filter_cons, ih c, filter_cons, filter_cons, filter_cons]
      by_cases hx : key x = w
      · have hc : key c ≠ w := fun hc => h.ne (hx.trans hc.symm)
        simp [hx, hc]
      · simp [hx]
    · rw [toList_of_le h, ← singleton_append, filter_append, ih x, ← filter_append,
        singleton_append]

theorem le_last (c : α) (xs : List α) : ∀ a ∈ c :: xs, key a ≤ key (bubble key c xs).last := by
  induction xs generalizing c with
  | nil => exact forall_mem_singleton.mpr le_rfl
  | cons x xs ih =>
    rcases lt_or_ge (key x) (key c) with h | h
    · rw [bubble_cons_of_lt h]
      obtain ⟨hc, hxs⟩ := forall_mem_cons.mp (ih c)
      exact forall_mem_cons.mpr ⟨hc, forall_mem_cons.mpr ⟨h.le.trans hc, hxs⟩⟩
    · rw [bubble_cons_of_le h]
      have hx := (forall_mem_cons.mp (ih x)).1
      exact forall_mem_cons.mpr ⟨h.trans hx, ih x⟩

theorem sorted_of_not_swapped (h : (bubble key c xs).swapped = false) :
    (bubble key c xs).toList = c :: xs ∧ (c :: xs).Pairwise (key · ≤ key ·) := by
  induction xs generalizing c with
  | nil => exact ⟨rfl, pairwise_singleton _ _⟩
  | cons x xs ih =>
    rcases lt_or_ge (key x) (key c) with hlt | hle
    · rw [bubble_cons_of_lt hlt] at h
      cases h
    · rw [bubble_cons_of_le hle] at h
      obtain ⟨hlist, hsorted⟩ := ih h
      rw [toList_of_le hle]
      refine ⟨congrArg (c :: ·) hlist, pairwise_cons.mpr ⟨?_, hsorted⟩⟩
      refine forall_mem_cons.mpr ⟨hle, fun a ha => hle.trans ?_⟩
      exact (pairwise_cons.mp hsorted).1 a ha

theorem mem_of_mem_front {a : α} (ha : a ∈ (bubble key c xs).front) : a ∈ c :: xs :=
  (toList_perm c xs).mem_iff.mp (mem_append_left _ ha)

theorem front_ne_nil_of_swapped (h : (bubble key c xs).swapped) : (bubble key c xs).front ≠ [] := by
  cases xs with
  | nil => cases h
  | cons x xs => exact ne_nil_of_length_eq_add_one (length_front c (x :: xs))

/-! ### All passes -/

theorem bubbleSort_cons_of_swapped {tail : List α} (h : (bubble key c xs).swapped) :
    bubbleSort key (c :: xs) tail =
      bubbleSort key (bubble key c xs).front ((bubble key c xs).last :: tail) := by
  rw [bubbleSort, if_pos h]

theorem bubbleSort_cons_of_not_swapped {tail : List α} (h : (bubble key c xs).swapped = false) :
    bubbleSort key (c :: xs) tail = (bubble key c xs).toList ++ tail := by
  rw [bubbleSort, if_neg (by rw [h]; exact Bool.false_ne_true)]

theorem front_append (p : Pass α) (tail : List α) :
    p.front ++ p.last :: tail = p.toList ++ tail := by
  rw [Pass.toList, append_assoc, singleton_append]

theorem bubbleSort_perm (region tail : List α) :
    (bubbleSort key region tail).Perm (region ++ tail) := by
  induction region, tail using bubbleSort.induct key with
  | case1 tail => rw [bubbleSort]; exact .refl _
  | case2 tail c xs hswapped ih =>
    rw [bubbleSort_cons_of_swapped hswapped]
    rw [front_append] at ih
    exact ih.trans ((toList_perm c xs).append_right tail)
  | case3 tail c xs hswapped =>
    rw [bubbleSort_cons_of_not_swapped (Bool.eq_false_iff.mpr hswapped)]
    exact (toList_perm c xs).append_right tail

theorem filter_bubbleSort [DecidableEq κ] (w : κ) (region tail : List α) :
    (bubbleSort key region tail).filter (key · = w) = (region ++ tail).filter (key · = w) := by
  induction region, tail using bubbleSort.induct key with
  | case1 tail => rw [bubbleSort, nil_append]
  | case2 tail c xs hswapped ih =>
    rw [bubbleSort_cons_of_swapped hswapped, ih, front_append, filter_append, filter_toList,
      filter_append]
  | case3 tail c xs hswapped =>
    rw [bubbleSort_cons_of_not_swapped (Bool.eq_false_iff.mpr hswapped), filter_append,
      filter_toList, filter_append]

theorem bubbleSort_sorted {region tail : List α} (htail : tail.Pairwise (key · ≤ key ·))
    (hle : ∀ a ∈ region, ∀ b ∈ tail, key a ≤ key b) :
    (bubbleSort key region tail).Pairwise (key · ≤ key ·) := by
  induction region, tail using bubbleSort.induct key with
  | case1 tail => rwa [bubbleSort]
  | case2 tail c xs hswapped ih =>
    have hlast : (bubble key c xs).last ∈ c :: xs :=
      (toList_perm c xs).mem_iff.mp (mem_append_right _ (mem_singleton_self _))
    rw [bubbleSort_cons_of_swapped hswapped]
    refine ih (pairwise_cons.mpr ⟨?_, htail⟩) fun a ha => forall_mem_cons.mpr ⟨?_, ?_⟩
    · exact hle _ hlast
    · exact le_last c xs a (mem_of_mem_front ha)
    · exact hle a (mem_of_mem_front ha)
  | case3 tail c xs hswapped =>
    obtain ⟨hlist, hsorted⟩ := sorted_of_not_swapped (Bool.eq_false_iff.mpr hswapped)
    rw [bubbleSort_cons_of_not_swapped (Bool.eq_false_iff.mpr hswapped), hlist]
    exact pairwise_append.mpr ⟨hsorted, htail, hle⟩

end LinuxWorkouts.BubbleSort
