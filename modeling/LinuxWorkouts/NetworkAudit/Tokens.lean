import Mathlib.Data.List.Infix
import Mathlib.Logic.Function.Iterate
import Mathlib.Tactic.Ring

/-!
`del_empty` of `net/network-audit-tool/modules/collector.py`.

The function removes from the list over which it iterates. The loop goes on by positions, so that
whenever it removes an empty string it passes over the element that moves up; and `remove` takes the
first empty string, which may be one that was passed over before. `delEmpty_eq` says it with two
numbers: of the empty strings as many are removed as the loop gets to see, from the front.
-/

namespace LinuxWorkouts.NetworkAudit

open Function List

abbrev Str := List Char

/-- The loop from position `i` on. No string is `None`, and what `strip` returns is not stored in
the list. -/
def delEmptyLoop (tokens : List Str) (i : Nat) : List Str :=
  if h : i < tokens.length then
    if tokens[i] = [] then delEmptyLoop (tokens.erase []) (i + 1) else delEmptyLoop tokens (i + 1)
  else tokens
termination_by tokens.length - i
decreasing_by
  · have := length_erase_le (a := ([] : Str)) (l := tokens)
    omega
  · omega

def delEmpty (tokens : List Str) : List Str := delEmptyLoop tokens 0

def seen : List Str → Nat
  | [] => 0
  | [[]] => 1
  | [] :: _ :: tokens => seen tokens + 1
  | (_ :: _) :: tokens => seen tokens

/-! ### The loop -/

section Loop

variable {tokens : List Str} {i : Nat}

theorem drop_erase_empty (h : i < tokens.length) (hempty : tokens[i] = []) :
    (tokens.erase []).drop (i + 1) = (tokens.drop (i + 1)).tail := by
  have hsplit : tokens = tokens.take i ++ [] :: tokens.drop (i + 1) := by
    rw [← hempty, ← drop_eq_getElem_cons h, take_append_drop]
  have hlength : (tokens.take i).length = i := length_take_of_le h.le
  rw [tail_drop]
  generalize tokens.take i = front at hsplit hlength
  generalize tokens.drop (i + 1) = rest at hsplit
  subst hsplit hlength
  rw [Nat.add_assoc, drop_length_add_append]
  by_cases hmem : [] ∈ front
  · have hshort : front.length + 1 = (front.erase []).length + 2 := by
      have hpos := length_pos_of_mem hmem
      rw [length_erase_of_mem hmem]
      omega
    rw [erase_append_left _ hmem, hshort, drop_length_add_append]
  · rw [erase_append_right _ hmem, erase_cons_head, drop_length_add_append]
    rfl

theorem seen_cons_of_ne {token : Str} (h : token ≠ []) (rest : List Str) :
    seen (token :: rest) = seen rest := by
  obtain ⟨c, cs, rfl⟩ := exists_cons_of_ne_nil h
  rw [seen]

theorem seen_empty_cons (rest : List Str) : seen ([] :: rest) = seen rest.tail + 1 := by
  cases rest with
  | nil => rfl
  | cons token rest => rfl

theorem delEmptyLoop_eq (tokens : List Str) (i : Nat) :
    delEmptyLoop tokens i = (fun l => l.erase [])^[seen (tokens.drop i)] tokens := by
  fun_induction delEmptyLoop tokens i with
  | case1 tokens i h hempty ih =>
    rw [ih, drop_eq_getElem_cons h, hempty, seen_empty_cons, drop_erase_empty h hempty,
      iterate_succ_apply]
  | case2 tokens i h hne ih => rw [ih, drop_eq_getElem_cons h, seen_cons_of_ne hne]
  | case3 tokens i h =>
    rw [drop_eq_nil_of_le (not_lt.mp h)]
    rfl

theorem delEmpty_eq (tokens : List Str) :
    delEmpty tokens = (fun l => l.erase [])^[seen tokens] tokens := by
  rw [delEmpty, delEmptyLoop_eq, drop_zero]

end Loop

/-! ### Removing from the front -/

section Erase

variable {tokens : List Str} {token : Str} {k : Nat}

theorem iterate_erase_cons_of_ne (h : token ≠ []) (k : Nat) (tokens : List Str) :
    (fun l => l.erase [])^[k] (token :: tokens) = token :: (fun l => l.erase [])^[k] tokens := by
  induction k generalizing tokens with
  | zero => rfl
  | succ k ih =>
    rw [iterate_succ_apply, iterate_succ_apply, erase_cons_tail, ih]
    simpa using h

theorem iterate_erase_succ_cons (k : Nat) (tokens : List Str) :
    (fun l => l.erase [])^[k + 1] ([] :: tokens) = (fun l => l.erase [])^[k] tokens := by
  rw [iterate_succ_apply, erase_cons_head]

theorem iterate_erase_nil (k : Nat) : (fun l : List Str => l.erase [])^[k] [] = [] :=
  iterate_fixed rfl k

theorem iterate_erase_of_count_le (h : tokens.count [] ≤ k) :
    (fun l => l.erase [])^[k] tokens = tokens.filter (· ≠ []) := by
  induction tokens generalizing k with
  | nil => exact iterate_erase_nil k
  | cons token tokens ih =>
    by_cases hempty : token = []
    · subst hempty
      rw [count_cons_self] at h
      obtain ⟨k, rfl⟩ : ∃ j, k = j + 1 := ⟨k - 1, by omega⟩
      rw [iterate_erase_succ_cons, ih (by omega), filter_cons_of_neg (by simp)]
    · rw [count_cons_of_ne hempty] at h
      rw [iterate_erase_cons_of_ne hempty, ih h, filter_cons_of_pos (by simpa using hempty)]

theorem count_iterate_erase (k : Nat) (tokens : List Str) :
    ((fun l => l.erase [])^[k] tokens).count [] = tokens.count [] - k := by
  induction k generalizing tokens with
  | zero => rfl
  | succ k ih =>
    rw [iterate_succ_apply, ih, count_erase_self]
    omega

theorem iterate_erase_append (k : Nat) (front back : List Str) :
    (fun l => l.erase [])^[k] (front ++ back) =
      (fun l => l.erase [])^[k] front ++ (fun l => l.erase [])^[k - front.count []] back := by
  induction front generalizing k with
  | nil => rw [iterate_erase_nil]; rfl
  | cons token front ih =>
    by_cases hempty : token = []
    · subst hempty
      cases k with
      | zero => simp
      | succ k =>
        rw [cons_append, iterate_erase_succ_cons, iterate_erase_succ_cons, ih,
          count_cons_self, Nat.add_sub_add_right]
    · rw [cons_append, iterate_erase_cons_of_ne hempty, iterate_erase_cons_of_ne hempty, ih,
        count_cons_of_ne hempty, cons_append]

theorem iterate_erase_replicate (k n : Nat) :
    (fun l : List Str => l.erase [])^[k] (replicate n []) = replicate (n - k) [] := by
  induction n generalizing k with
  | zero => rw [Nat.zero_sub]; exact iterate_erase_nil k
  | succ n ih =>
    cases k with
    | zero => rfl
    | succ k => rw [replicate_succ, iterate_erase_succ_cons, ih, Nat.add_sub_add_right]

theorem length_iterate_erase_le (k : Nat) (tokens : List Str) :
    ((fun l => l.erase [])^[k] tokens).length ≤ tokens.length := by
  induction k generalizing tokens with
  | zero => exact le_rfl
  | succ k ih =>
    rw [iterate_succ_apply]
    exact (ih _).trans length_erase_le

end Erase

/-! ### Neighbours -/

section Neighbours

variable {tokens : List Str}

theorem seen_le_count (tokens : List Str) : seen tokens ≤ tokens.count [] := by
  fun_induction seen tokens with
  | case1 => exact le_rfl
  | case2 => exact le_rfl
  | case3 token tokens ih =>
    rw [count_cons_self]
    exact Nat.succ_le_succ (ih.trans (count_le_count_cons ..))
  | case4 c cs tokens ih =>
    rw [count_cons_of_ne (cons_ne_nil c cs)]
    exact ih

theorem seen_replicate_append (n : Nat) {token : Str} (htoken : token ≠ []) (rest : List Str) :
    seen (replicate n [] ++ token :: rest) = (n + 1) / 2 + seen rest := by
  induction n using Nat.twoStepInduction with
  | zero => exact (seen_cons_of_ne htoken rest).trans (Nat.zero_add _).symm
  | one => exact (seen_empty_cons (token :: rest)).trans (Nat.add_comm _ _)
  | more n ih _ =>
    rw [replicate_succ, replicate_succ, cons_append, cons_append, seen_empty_cons, tail_cons, ih]
    omega

theorem seen_eq_count_iff (tokens : List Str) :
    seen tokens = tokens.count [] ↔ ¬ [[], []] <:+: tokens := by
  fun_induction seen tokens with
  | case1 => simp
  | case2 => simp [infix_cons_iff]
  | case3 token tokens ih =>
    have hle := seen_le_count tokens
    rw [count_cons_self, infix_cons_iff, cons_prefix_cons]
    by_cases hempty : token = []
    · subst hempty
      rw [count_cons_self]
      exact iff_of_false (by omega) (not_not.mpr (.inl ⟨rfl, prefix_append [[]] tokens⟩))
    · rw [count_cons_of_ne hempty, infix_cons_iff, cons_prefix_cons]
      simp [ih, Ne.symm hempty]
  | case4 c cs tokens ih =>
    rw [count_cons_of_ne (cons_ne_nil c cs), ih, infix_cons_iff]
    simp

theorem delEmpty_of_apart (h : ¬ [[], []] <:+: tokens) :
    delEmpty tokens = tokens.filter (· ≠ []) := by
  rw [delEmpty_eq, (seen_eq_count_iff tokens).mpr h]
  exact iterate_erase_of_count_le le_rfl

/-- **`del_empty`** leaves the strings that are not empty, and only these, exactly if no two empty
ones stand next to each other. -/
theorem delEmpty_eq_filter_iff (tokens : List Str) :
    delEmpty tokens = tokens.filter (· ≠ []) ↔ ¬ [[], []] <:+: tokens := by
  refine ⟨fun h => ?_, delEmpty_of_apart⟩
  have hcount := count_iterate_erase (seen tokens) tokens
  have hnone : (tokens.filter (· ≠ [])).count [] = 0 := count_eq_zero.mpr (by simp)
  rw [← delEmpty_eq, h, hnone] at hcount
  have hle := seen_le_count tokens
  rw [← seen_eq_count_iff]
  omega

/-- The second of two empty strings moves up and is passed over. -/
theorem delEmpty_keeps_one : delEmpty [[], []] ≠ [[], []].filter (· ≠ []) := by
  rw [delEmpty_eq]
  decide

end Neighbours

end LinuxWorkouts.NetworkAudit
