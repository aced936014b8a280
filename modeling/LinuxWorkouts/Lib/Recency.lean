import Mathlib

/-!
Entries in the order of their last use.

`uses` has every key that was ever used once, with its value, the most recently used one last;
`touch` records a use. What a cache of a given capacity should hold are the last `capacity` of
these entries, `List.rtake`. The two results say what a use does to them: a use of one of them
moves it to the end (`rtake_touch_hit`), a use of another key puts that at the end and drops the
first one if there is no room (`rtake_touch_miss`).
-/

namespace LinuxWorkouts.Recency

open List

variable {κ ν : Type*}

structure Entry (κ ν : Type*) where
  key : κ
  value : ν
  deriving DecidableEq, Repr

variable [DecidableEq κ]

def touch (uses : List (Entry κ ν)) (e : Entry κ ν) : List (Entry κ ν) :=
  uses.filter (fun u => u.key ≠ e.key) ++ [e]

def find (entries : List (Entry κ ν)) (k : κ) : Option (Entry κ ν) :=
  entries.find? fun u => u.key = k

variable {uses older left right : List (Entry κ ν)} {e e' : Entry κ ν} {k : κ} {capacity : Nat}

theorem find_eq_none_iff : find uses k = none ↔ k ∉ uses.map Entry.key := by
  simp [find]

theorem find_split (hnodup : ((left ++ e :: right).map Entry.key).Nodup) :
    find (left ++ e :: right) e.key = some e := by
  rw [map_append, map_cons, nodup_append] at hnodup
  have hleft : left.find? (fun u => u.key = e.key) = none := by
    rw [find?_eq_none]
    intro u hu
    simpa using hnodup.2.2 u.key (mem_map_of_mem hu) e.key mem_cons_self
  rw [find, find?_append, hleft, Option.none_or, find?_cons_of_pos (by simp)]

theorem filter_eq_self_of_notMem (h : k ∉ uses.map Entry.key) :
    uses.filter (fun u => u.key ≠ k) = uses := by
  rw [filter_eq_self]
  intro u hu
  exact decide_eq_true fun heq => h (heq ▸ mem_map_of_mem hu)

theorem touch_split (hnodup : ((left ++ e' :: right).map Entry.key).Nodup) (hkey : e.key = e'.key) :
    touch (left ++ e' :: right) e = left ++ right ++ [e] := by
  rw [map_append, map_cons, nodup_append, nodup_cons] at hnodup
  obtain ⟨-, ⟨hright, -⟩, hapart⟩ := hnodup
  have hleft : e'.key ∉ left.map Entry.key := fun hmem =>
    hapart _ hmem _ mem_cons_self rfl
  have hgone : (e' :: right).filter (fun u => u.key ≠ e'.key) = right := by
    rw [filter_cons_of_neg (by simp), filter_eq_self_of_notMem hright]
  rw [touch, hkey, filter_append, hgone, filter_eq_self_of_notMem hleft]

theorem nodup_touch (h : (uses.map Entry.key).Nodup) (e : Entry κ ν) :
    ((touch uses e).map Entry.key).Nodup := by
  rw [touch, map_append, nodup_append]
  refine ⟨h.sublist (List.Sublist.map _ filter_sublist), nodup_singleton _, ?_⟩
  intro k hk k' hk'
  obtain ⟨u, hu, rfl⟩ := mem_map.mp hk
  rw [map_singleton, mem_singleton] at hk'
  rw [hk']
  simpa using (mem_filter.mp hu).2

omit [DecidableEq κ] in
theorem rtake_split (uses : List (Entry κ ν)) (capacity : Nat) :
    ∃ older, uses = older ++ uses.rtake capacity ∧
      (older = [] ∨ (uses.rtake capacity).length = capacity) := by
  refine ⟨uses.take (uses.length - capacity), (take_append_drop _ _).symm, ?_⟩
  rcases Nat.lt_or_ge capacity uses.length with hlt | hge
  · right
    rw [rtake, length_drop]
    omega
  · left
    rw [Nat.sub_eq_zero_of_le hge, take_zero]

omit [DecidableEq κ] in
theorem rtake_append_of_length {recent : List (Entry κ ν)} (hle : recent.length ≤ capacity)
    (h : older = [] ∨ recent.length = capacity) : (older ++ recent).rtake capacity = recent := by
  rcases h with rfl | rfl
  · rw [nil_append, rtake, Nat.sub_eq_zero_of_le hle, drop_zero]
  · rw [rtake, length_append, Nat.add_sub_cancel, drop_left]

omit [DecidableEq κ] in
theorem length_rtake_le (uses : List (Entry κ ν)) (capacity : Nat) :
    (uses.rtake capacity).length ≤ capacity := by
  rw [rtake, length_drop]
  omega

theorem rtake_touch_hit (hnodup : (uses.map Entry.key).Nodup)
    (hrecent : uses.rtake capacity = left ++ e' :: right) (hkey : e.key = e'.key) :
    (touch uses e).rtake capacity = left ++ right ++ [e] := by
  obtain ⟨older, hsplit, hfull⟩ := rtake_split uses capacity
  have hle := length_rtake_le uses capacity
  rw [hrecent] at hsplit hfull hle
  rw [hsplit, ← append_assoc] at hnodup
  rw [hsplit, ← append_assoc, touch_split hnodup hkey, append_assoc older, append_assoc older]
  refine rtake_append_of_length ?_ (hfull.imp_right fun heq => ?_)
  · simpa using hle
  · simpa using heq

theorem rtake_touch_miss (hcapacity : 1 ≤ capacity)
    (hmiss : e.key ∉ (uses.rtake capacity).map Entry.key) :
    (touch uses e).rtake capacity =
      (if (uses.rtake capacity).length < capacity then uses.rtake capacity
        else (uses.rtake capacity).tail) ++ [e] := by
  obtain ⟨older, hsplit, hfull⟩ := rtake_split uses capacity
  have hle := length_rtake_le uses capacity
  generalize hrecent : uses.rtake capacity = recent at *
  have htouch : touch uses e = older.filter (fun u => u.key ≠ e.key) ++ (recent ++ [e]) := by
    rw [hsplit, touch, filter_append, filter_eq_self_of_notMem hmiss, append_assoc]
  rw [htouch]
  split
  · next hlt =>
      have hnil : older = [] := hfull.resolve_right hlt.ne
      rw [hnil, filter_nil]
      refine rtake_append_of_length ?_ (.inl rfl)
      rw [length_append, length_singleton]
      exact hlt
  · next hge =>
      -- The first of the recent entries has to make room.
      cases recent with
      | nil => exact absurd hcapacity (by simpa using hge)
      | cons u recent =>
        rw [tail_cons, cons_append, append_cons]
        refine rtake_append_of_length ?_ (.inr ?_) <;>
        · rw [length_append, length_singleton]
          rw [length_cons] at hle hge
          omega

end LinuxWorkouts.Recency
