import LinuxWorkouts.Lib.Goroutines

/-!
Threads that wait on a condition variable.

A room says for each thread whether it is away, blocked in the wait, or woken and about to take the
mutex again. Which of the blocked threads a signal wakes is not determined, so it is named by the
caller; a thread may also wake without a signal. The operations are given together with how they
change the number of woken threads, which is what an invariant about lost signals counts.
-/

namespace LinuxWorkouts.CondVar

open Goroutines Function

/-- Where a thread stands. -/
inductive Standing
  | away
  | blocked
  | woken
  deriving DecidableEq, Repr

abbrev Room (ι : Type*) := ι → Standing

variable {ι : Type*} [DecidableEq ι]

def wait (room : Room ι) (t : ι) : Room ι := update room t .blocked

def leave (room : Room ι) (t : ι) : Room ι := update room t .away

def wake (room : Room ι) (t : ι) : Option (Room ι) :=
  if room t = .blocked then some (update room t .woken) else none

/-- A signal to all wakes every blocked thread. -/
def notifyAll (room : Room ι) : Room ι := fun t => if room t = .blocked then .woken else room t

section Counting

variable [Fintype ι]

def notifyOne (room : Room ι) (chosen : ι) : Option (Room ι) :=
  if ∀ t, room t ≠ .blocked then some room else wake room chosen

def wokenShare (standing : Standing) : Nat := if standing = .woken then 1 else 0

def wokenCount (room : Room ι) : Nat := ∑ t, wokenShare (room t)

variable {room room' : Room ι} {t chosen : ι}

theorem wokenCount_leave (h : room t ≠ .woken) : wokenCount (leave room t) = wokenCount room := by
  apply sum_update_same (g := wokenShare)
  simp [wokenShare, h]

theorem wokenCount_leave_woken (h : room t = .woken) :
    wokenCount room = wokenCount (leave room t) + 1 := by
  apply sum_update_sub (g := wokenShare)
  simp [wokenShare, h]

theorem wake_eq_some (h : wake room t = some room') :
    room t = .blocked ∧ room' = update room t .woken ∧
      wokenCount room' = wokenCount room + 1 := by
  unfold wake at h
  split at h
  · next hblocked =>
      cases h
      refine ⟨hblocked, rfl, ?_⟩
      apply sum_update_add (g := wokenShare)
      simp [wokenShare, hblocked]
  · cases h

theorem notifyOne_eq_some (h : notifyOne room chosen = some room') :
    ((∀ t, room t ≠ .blocked) ∧ room' = room) ∨
      (room' = update room chosen .woken ∧ wokenCount room' = wokenCount room + 1) := by
  unfold notifyOne at h
  split at h
  · next hnone =>
      cases h
      exact .inl ⟨hnone, rfl⟩
  · exact .inr (wake_eq_some h).2

omit [DecidableEq ι] in
theorem exists_woken (h : 0 < wokenCount room) : ∃ t, room t = .woken := by
  by_contra hnone
  have hzero : wokenCount room = 0 := Finset.sum_eq_zero fun t _ => if_neg fun ht => hnone ⟨t, ht⟩
  omega

end Counting

omit [DecidableEq ι] in
theorem notifyAll_ne_blocked (room : Room ι) (t : ι) : notifyAll room t ≠ .blocked := by
  unfold notifyAll
  split
  · decide
  · assumption

theorem blocked_of_leave {room : Room ι} {t u : ι} (h : leave room t u = .blocked) :
    room u = .blocked := by
  by_cases hut : u = t
  · subst hut
    rw [leave, update_self] at h
    cases h
  · rwa [leave, update_of_ne hut] at h

theorem blocked_of_woken {room : Room ι} {t u : ι}
    (h : update room t .woken u = .blocked) : room u = .blocked := by
  by_cases hut : u = t
  · subst hut
    rw [update_self] at h
    cases h
  · rwa [update_of_ne hut] at h

end LinuxWorkouts.CondVar
