import LinuxWorkouts.Lib.CondVar
import LinuxWorkouts.Lib.Transition

/-!
The semaphore of `c++/synchronization-primitive/primitives.cpp`.

`acquire` and `release` run under one mutex, so a turn is what a thread does from taking the mutex
to giving it up: the body of `acquire` up to its end or to `cv.wait`, the part of it behind the
wait, or the body of `release`. A thread that calls `acquire` may take the mutex before one that
was notified. `cnt` is an `int` and wraps around.
-/

namespace LinuxWorkouts.Sync

open CondVar Transition

/-- The semaphore, the threads that use it, and how many calls have returned. -/
structure Semaphore (T : Nat) where
  cnt : BitVec 32
  room : Room (Fin T)
  acquired : Nat
  released : Nat

inductive Turn (T : Nat)
  | acquire (t : Fin T)
  | recheck (t : Fin T)
  /-- `chosen` is the thread that `notify_one` wakes if any is blocked. -/
  | release (t chosen : Fin T)
  | spuriousWakeup (t : Fin T)

variable {T : Nat}

/-- The loop of `acquire` from its test on: wait, or take a permit and return. -/
def acquireLoop (s : Semaphore T) (t : Fin T) : Semaphore T :=
  if s.cnt = 0 then { s with room := wait s.room t }
  else { s with cnt := s.cnt - 1, room := leave s.room t, acquired := s.acquired + 1 }

def release (s : Semaphore T) (chosen : Fin T) : Option (Semaphore T) :=
  (notifyOne s.room chosen).map fun room =>
    { s with cnt := s.cnt + 1, room := room, released := s.released + 1 }

def step (s : Semaphore T) : Turn T → Option (Semaphore T)
  | .acquire t => if s.room t = .away then some (acquireLoop s t) else none
  | .recheck t => if s.room t = .woken then some (acquireLoop s t) else none
  | .release t chosen => if s.room t = .away then release s chosen else none
  | .spuriousWakeup t => (wake s.room t).map fun room => { s with room := room }

/-- The semaphore as it is constructed. -/
def start (T cnt : Nat) : Semaphore T := ⟨BitVec.ofNat 32 cnt, fun _ => .away, 0, 0⟩

/-- No permit is given out twice, and no wakeup is lost. -/
structure Sound (initial : Nat) (s : Semaphore T) : Prop where
  permits : s.acquired ≤ initial + s.released
  wakeup : 0 < s.cnt.toInt → (∃ t, s.room t = .blocked) → ∃ t, s.room t = .woken

/-- The counter is the number of free permits up to wrapping, and while a thread is blocked there
are as many woken threads as the counter says. -/
structure SemaphoreInv (initial : Nat) (s : Semaphore T) : Prop where
  permits : ∃ wraps, initial + s.released = s.acquired + s.cnt.toNat + wraps * 2 ^ 32
  wakeup : (∃ t, s.room t = .blocked) → s.cnt.toNat ≤ wokenCount s.room

section Invariant

variable {initial : Nat} {s s' : Semaphore T} {turn : Turn T} {t : Fin T}

section

variable (h : SemaphoreInv initial s)
include h

theorem SemaphoreInv.sound : Sound initial s := by
  obtain ⟨wraps, hpermits⟩ := h.permits
  refine ⟨by omega, fun hpos hblocked => exists_woken ?_⟩
  have hcount := h.wakeup hblocked
  have hne : s.cnt.toNat ≠ 0 := by
    intro hzero
    have hcnt : s.cnt = 0 := BitVec.eq_of_toNat_eq hzero
    rw [hcnt] at hpos
    exact absurd hpos (by decide)
  omega

theorem SemaphoreInv.acquireLoop : SemaphoreInv initial (acquireLoop s t) := by
  obtain ⟨wraps, hpermits⟩ := h.permits
  unfold Sync.acquireLoop
  split
  · next hzero =>
      refine ⟨⟨wraps, hpermits⟩, fun _ => ?_⟩
      rw [hzero]
      exact Nat.zero_le _
  · next hne =>
      have hpred : (s.cnt - 1).toNat + 1 = s.cnt.toNat := by bv_omega
      refine ⟨⟨wraps, ?_⟩, ?_⟩
      · change initial + s.released = s.acquired + 1 + (s.cnt - 1).toNat + wraps * 2 ^ 32
        omega
      · rintro ⟨u, hu⟩
        have hcount := h.wakeup ⟨u, blocked_of_leave hu⟩
        change (s.cnt - 1).toNat ≤ wokenCount (leave s.room t)
        by_cases hwoken : s.room t = .woken
        · have := wokenCount_leave_woken hwoken
          omega
        · rw [wokenCount_leave hwoken]
          omega

theorem SemaphoreInv.release {chosen : Fin T} (hs : release s chosen = some s') :
    SemaphoreInv initial s' := by
  obtain ⟨wraps, hpermits⟩ := h.permits
  obtain ⟨room, hroom, rfl⟩ := Option.map_eq_some_iff.mp hs
  have hle : (s.cnt + 1).toNat ≤ s.cnt.toNat + 1 := by bv_omega
  refine ⟨?_, ?_⟩
  · by_cases hwrap : s.cnt.toNat + 1 = 2 ^ 32
    · refine ⟨wraps + 1, ?_⟩
      have hzero : (s.cnt + 1).toNat = 0 := by bv_omega
      change initial + (s.released + 1) = s.acquired + (s.cnt + 1).toNat + (wraps + 1) * 2 ^ 32
      omega
    · refine ⟨wraps, ?_⟩
      have hsucc : (s.cnt + 1).toNat = s.cnt.toNat + 1 := by bv_omega
      change initial + (s.released + 1) = s.acquired + (s.cnt + 1).toNat + wraps * 2 ^ 32
      omega
  · rintro ⟨u, hu⟩
    change (s.cnt + 1).toNat ≤ wokenCount room
    obtain ⟨hnone, rfl⟩ | ⟨rfl, hcount⟩ := notifyOne_eq_some hroom
    · exact absurd hu (hnone u)
    · have := h.wakeup ⟨u, blocked_of_woken hu⟩
      omega

theorem SemaphoreInv.step (hs : step s turn = some s') : SemaphoreInv initial s' := by
  cases turn with
  | acquire t =>
    simp only [Sync.step] at hs
    split at hs
    · cases hs
      exact h.acquireLoop
    · cases hs
  | recheck t =>
    simp only [Sync.step] at hs
    split at hs
    · cases hs
      exact h.acquireLoop
    · cases hs
  | release t chosen =>
    simp only [Sync.step] at hs
    split at hs
    · exact h.release hs
    · cases hs
  | spuriousWakeup t =>
    obtain ⟨room, hroom, rfl⟩ := Option.map_eq_some_iff.mp hs
    obtain ⟨-, rfl, hcount⟩ := wake_eq_some hroom
    refine ⟨h.permits, ?_⟩
    rintro ⟨u, hu⟩
    have := h.wakeup ⟨u, blocked_of_woken hu⟩
    change s.cnt.toNat ≤ wokenCount (Function.update s.room t .woken)
    omega

end

theorem semaphoreInv_start {cnt : Nat} (h : cnt < 2 ^ 31) : SemaphoreInv cnt (start T cnt) := by
  refine ⟨⟨0, ?_⟩, ?_⟩
  · change cnt + 0 = 0 + (BitVec.ofNat 32 cnt).toNat + 0 * 2 ^ 32
    rw [BitVec.toNat_ofNat, Nat.mod_eq_of_lt (by omega)]
    omega
  · rintro ⟨u, hu⟩
    cases hu

end Invariant

/-- **The semaphore.** For every initial counter that an `int` holds, any number of threads and
every interleaving of their sections, with wakeups nobody asked for: at all times at most as many
calls of `acquire` have returned as there were permits, and while a permit is free and a thread is
blocked, a woken thread is about to look. -/
theorem semaphore_sound {cnt : Nat} (h : cnt < 2 ^ 31) (turns : List (Turn T)) :
    Always step (Sound cnt) (start T cnt) turns :=
  (always_of_step turns (fun _ _ _ hI hs => hI.step hs) (semaphoreInv_start h)).imp
    fun _ hI => hI.sound

/-- Two threads block, one is notified, the third takes the permit before it, and a second release
wakes the other one. -/
theorem semaphore_sound_barging :
    0 < 2 ^ 31 ∧
      (run step (start 3 0) [.acquire 0, .acquire 1, .release 2 0, .acquire 2, .release 2 1,
        .recheck 0, .recheck 1]).isSome ∧
      Always step (Sound 0) (start 3 0) [.acquire 0, .acquire 1, .release 2 0, .acquire 2,
        .release 2 1, .recheck 0, .recheck 1] := by
  exact ⟨by decide, by decide, semaphore_sound (by decide) _⟩

end LinuxWorkouts.Sync
