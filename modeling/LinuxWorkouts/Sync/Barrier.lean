import LinuxWorkouts.Lib.CondVar
import LinuxWorkouts.Lib.Transition

/-!
The barrier of `c++/synchronization-primitive/primitives.cpp`.

A turn is what a thread does while it has the mutex: `arrive_and_wait` up to its end or to
`cv.wait`, or the part of it behind the wait. `count` is decremented only while it is positive, so
a barrier that has opened stays open and cannot be used a second time.
-/

namespace LinuxWorkouts.Sync

open CondVar Transition

/-- The barrier, its threads, and how many calls were made and have returned. -/
structure Barrier (T : Nat) where
  count : Int
  room : Room (Fin T)
  arrived : Nat
  passed : Nat

inductive BarrierTurn (T : Nat)
  | arriveAndWait (t : Fin T)
  | recheck (t : Fin T)
  | spuriousWakeup (t : Fin T)

namespace Barrier

variable {T : Nat}

/-- The loop of `arrive_and_wait` from its test on. -/
def waitLoop (b : Barrier T) (t : Fin T) : Barrier T :=
  if b.count > 0 then { b with room := wait b.room t }
  else { b with room := leave b.room t, passed := b.passed + 1 }

def arrive (b : Barrier T) : Barrier T :=
  if b.count > 0 then
    { b with count := b.count - 1, room := notifyAll b.room, arrived := b.arrived + 1 }
  else { b with arrived := b.arrived + 1 }

def step (b : Barrier T) : BarrierTurn T → Option (Barrier T)
  | .arriveAndWait t => if b.room t = .away then some (b.arrive.waitLoop t) else none
  | .recheck t => if b.room t = .woken then some (b.waitLoop t) else none
  | .spuriousWakeup t => (wake b.room t).map fun room => { b with room := room }

def start (T : Nat) (count : Int) : Barrier T := ⟨count, fun _ => .away, 0, 0⟩

/-- Nobody passes before `initial` threads have arrived, and behind the last of them nobody is
blocked and nobody will be. -/
structure Sound (initial : Int) (b : Barrier T) : Prop where
  count : b.count = max (initial - b.arrived) (min initial 0)
  passed : 0 < b.passed → initial ≤ b.arrived
  awake : initial ≤ b.arrived → ∀ t, b.room t ≠ .blocked

section Invariant

variable {initial : Int} {b b' : Barrier T} {turn : BarrierTurn T} {t : Fin T}

theorem Sound.arrive (h : Sound initial b) : Sound initial b.arrive := by
  have hcount := h.count
  unfold Barrier.arrive
  split
  · refine ⟨?_, fun hpassed => ?_, fun _ => notifyAll_ne_blocked b.room⟩
    · push_cast
      omega
    · have := h.passed hpassed
      push_cast
      omega
  · refine ⟨?_, fun hpassed => ?_, fun _ => h.awake (by omega)⟩
    · push_cast
      omega
    · have := h.passed hpassed
      push_cast
      omega

theorem Sound.waitLoop (h : Sound initial b) : Sound initial (b.waitLoop t) := by
  have hcount := h.count
  unfold Barrier.waitLoop
  split
  · exact ⟨h.count, h.passed, fun (hall : initial ≤ b.arrived) => by omega⟩
  · have hall : initial ≤ b.arrived := by omega
    exact ⟨h.count, fun _ => hall, fun _ u hu => h.awake hall u (blocked_of_leave hu)⟩

theorem Sound.step (h : Sound initial b) (hb : b.step turn = some b') : Sound initial b' := by
  cases turn with
  | arriveAndWait t =>
    simp only [Barrier.step] at hb
    split at hb
    · cases hb
      exact h.arrive.waitLoop
    · cases hb
  | recheck t =>
    simp only [Barrier.step] at hb
    split at hb
    · cases hb
      exact h.waitLoop
    · cases hb
  | spuriousWakeup t =>
    obtain ⟨room, hroom, rfl⟩ := Option.map_eq_some_iff.mp hb
    obtain ⟨-, rfl, -⟩ := wake_eq_some hroom
    exact ⟨h.count, h.passed, fun hall u hu => h.awake hall u (blocked_of_woken hu)⟩

end Invariant

/-- **The barrier.** For every count, any number of threads and every interleaving of their
sections, with wakeups nobody asked for. -/
theorem barrier_sound (count : Int) (turns : List (BarrierTurn T)) :
    Always step (Sound count) (start T count) turns := by
  refine always_of_step turns (fun _ _ _ h hs => h.step hs) ⟨?_, nofun, fun _ _ => nofun⟩
  simp [start]

end Barrier

end LinuxWorkouts.Sync
