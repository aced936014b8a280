import LinuxWorkouts.Lib.CondVar
import LinuxWorkouts.Lib.Transition
import LinuxWorkouts.ProducerConsumer.Store

/-!
The producer and the consumer of `pthreads-problems/problem-7/main.cpp`.

Each thread tests `exit_signal`, takes the mutex, waits until the store is not full (not empty),
calls `add_val` (`get_val`), signals and gives the mutex up. A turn is what a thread does while it
has the mutex, so a wait ends one turn and the test behind it begins another. Nothing but the wait
loops keeps the size in bounds: `add_val` does not look at the capacity.
-/

namespace LinuxWorkouts.ProducerConsumer

open CondVar NodeHeap Transition Option

inductive Worker
  | getter
  | setter
  deriving DecidableEq, Repr

instance fintypeWorker : Fintype Worker where
  elems := {.getter, .setter}
  complete w := by cases w <;> simp

structure Process where
  store : Store
  /-- Who waits on `cond`. -/
  room : Room Worker
  exitSignal : Bool
  /-- The threads whose function has returned. -/
  left : Worker → Bool
  /-- The values passed to `add_val`. -/
  added : List Int
  /-- The values returned by `get_val`. -/
  gotten : List Int
  /-- A thread has accessed a node that is not allocated. -/
  faulted : Bool

/-- What happens next: a thread begins a round of its loop or goes on behind the wait, a thread is
woken by nobody, or the signal handler runs. The producer's turns come with the value and with the
address that `malloc` returns; the source always stores the value 2. -/
inductive Turn
  | set (val : Int) (newNode : Nat)
  | setAgain (val : Int) (newNode : Nat)
  | get
  | getAgain
  | spuriousWakeup (w : Worker)
  | sigintHandler

/-! ### The threads -/

def freeNode (s : Process) (newNode : Nat) : Bool :=
  newNode ≠ null && (data s.store.nodes newNode).isNone

/-- `set_data` from the test of its wait loop on. -/
def setLoop (s : Process) (val : Int) (newNode : Nat) : Option Process :=
  if s.store.capacity ≤ s.store.size then some { s with room := wait s.room .setter }
  else if freeNode s newNode then
    match addVal s.store newNode val with
    | none => some { s with faulted := true }
    | some store =>
      (notifyOne (leave s.room .setter) .getter).map fun room =>
        { s with store := store, room := room, added := s.added ++ [val] }
  else none

/-- `get_data` from the test of its wait loop on. -/
def getLoop (s : Process) : Option Process :=
  if s.store.size = 0 then some { s with room := wait s.room .getter }
  else
    match getVal s.store with
    | none => some { s with faulted := true }
    | some (store, val) =>
      (notifyOne (leave s.room .getter) .setter).map fun room =>
        { s with store := store, room := room, gotten := s.gotten ++ val.toList }

def beginRound (s : Process) (w : Worker) (loop : Option Process) : Option Process :=
  if s.room w = .away ∧ s.left w = false then
    if s.exitSignal then some { s with left := Function.update s.left w true } else loop
  else none

def step (s : Process) (turn : Turn) : Option Process :=
  if s.faulted then none
  else
    match turn with
    | .set val newNode => beginRound s .setter (setLoop s val newNode)
    | .setAgain val newNode => if s.room .setter = .woken then setLoop s val newNode else none
    | .get => beginRound s .getter (getLoop s)
    | .getAgain => if s.room .getter = .woken then getLoop s else none
    | .spuriousWakeup w => (wake s.room w).map fun room => { s with room := room }
    | .sigintHandler => some { s with exitSignal := true }

/-- `main` when it has started the threads. -/
def start (capacity : BitVec 64) : Process where
  store := storeInit capacity
  room := fun _ => .away
  exitSignal := false
  left := fun _ => false
  added := []
  gotten := []
  faulted := false

/-! ### The invariant -/

/-- The store's links fit its head, tail and size, the size is in bounds, and what was gotten
together with what is in the store is what was added, in that order. -/
structure Ordered (capacity : BitVec 64) (s : Process) : Prop where
  noFault : s.faulted = false
  bound : s.store.size ≤ capacity
  capacity : s.store.capacity = capacity
  values : ∃ as, Holds s.store as ∧ s.added = s.gotten ++ queue s.store as

section Invariant

variable {capacity : BitVec 64} {s s' : Process} {turn : Turn}

section

variable (h : Ordered capacity s)
include h

theorem Ordered.setLoop {val : Int} {newNode : Nat} (hs : setLoop s val newNode = some s') :
    Ordered capacity s' := by
  unfold ProducerConsumer.setLoop at hs
  split at hs
  · cases hs
    exact ⟨h.noFault, h.bound, h.capacity, h.values⟩
  · next hroom =>
      split at hs
      · next hfree =>
          obtain ⟨as, hholds, hvalues⟩ := h.values
          have hlt : as.length + 1 ≤ capacity.toNat := by
            rw [h.capacity, BitVec.not_le, BitVec.lt_def, hholds.size] at hroom
            exact hroom
          simp only [freeNode, Bool.and_eq_true, decide_eq_true_eq, isNone_iff_eq_none]
            at hfree
          obtain ⟨store, hadd, hholds', hqueue, hcapacity⟩ :=
            holds_addVal hholds hfree.2 hfree.1 (lt_of_le_of_lt hlt capacity.isLt) val
          rw [hadd] at hs
          obtain ⟨room, -, rfl⟩ := map_eq_some_iff.mp hs
          refine ⟨h.noFault, ?_, hcapacity.trans h.capacity, newNode :: as, hholds', ?_⟩
          · rw [BitVec.le_def, hholds'.size]
            exact hlt
          · change s.added ++ [val] = s.gotten ++ queue store (newNode :: as)
            rw [hqueue, hvalues, List.append_assoc]
      · cases hs

theorem Ordered.getLoop (hs : getLoop s = some s') : Ordered capacity s' := by
  unfold ProducerConsumer.getLoop at hs
  split at hs
  · cases hs
    exact ⟨h.noFault, h.bound, h.capacity, h.values⟩
  · next hsize =>
      obtain ⟨as, hholds, hvalues⟩ := h.values
      cases as using List.reverseRecOn with
      | nil => exact absurd (BitVec.eq_of_toNat_eq hholds.size) hsize
      | append_singleton as last =>
        obtain ⟨store, val, hget, hholds', hqueue, hcapacity⟩ := holds_getVal hholds
        rw [hget] at hs
        obtain ⟨room, -, rfl⟩ := map_eq_some_iff.mp hs
        refine ⟨h.noFault, ?_, hcapacity.trans h.capacity, as, hholds', ?_⟩
        · have hbound := h.bound
          have hlen := hholds.size
          rw [BitVec.le_def, hlen, List.length_append] at hbound
          change store.size ≤ capacity
          rw [BitVec.le_def, hholds'.size]
          omega
        · change s.added = (s.gotten ++ [val]) ++ queue store as
          rw [hvalues, hqueue, List.append_assoc, List.singleton_append]

theorem Ordered.beginRound {w : Worker} {loop : Option Process}
    (hloop : ∀ s', loop = some s' → Ordered capacity s') (hs : beginRound s w loop = some s') :
    Ordered capacity s' := by
  unfold ProducerConsumer.beginRound at hs
  split at hs
  · split at hs
    · cases hs
      exact ⟨h.noFault, h.bound, h.capacity, h.values⟩
    · exact hloop s' hs
  · cases hs

theorem Ordered.step (hs : step s turn = some s') : Ordered capacity s' := by
  unfold ProducerConsumer.step at hs
  rw [if_neg (by rw [h.noFault]; decide)] at hs
  cases turn with
  | set val newNode => exact h.beginRound (fun s' hs' => h.setLoop hs') hs
  | setAgain val newNode =>
    simp only at hs
    split at hs
    · exact h.setLoop hs
    · cases hs
  | get => exact h.beginRound (fun s' hs' => h.getLoop hs') hs
  | getAgain =>
    simp only at hs
    split at hs
    · exact h.getLoop hs
    · cases hs
  | spuriousWakeup w =>
    obtain ⟨room, -, rfl⟩ := map_eq_some_iff.mp hs
    exact ⟨h.noFault, h.bound, h.capacity, h.values⟩
  | sigintHandler =>
    cases hs
    exact ⟨h.noFault, h.bound, h.capacity, h.values⟩

end

theorem ordered_start (capacity : BitVec 64) : Ordered capacity (start capacity) :=
  ⟨rfl, BitVec.le_def.mpr (Nat.zero_le _), rfl, [], holds_storeInit capacity, rfl⟩

end Invariant

/-- **The bounded store.** For every capacity, whatever values are stored and in every interleaving
of the two threads. -/
theorem store_ordered (capacity : BitVec 64) (turns : List Turn) :
    Always step (Ordered capacity) (start capacity) turns :=
  always_of_step turns (fun _ _ _ h hs => h.step hs) (ordered_start capacity)

/-- Two values fill the store, the producer waits, and the consumer's signal wakes it. -/
example :
    (run step (start 2) [.set 5 16, .set 6 32, .set 7 48, .get]).map
      (fun s => (s.added, s.gotten, s.store.size, s.room .setter)) =
    some ([5, 6], [5], 1, .woken) := by
  decide

/-! ### Waiting -/

/-- The test of a worker's wait loop. -/
def MustWait (s : Process) : Worker → Prop
  | .getter => s.store.size = 0
  | .setter => s.store.capacity ≤ s.store.size

/-- Whoever is blocked would wait again: no signal that was meant for it is lost. -/
def Waits (s : Process) : Prop := ∀ w, s.room w = .blocked → MustWait s w

section Waiting

variable {s s' : Process} {turn : Turn} {w : Worker}

theorem not_blocked_of_notified {room room' : Room Worker} {other : Worker} (hw : w ≠ other)
    (h : notifyOne (leave room w) other = some room') (t : Worker) : room' t ≠ .blocked := by
  rcases notifyOne_eq_some h with ⟨hnone, rfl⟩ | ⟨rfl, -⟩
  · exact hnone t
  · cases w <;> cases t <;> cases other <;> simp [leave] at hw ⊢

section

variable (h : Waits s)
include h

theorem Waits.waiting (hwait : MustWait s w) : Waits { s with room := wait s.room w } := by
  intro t ht
  by_cases htw : t = w
  · subst htw
    exact hwait
  · exact h t (by simpa [wait, htw] using ht)

theorem Waits.setLoop {val : Int} {newNode : Nat} (hs : setLoop s val newNode = some s') :
    Waits s' := by
  unfold ProducerConsumer.setLoop at hs
  split at hs
  · next hfull =>
      cases hs
      exact h.waiting (w := .setter) hfull
  · split at hs
    · split at hs
      · cases hs
        exact h
      · obtain ⟨room, hroom, rfl⟩ := map_eq_some_iff.mp hs
        exact fun t ht => absurd ht (not_blocked_of_notified Worker.noConfusion hroom t)
    · cases hs

theorem Waits.getLoop (hs : getLoop s = some s') : Waits s' := by
  unfold ProducerConsumer.getLoop at hs
  split at hs
  · next hempty =>
      cases hs
      exact h.waiting (w := .getter) hempty
  · split at hs
    · cases hs
      exact h
    · obtain ⟨room, hroom, rfl⟩ := map_eq_some_iff.mp hs
      exact fun t ht => absurd ht (not_blocked_of_notified Worker.noConfusion hroom t)

theorem Waits.beginRound {loop : Option Process} (hloop : ∀ s', loop = some s' → Waits s')
    (hs : beginRound s w loop = some s') : Waits s' := by
  unfold ProducerConsumer.beginRound at hs
  split at hs
  · split at hs
    · cases hs
      exact h
    · exact hloop s' hs
  · cases hs

theorem Waits.step (hs : step s turn = some s') : Waits s' := by
  obtain ⟨-, hs⟩ := ite_none_left_eq_some.mp hs
  cases turn with
  | set val newNode => exact h.beginRound (fun s' => h.setLoop) hs
  | setAgain val newNode => exact h.setLoop (ite_none_right_eq_some.mp hs).2
  | get => exact h.beginRound (fun s' => h.getLoop) hs
  | getAgain => exact h.getLoop (ite_none_right_eq_some.mp hs).2
  | spuriousWakeup w =>
    obtain ⟨room, hroom, rfl⟩ := map_eq_some_iff.mp hs
    obtain ⟨-, rfl, -⟩ := wake_eq_some hroom
    exact fun t ht => h t (blocked_of_woken ht)
  | sigintHandler =>
    cases hs
    exact h

end

end Waiting

/-- **No signal is lost.** In every interleaving a thread is blocked only while its test tells it to
wait; with room for a value the two are never blocked together. -/
theorem no_lost_wakeup (capacity : BitVec 64) (turns : List Turn) :
    Always step (fun s => Waits s ∧ (capacity ≠ 0 → ∃ w, s.room w ≠ .blocked)) (start capacity)
      turns := by
  have hinv : Always step (fun s => Waits s ∧ Ordered capacity s) (start capacity) turns :=
    always_of_step turns (fun _ _ _ h hs => ⟨h.1.step hs, h.2.step hs⟩)
      ⟨nofun, ordered_start capacity⟩
  refine hinv.imp fun s h => ⟨h.1, fun hne => ?_⟩
  by_contra! hall
  have hempty : s.store.size = 0 := h.1 .getter (hall .getter)
  have hfull : s.store.capacity ≤ s.store.size := h.1 .setter (hall .setter)
  rw [h.2.capacity, hempty] at hfull
  exact hne (BitVec.le_zero_iff.mp hfull)

end LinuxWorkouts.ProducerConsumer
