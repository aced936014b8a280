import Mathlib

/-!
Channels, wait groups and pools of goroutines.

An operation of a goroutine goes on with a result, has to wait, or panics; `Attempt` is that
choice, and a program built from attempts panics exactly where one of them does
(`Attempt.bind_eq_panics`). The lemmas about the channel operations say when each of the three
happens, so a proof that a program never panics comes down to the closed flags and the counters.

A pool is a function from the goroutines' indices. What it holds in total is a sum over the
indices, in any additive monoid: the number of those still running, or the multiset of what they
carry. `sum_update_add` is how such a sum changes when one goroutine moves. `Interleaving` is for
pools whose members all write to one place: it says that what arrived there is what they wrote,
each in its own order.
-/

namespace LinuxWorkouts.Goroutines

open Function Finset

variable {α β : Type*}

/-! ### Attempts -/

/-- The run-time panics of channels, wait groups and slices. -/
inductive Panic
  | sendOnClosed
  | closeOfClosed
  | negativeCounter
  | indexOutOfRange
  deriving DecidableEq, Repr

/-- What an operation does in the present state. -/
inductive Attempt (α : Type*)
  | goes (a : α)
  | blocked
  | panics (p : Panic)

namespace Attempt

def bind (x : Attempt α) (f : α → Attempt β) : Attempt β :=
  match x with
  | .goes a => f a
  | .blocked => .blocked
  | .panics p => .panics p

def map (f : α → β) (x : Attempt α) : Attempt β := x.bind fun a => .goes (f a)

variable {x : Attempt α} {b : β} {p : Panic}

theorem bind_eq_goes {f : α → Attempt β} :
    x.bind f = .goes b ↔ ∃ a, x = .goes a ∧ f a = .goes b := by
  cases x <;> simp [bind]

theorem bind_eq_panics {f : α → Attempt β} :
    x.bind f = .panics p ↔ x = .panics p ∨ ∃ a, x = .goes a ∧ f a = .panics p := by
  cases x <;> simp [bind]

theorem map_eq_goes {f : α → β} : x.map f = .goes b ↔ ∃ a, x = .goes a ∧ f a = b := by
  simp [map, bind_eq_goes]

theorem map_eq_panics {f : α → β} : x.map f = .panics p ↔ x = .panics p := by
  simp [map, bind_eq_panics]

end Attempt

/-! ### Channels -/

/-- A channel with the values in its buffer, oldest first. -/
structure Chan (α : Type*) where
  capacity : Nat
  buffer : List α
  closed : Bool
  deriving DecidableEq, Repr

namespace Chan

def make (capacity : Nat) : Chan α := ⟨capacity, [], false⟩

def withBuffer (c : Chan α) (buffer : List α) : Chan α := { c with buffer := buffer }

def asClosed (c : Chan α) : Chan α := { c with closed := true }

@[simp] theorem withBuffer_capacity (c : Chan α) (buffer : List α) :
    (c.withBuffer buffer).capacity = c.capacity := rfl

@[simp] theorem withBuffer_buffer (c : Chan α) (buffer : List α) :
    (c.withBuffer buffer).buffer = buffer := rfl

@[simp] theorem withBuffer_closed (c : Chan α) (buffer : List α) :
    (c.withBuffer buffer).closed = c.closed := rfl

@[simp] theorem asClosed_buffer (c : Chan α) : c.asClosed.buffer = c.buffer := rfl

@[simp] theorem asClosed_closed (c : Chan α) : c.asClosed.closed = true := rfl

/-- Send into the buffer. Where a receiver is already waiting the buffer is empty, and the value
goes through it. -/
def send (c : Chan α) (a : α) : Attempt (Chan α) :=
  if c.closed then .panics .sendOnClosed
  else if c.buffer.length < c.capacity then .goes (c.withBuffer (c.buffer ++ [a]))
  else .blocked

/-- Send on a channel without a buffer: the value goes to a receiver that is waiting. -/
def handOver (c : Chan α) (receiverWaiting : Bool) : Attempt Unit :=
  if c.closed then .panics .sendOnClosed
  else if receiverWaiting then .goes ()
  else .blocked

/-- Receive from the buffer; `none` is how a receiver learns that the channel is closed. -/
def receive (c : Chan α) : Attempt (Option α × Chan α) :=
  match c.buffer with
  | a :: rest => .goes (some a, c.withBuffer rest)
  | [] => if c.closed then .goes (none, c) else .blocked

def close (c : Chan α) : Attempt (Chan α) :=
  if c.closed then .panics .closeOfClosed else .goes c.asClosed

variable {c c' : Chan α}

theorem send_eq_goes {a : α} :
    c.send a = .goes c' ↔ c.closed = false ∧ c.buffer.length < c.capacity ∧
      c' = c.withBuffer (c.buffer ++ [a]) := by
  unfold send
  split
  · grind
  · split <;> grind

theorem send_eq_panics {a : α} : c.send a = .panics p ↔ c.closed = true ∧ p = .sendOnClosed := by
  unfold send
  split
  · grind
  · split <;> grind

theorem handOver_eq_goes {receiverWaiting : Bool} {u : Unit} :
    c.handOver receiverWaiting = .goes u ↔ c.closed = false ∧ receiverWaiting = true := by
  unfold handOver
  split
  · grind
  · split <;> grind

theorem handOver_eq_panics {receiverWaiting : Bool} :
    c.handOver receiverWaiting = .panics p ↔ c.closed = true ∧ p = .sendOnClosed := by
  unfold handOver
  split
  · grind
  · split <;> grind

theorem receive_eq_goes {x : Option α} :
    c.receive = .goes (x, c') ↔
      (∃ a rest, c.buffer = a :: rest ∧ x = some a ∧ c' = c.withBuffer rest) ∨
        (c.buffer = [] ∧ c.closed = true ∧ x = none ∧ c' = c) := by
  unfold receive
  split
  · grind
  · split <;> grind

theorem receive_ne_panics : c.receive ≠ .panics p := by
  unfold receive
  split
  · simp
  · split <;> simp

theorem close_eq_goes : c.close = .goes c' ↔ c.closed = false ∧ c' = c.asClosed := by
  unfold close
  split <;> grind

theorem close_eq_panics : c.close = .panics p ↔ c.closed = true ∧ p = .closeOfClosed := by
  unfold close
  split <;> grind

end Chan

/-! ### Wait groups -/

def waitGroupDone : Nat → Attempt Nat
  | 0 => .panics .negativeCounter
  | count + 1 => .goes count

theorem waitGroupDone_eq_goes {count count' : Nat} :
    waitGroupDone count = .goes count' ↔ count = count' + 1 := by
  cases count <;> simp [waitGroupDone]

theorem waitGroupDone_eq_panics {count : Nat} :
    waitGroupDone count = .panics p ↔ count = 0 ∧ p = .negativeCounter := by
  cases count <;> simp [waitGroupDone, eq_comm]

/-! ### Pools -/

section Pool

variable {ι M : Type*} [Fintype ι] [DecidableEq ι] [AddCommMonoid M]
variable {f : ι → β} {g : β → M} {i : ι}

theorem sum_update_add {m : M} (h : g b = g (f i) + m) :
    ∑ j, g (update f i b j) = ∑ j, g (f j) + m := by
  have hrest : ∑ j ∈ univ.erase i, g (update f i b j) = ∑ j ∈ univ.erase i, g (f j) := by
    refine sum_congr rfl fun j hj => ?_
    rw [update_of_ne (ne_of_mem_erase hj)]
  rw [← add_sum_erase _ _ (mem_univ i), hrest, update_self, h,
    add_right_comm, add_sum_erase _ (fun j => g (f j)) (mem_univ i)]

theorem sum_update_sub {m : M} (h : g (f i) = g b + m) :
    ∑ j, g (f j) = ∑ j, g (update f i b j) + m := by
  have hback := sum_update_add (g := g) (f := update f i b) (i := i) (b := f i) (m := m)
    (by rw [update_self, h])
  rwa [update_idem, update_eq_self] at hback

theorem sum_update_same (h : g b = g (f i)) : ∑ j, g (update f i b j) = ∑ j, g (f j) := by
  rw [sum_update_add (h.trans (add_zero _).symm), add_zero]

theorem sum_update_lt {g : ι → β → Nat} (h : g i b < g i (f i)) :
    ∑ j, g j (update f i b j) < ∑ j, g j (f j) := by
  refine sum_lt_sum (fun j _ => ?_) ⟨i, mem_univ i, ?_⟩
  · by_cases hj : j = i
    · subst hj
      rw [update_self]
      exact h.le
    · rw [update_of_ne hj]
  · rwa [update_self]

end Pool

/-! ### Streams that are merged -/

section Merged

variable {ι : Type*} [DecidableEq ι]

/-- `zs` has the values of the lists `xs` and no others, those of each list in its order: every
value can be tagged with the list it comes from. -/
def Interleaving (xs : ι → List α) (zs : List α) : Prop :=
  ∃ tagged : List (ι × α), tagged.map Prod.snd = zs ∧
    ∀ i, (tagged.filter fun e => e.1 = i).map Prod.snd = xs i

theorem Interleaving.nil : Interleaving (fun _ : ι => ([] : List α)) [] := ⟨[], rfl, fun _ => rfl⟩

theorem Interleaving.concat {xs : ι → List α} {zs : List α} (h : Interleaving xs zs) (i : ι)
    (a : α) :
    Interleaving (update xs i (xs i ++ [a])) (zs ++ [a]) := by
  obtain ⟨tagged, rfl, hparts⟩ := h
  refine ⟨tagged ++ [(i, a)], by simp, fun j => ?_⟩
  rw [List.filter_append, List.map_append, hparts]
  by_cases hj : j = i
  · subst hj
    simp
  · simp [update_of_ne hj, Ne.symm hj]

end Merged

end LinuxWorkouts.Goroutines
