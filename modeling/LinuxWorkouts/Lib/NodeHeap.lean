import LinuxWorkouts.Lib.DoublyLinked

/-!
A heap of nodes with two links and a content.

An access to a node that is not allocated has no result. What a heap looks like from outside are
its three views: the link functions `next` and `prev` and the contents `data`. For each operation
there is one lemma that says when it succeeds and how the views change (as `Function.update`), so
that a proof about a program is about link functions and `DoublyLinked.Seg`, and not about the
heap.
-/

namespace LinuxWorkouts.NodeHeap

open Function Option

variable {β : Type*}

structure Node (β : Type*) where
  next : Nat
  prev : Nat
  data : β
  deriving DecidableEq, Repr

abbrev Heap (β : Type*) := Nat → Option (Node β)

def null : Nat := 0

/-! ### Operations -/

def alloc (m : Heap β) (a : Nat) (x : β) : Heap β := update m a (some ⟨null, null, x⟩)

def free (m : Heap β) (a : Nat) : Option (Heap β) :=
  (m a).map fun _ => update m a none

def setNext (m : Heap β) (a target : Nat) : Option (Heap β) :=
  (m a).map fun n => update m a (some ⟨target, n.prev, n.data⟩)

def setPrev (m : Heap β) (a target : Nat) : Option (Heap β) :=
  (m a).map fun n => update m a (some ⟨n.next, target, n.data⟩)

def setData (m : Heap β) (a : Nat) (x : β) : Option (Heap β) :=
  (m a).map fun n => update m a (some ⟨n.next, n.prev, x⟩)

def readNext (m : Heap β) (a : Nat) : Option Nat := (m a).map Node.next

/-! ### Views -/

def next (m : Heap β) (a : Nat) : Nat := ((m a).map Node.next).getD null

def prev (m : Heap β) (a : Nat) : Nat := ((m a).map Node.prev).getD null

def data (m : Heap β) (a : Nat) : Option β := (m a).map Node.data

theorem isSome_data (m : Heap β) (a : Nat) : (data m a).isSome = (m a).isSome := by
  simp [data]

theorem exists_node {m : Heap β} {a : Nat} (h : (data m a).isSome) : ∃ n, m a = some n :=
  isSome_iff_exists.mp (isSome_data m a ▸ h)

theorem views_update (m : Heap β) (a : Nat) (n : Node β) :
    next (update m a (some n)) = update (next m) a n.next ∧
      prev (update m a (some n)) = update (prev m) a n.prev ∧
      data (update m a (some n)) = update (data m) a (some n.data) := by
  refine ⟨?_, ?_, ?_⟩ <;>
  · funext b
    by_cases hb : b = a
    · subst hb
      simp [next, prev, data]
    · simp [next, prev, data, hb]

theorem views_alloc (m : Heap β) (a : Nat) (x : β) :
    next (alloc m a x) = update (next m) a null ∧
      prev (alloc m a x) = update (prev m) a null ∧
      data (alloc m a x) = update (data m) a (some x) :=
  views_update m a ⟨null, null, x⟩

section Operations

variable {m m' : Heap β} {a target : Nat} {x : β}

theorem views_free (h : free m a = some m') :
    next m' = update (next m) a null ∧ prev m' = update (prev m) a null ∧
      data m' = update (data m) a none := by
  obtain ⟨n, -, rfl⟩ := map_eq_some_iff.mp h
  refine ⟨?_, ?_, ?_⟩ <;>
  · funext b
    by_cases hb : b = a
    · subst hb
      simp [next, prev, data]
    · simp [next, prev, data, hb]

theorem views_setNext (h : setNext m a target = some m') :
    next m' = update (next m) a target ∧ prev m' = prev m ∧ data m' = data m := by
  obtain ⟨n, hn, rfl⟩ := map_eq_some_iff.mp h
  obtain ⟨hnext, hprev, hdata⟩ := views_update m a ⟨target, n.prev, n.data⟩
  refine ⟨hnext, ?_, ?_⟩
  · rw [hprev, update_eq_self_iff]
    simp [prev, hn]
  · rw [hdata, update_eq_self_iff]
    simp [data, hn]

theorem views_setPrev (h : setPrev m a target = some m') :
    next m' = next m ∧ prev m' = update (prev m) a target ∧ data m' = data m := by
  obtain ⟨n, hn, rfl⟩ := map_eq_some_iff.mp h
  obtain ⟨hnext, hprev, hdata⟩ := views_update m a ⟨n.next, target, n.data⟩
  refine ⟨?_, hprev, ?_⟩
  · rw [hnext, update_eq_self_iff]
    simp [next, hn]
  · rw [hdata, update_eq_self_iff]
    simp [data, hn]

theorem views_setData (h : setData m a x = some m') :
    next m' = next m ∧ prev m' = prev m ∧ data m' = update (data m) a (some x) := by
  obtain ⟨n, hn, rfl⟩ := map_eq_some_iff.mp h
  obtain ⟨hnext, hprev, hdata⟩ := views_update m a ⟨n.next, n.prev, x⟩
  refine ⟨?_, ?_, hdata⟩
  · rw [hnext, update_eq_self_iff]
    simp [next, hn]
  · rw [hprev, update_eq_self_iff]
    simp [prev, hn]

theorem readNext_eq_some_iff {n : Nat} :
    readNext m a = some n ↔ (data m a).isSome ∧ n = next m a := by
  rw [isSome_data]
  cases h : m a <;> simp [readNext, next, h, eq_comm]

section

variable (h : (data m a).isSome)
include h

theorem exists_map (f : Node β → Heap β) : ∃ m', (m a).map f = some m' := by
  obtain ⟨n, hn⟩ := exists_node h
  exact ⟨f n, by rw [hn, map_some]⟩

theorem exists_free : ∃ m', free m a = some m' ∧ next m' = update (next m) a null ∧
    prev m' = update (prev m) a null ∧ data m' = update (data m) a none := by
  obtain ⟨m', hm⟩ : ∃ m', free m a = some m' := exists_map h _
  exact ⟨m', hm, views_free hm⟩

theorem exists_setNext (target : Nat) : ∃ m', setNext m a target = some m' ∧
    next m' = update (next m) a target ∧ prev m' = prev m ∧ data m' = data m := by
  obtain ⟨m', hm⟩ : ∃ m', setNext m a target = some m' := exists_map h _
  exact ⟨m', hm, views_setNext hm⟩

theorem exists_setPrev (target : Nat) : ∃ m', setPrev m a target = some m' ∧
    next m' = next m ∧ prev m' = update (prev m) a target ∧ data m' = data m := by
  obtain ⟨m', hm⟩ : ∃ m', setPrev m a target = some m' := exists_map h _
  exact ⟨m', hm, views_setPrev hm⟩

theorem exists_setData (x : β) : ∃ m', setData m a x = some m' ∧
    next m' = next m ∧ prev m' = prev m ∧ data m' = update (data m) a (some x) := by
  obtain ⟨m', hm⟩ : ∃ m', setData m a x = some m' := exists_map h _
  exact ⟨m', hm, views_setData hm⟩

end

end Operations

end LinuxWorkouts.NodeHeap
