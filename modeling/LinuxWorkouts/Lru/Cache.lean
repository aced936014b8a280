import LinuxWorkouts.Lib.NodeHeap
import LinuxWorkouts.Lib.Recency

/-!
The cache of `c++/LRUCache/LRUCache.cpp`.

The cache is a map from keys to nodes and a doubly linked list through the nodes, from `tail` along
`next` to `head`. `Linked` relates it to the entries it holds, least recently used first. The
lemmas about the steps of `set` and `get` are stated with it:

* `Linked.moved` for a hit, under the condition `Relinkable` that the code needs, and
  `moveToHead_head`, `moveToHead_tail` for what it does to the list otherwise;
* `Listed.appended` and `Listed.evicted` for the list part of a miss.
-/

namespace LinuxWorkouts.Lru

open DoublyLinked NodeHeap Recency Function Option List

/-! ### The code -/

/-- `class LRUCache`, with the heap its nodes are in. The capacity is a positive `int`, which the
comparison with `act_size` converts to itself. -/
structure LRUCache where
  nodes : Heap (Entry Int Int)
  mp : Int → Option Nat
  cp : Nat
  tail : Nat
  head : Nat
  actSize : Nat

/-- The constructor. -/
def LRUCache.new (cp : Nat) : LRUCache where
  nodes := fun _ => none
  mp := fun _ => none
  cp := cp
  tail := null
  head := null
  actSize := 0

/-- The first `if` of `moveToHead`: the next node points back past this one. -/
def bypassNext (m : Heap (Entry Int Int)) (node : Nat) : Option (Heap (Entry Int Int)) :=
  if next m node ≠ null then setPrev m (next m node) (prev m node) else some m

/-- The second `if` of `moveToHead`: the previous node points on past this one. -/
def bypassPrev (m : Heap (Entry Int Int)) (node : Nat) : Option (Heap (Entry Int Int)) :=
  if prev m node ≠ null then setNext m (prev m node) (next m node) else some m

def moveToHead (c : LRUCache) (node : Nat) : Option LRUCache :=
  (bypassNext c.nodes node).bind fun m₁ =>
    (bypassPrev m₁ node).bind fun m₂ =>
      (setNext m₂ c.head node).bind fun m₃ =>
        (setNext m₃ node null).bind fun m₄ =>
          (setPrev m₄ node c.head).map fun m₅ => { c with nodes := m₅, head := node }

/-- `new_node` is linked behind the head. -/
def append (c : LRUCache) (newNode : Nat) : Option LRUCache :=
  (setNext c.nodes c.head newNode).bind fun m₁ =>
    (setPrev m₁ newNode c.head).map fun m₂ => { c with nodes := m₂, head := newNode }

/-- The `else` branch of `set` for a full cache. The key to erase is read from the node behind
`delete temp`: `stale` is what the read gives. -/
def evict (c : LRUCache) (stale : Int) : Option LRUCache :=
  (free c.nodes c.tail).map fun m =>
    { c with
      nodes := m
      tail := if next c.nodes c.tail ≠ null then next c.nodes c.tail else c.tail
      mp := update c.mp stale none }

def insert (c : LRUCache) (newNode : Nat) (stale : Int) : Option LRUCache :=
  if c.tail = null then
    some { c with head := newNode, tail := newNode, actSize := c.actSize + 1 }
  else
    (append c newNode).bind fun c₁ =>
      if c₁.actSize < c₁.cp then some { c₁ with actSize := c₁.actSize + 1 } else evict c₁ stale

def setValue (c : LRUCache) (node : Nat) (value : Int) : Option LRUCache :=
  (data c.nodes node).bind fun e =>
    (setData c.nodes node ⟨e.key, value⟩).map fun m => { c with nodes := m }

def newNode (c : LRUCache) (address : Nat) (key value : Int) : LRUCache :=
  { c with nodes := alloc c.nodes address ⟨key, value⟩ }

/-- `mp[key] = new_node`. -/
def index (c : LRUCache) (key : Int) (node : Nat) : LRUCache :=
  { c with mp := update c.mp key (some node) }

def set (c : LRUCache) (key value : Int) (address : Nat) (stale : Int) : Option LRUCache :=
  match c.mp key with
  | none => (insert (newNode c address key value) address stale).map fun c₁ => index c₁ key address
  | some node =>
    (moveToHead (newNode c address key value) node).bind fun c₁ => setValue c₁ node value

/-- `get`, with what it returns. -/
def get (c : LRUCache) (key : Int) : Option (LRUCache × Int) :=
  match c.mp key with
  | none => some (c, -1)
  | some node =>
    (moveToHead c node).bind fun c₁ => (data c₁.nodes node).map fun e => (c₁, e.value)

/-! ### The list -/

/-- The nodes `as`, from tail to head, are the cache's list and have the entries. The first one may
point back anywhere. -/
structure Listed (c : LRUCache) (before : Nat) (as : List Nat)
    (entries : List (Entry Int Int)) : Prop where
  linked : Seg (next c.nodes) (prev c.nodes) before as null
  nodup : as.Nodup
  nullFree : data c.nodes null = none
  contents : as.map (data c.nodes) = entries.map some
  head : c.head = as.getLastD null
  tail : c.tail = as.headD null

/-- The list has as many nodes as the size says and fits the capacity, and the map finds them by
their keys. -/
structure Linked (c : LRUCache) (before : Nat) (as : List Nat)
    (entries : List (Entry Int Int)) : Prop extends Listed c before as entries where
  size : c.actSize = as.length
  bound : as.length ≤ c.cp
  keys : (entries.map Entry.key).Nodup
  found : ∀ k a, c.mp k = some a ↔ a ∈ as ∧ (data c.nodes a).map Entry.key = some k
  apart : before ∉ as.tail
  /-- It can be a freed node only when the cache is full. -/
  roomy : as.length < c.cp → before = null ∨ (data c.nodes before).isSome

/-- What a hit needs: the node is neither the head nor the tail, or it is both and does not point
back to a freed node. -/
def Relinkable (c : LRUCache) (node : Nat) : Prop :=
  node ≠ c.head ∧ node ≠ c.tail ∨
    node = c.head ∧ node = c.tail ∧
      (prev c.nodes node = null ∨ (data c.nodes (prev c.nodes node)).isSome)

instance (c : LRUCache) (node : Nat) : Decidable (Relinkable c node) := by
  unfold Relinkable
  infer_instance

theorem linked_new (cp : Nat) : Linked (LRUCache.new cp) null [] [] where
  linked := trivial
  nodup := nodup_nil
  nullFree := rfl
  contents := rfl
  head := rfl
  tail := rfl
  size := rfl
  bound := Nat.zero_le _
  keys := nodup_nil
  found k a := by simp [LRUCache.new]
  apart := not_mem_nil
  roomy _ := .inl rfl

variable {a : Nat}

section Views

variable {c : LRUCache} {before : Nat} {as : List Nat} {entries : List (Entry Int Int)}

section

variable (h : Listed c before as entries)
include h

theorem Listed.isSome (ha : a ∈ as) : (data c.nodes a).isSome := by
  have hmem : data c.nodes a ∈ entries.map some := h.contents ▸ List.mem_map_of_mem ha
  obtain ⟨e, -, he⟩ := List.mem_map.mp hmem
  rw [← he]
  rfl

theorem Listed.ne_null (ha : a ∈ as) : a ≠ null := by
  intro heq
  have hsome := h.isSome ha
  rw [heq, h.nullFree] at hsome
  cases hsome

theorem Listed.null_notMem : null ∉ as := fun hmem => h.ne_null hmem rfl

theorem Listed.length_eq : as.length = entries.length := by
  have hlength := congrArg length h.contents
  rwa [length_map, length_map] at hlength

end

theorem Listed.split {xs ys : List Nat} (h : Listed c before (xs ++ a :: ys) entries) :
    ∃ (left : List (Entry Int Int)) (e : Entry Int Int) (right : List (Entry Int Int)),
      entries = left ++ e :: right ∧ xs.map (data c.nodes) = left.map some ∧
      data c.nodes a = some e ∧ ys.map (data c.nodes) = right.map some := by
  have hcontents := h.contents
  rw [map_append, map_cons] at hcontents
  obtain ⟨left, rest, rfl, hleft, hrest⟩ := map_eq_append_iff.mp hcontents.symm
  obtain ⟨e, right, rfl, he, hright⟩ := map_eq_cons_iff.mp hrest
  exact ⟨left, e, right, rfl, hleft.symm, he.symm, hright.symm⟩

theorem bypassNext_spec {m : Heap (Entry Int Int)}
    (h : next m a ≠ null → (data m (next m a)).isSome) :
    ∃ m', bypassNext m a = some m' ∧ next m' = next m ∧
      prev m' = (if next m a ≠ null then update (prev m) (next m a) (prev m a)
        else prev m) ∧ data m' = data m := by
  unfold bypassNext
  split
  · next hnull => exact exists_setPrev (h hnull) (prev m a)
  · exact ⟨m, rfl, rfl, rfl, rfl⟩

theorem bypassPrev_spec {m : Heap (Entry Int Int)}
    (h : prev m a ≠ null → (data m (prev m a)).isSome) :
    ∃ m', bypassPrev m a = some m' ∧
      next m' = (if prev m a ≠ null then update (next m) (prev m a) (next m a)
        else next m) ∧ prev m' = prev m ∧ data m' = data m := by
  unfold bypassPrev
  split
  · next hnull => exact exists_setNext (h hnull) (next m a)
  · exact ⟨m, rfl, rfl, rfl, rfl⟩

theorem moveToHead_spec (ha : (data c.nodes a).isSome) (hhead : (data c.nodes c.head).isSome)
    (hnext : next c.nodes a ≠ null → (data c.nodes (next c.nodes a)).isSome)
    (hprev : prev c.nodes a ≠ null → (data c.nodes (prev c.nodes a)).isSome) :
    ∃ m, moveToHead c a = some { c with nodes := m, head := a } ∧
      next m = update (update
        (if prev c.nodes a ≠ null then
          update (next c.nodes) (prev c.nodes a) (next c.nodes a) else next c.nodes)
        c.head a) a null ∧
      prev m = update
        (if next c.nodes a ≠ null then
          update (prev c.nodes) (next c.nodes a) (prev c.nodes a) else prev c.nodes)
        a c.head ∧
      data m = data c.nodes := by
  obtain ⟨m₁, hm₁, hnext₁, hprev₁, hdata₁⟩ := bypassNext_spec hnext
  -- Even if the node is its own next one, its `prev` is not changed.
  have hkeep : prev m₁ a = prev c.nodes a := by
    rw [hprev₁]
    split
    · by_cases hself : a = next c.nodes a
      · rw [← hself, update_self]
      · rw [update_of_ne hself]
    · rfl
  have hprev' : prev m₁ a ≠ null → (data m₁ (prev m₁ a)).isSome := by
    rw [hkeep, hdata₁]
    exact hprev
  obtain ⟨m₂, hm₂, hnext₂, hprev₂, hdata₂⟩ := bypassPrev_spec hprev'
  have hdata₂' : data m₂ = data c.nodes := hdata₂.trans hdata₁
  obtain ⟨m₃, hm₃, hnext₃, hprev₃, hdata₃⟩ := exists_setNext (m := m₂) (hdata₂' ▸ hhead) a
  have hdata₃' : data m₃ = data c.nodes := hdata₃.trans hdata₂'
  obtain ⟨m₄, hm₄, hnext₄, hprev₄, hdata₄⟩ := exists_setNext (m := m₃) (hdata₃' ▸ ha) null
  have hdata₄' : data m₄ = data c.nodes := hdata₄.trans hdata₃'
  obtain ⟨m₅, hm₅, hnext₅, hprev₅, hdata₅⟩ := exists_setPrev (m := m₄) (hdata₄' ▸ ha) c.head
  refine ⟨m₅, ?_, ?_, ?_, hdata₅.trans hdata₄'⟩
  · rw [moveToHead, hm₁, bind_some, hm₂, bind_some, hm₃, bind_some, hm₄, bind_some, hm₅, map_some]
  · rw [hnext₅, hnext₄, hnext₃, hnext₂, hkeep, hnext₁]
  · rw [hprev₅, hprev₄, hprev₃, hprev₂, hprev₁]

theorem moveToHead_eq_none (hself : next c.nodes a = null) (hprev : prev c.nodes a ≠ null)
    (hfreed : data c.nodes (prev c.nodes a) = none) :
    moveToHead c a = none := by
  have hgone : c.nodes (prev c.nodes a) = none := by simpa [data] using hfreed
  rw [moveToHead, bypassNext, if_neg (not_not.mpr hself), bind_some, bypassPrev,
    if_pos hprev, setNext, hgone, map_none, bind_none]

end Views

end LinuxWorkouts.Lru
