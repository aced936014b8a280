import LinuxWorkouts.Lib.NodeHeap

/-!
The store of `pthreads-problems/problem-7/store_ll.cpp`.

A store is a doubly linked list: `add_val` puts a value in front of the head, `get_val` takes the
one at the tail. `Holds` relates it to the list of its nodes; the lemmas about the two functions
are stated with it, `holds_addVal` and `holds_getVal`.
-/

namespace LinuxWorkouts.ProducerConsumer

open DoublyLinked NodeHeap Function List Option

/-! ### The code -/

/-- `struct Store`, with the heap its nodes are in. -/
structure Store where
  nodes : Heap Int
  head : Nat
  tail : Nat
  size : BitVec 64
  capacity : BitVec 64

/-- `store_init`, when `malloc` succeeds. -/
def storeInit (capacity : BitVec 64) : Store where
  nodes := fun _ => none
  head := null
  tail := null
  size := 0
  capacity := capacity

/-- `add_val`, with the new node at the address that `malloc` returns; `none` is an access to a
node that is not there. -/
def addVal (s : Store) (newNode : Nat) (val : Int) : Option Store :=
  if s.head = null then
    some { s with
      nodes := alloc s.nodes newNode val
      head := newNode
      tail := newNode
      size := s.size + 1 }
  else
    (setNext (alloc s.nodes newNode val) newNode s.head).bind fun linked =>
      (setPrev linked s.head newNode).map fun nodes =>
        { s with nodes := nodes, head := newNode, size := s.size + 1 }

/-- What `get_val` does to the links before it frees the last node. -/
def unlinkTail (s : Store) (lastNode : Nat) : Option Store :=
  if prev s.nodes lastNode ≠ null then
    (setNext s.nodes (prev s.nodes lastNode) null).map fun nodes =>
      { s with nodes := nodes, tail := prev s.nodes lastNode }
  else some { s with head := null, tail := null }

/-- The end of `get_val`: the value is read, the node freed and the size decremented. -/
def freeTail (s : Store) (lastNode : Nat) : Option (Store × Option Int) :=
  (data s.nodes lastNode).bind fun val =>
    (free s.nodes lastNode).map fun nodes =>
      ({ s with nodes := nodes, size := s.size - 1 }, some val)

/-- `get_val`: the value, or none where it returns 1 because there is no last node. -/
def getVal (s : Store) : Option (Store × Option Int) :=
  if s.tail = null then some (s, none)
  else (unlinkTail s s.tail).bind fun unlinked => freeTail unlinked s.tail

/-! ### The list -/

/-- The nodes `as`, from head to tail, are the store's list, and no other nodes are allocated. -/
structure Holds (s : Store) (as : List Nat) : Prop where
  linked : Seg (next s.nodes) (prev s.nodes) null as null
  allocated : ∀ a, (data s.nodes a).isSome ↔ a ∈ as
  nodup : as.Nodup
  nonNull : null ∉ as
  head : s.head = as.headD null
  tail : s.tail = as.getLastD null
  size : s.size.toNat = as.length

def queue (s : Store) (as : List Nat) : List Int := (as.filterMap (data s.nodes)).reverse

theorem holds_storeInit (capacity : BitVec 64) : Holds (storeInit capacity) [] := by
  refine ⟨trivial, fun a => ?_, nodup_nil, not_mem_nil, rfl, rfl, rfl⟩
  simp [storeInit, data]

section Calls

variable {s : Store} {as : List Nat}

theorem addVal_spec (h : Holds s as) {newNode : Nat} (hfree : data s.nodes newNode = none)
    (val : Int) :
    ∃ s', addVal s newNode val = some s' ∧
      next s'.nodes = update (next s.nodes) newNode s.head ∧
      prev s'.nodes newNode = null ∧ (s.head ≠ null → prev s'.nodes s.head = newNode) ∧
      (∀ a, a ≠ newNode → a ≠ s.head → prev s'.nodes a = prev s.nodes a) ∧
      data s'.nodes = update (data s.nodes) newNode (some val) ∧
      s'.head = newNode ∧ s'.tail = (if s.head = null then newNode else s.tail) ∧
      s'.size = s.size + 1 ∧ s'.capacity = s.capacity := by
  obtain ⟨hnext, hprev, hdata⟩ := views_alloc s.nodes newNode val
  unfold addVal
  split
  · next hnull =>
      refine ⟨_, rfl, ?_, ?_, fun hne => absurd hnull hne, ?_, hdata, rfl, rfl, rfl, rfl⟩
      · rw [hnext, hnull]
      · rw [hprev, update_self]
      · intro a ha _
        rw [hprev, update_of_ne ha]
  · next hnull =>
      have hnew : (data (alloc s.nodes newNode val) newNode).isSome := by
        rw [hdata, update_self]
        rfl
      obtain ⟨linked, hlinked, hnext₁, hprev₁, hdata₁⟩ := exists_setNext hnew s.head
      -- The old head is a node of the list, and so not the new one.
      have hmem : s.head ∈ as := by
        have hhead := h.head
        cases as with
        | nil => exact absurd hhead hnull
        | cons a as => exact hhead ▸ mem_cons_self
      have hne : s.head ≠ newNode := by
        intro heq
        have hsome := (h.allocated s.head).mpr hmem
        rw [heq, hfree] at hsome
        cases hsome
      have hold : (data linked s.head).isSome := by
        rw [hdata₁, hdata, update_of_ne hne]
        exact (h.allocated s.head).mpr hmem
      obtain ⟨nodes, hnodes, hnext₂, hprev₂, hdata₂⟩ := exists_setPrev hold newNode
      refine ⟨{ s with nodes := nodes, head := newNode, size := s.size + 1 }, ?_, ?_, ?_,
        fun _ => ?_, ?_, ?_, rfl, rfl, rfl, rfl⟩
      · rw [hlinked, bind_some, hnodes, map_some]
      · rw [hnext₂, hnext₁, hnext, update_idem]
      · rw [hprev₂, update_of_ne hne.symm, hprev₁, hprev, update_self]
      · rw [hprev₂, update_self]
      · intro a ha hah
        rw [hprev₂, update_of_ne hah, hprev₁, hprev, update_of_ne ha]
      · rw [hdata₂, hdata₁, hdata]

theorem holds_addVal (h : Holds s as) {newNode : Nat} (hfree : data s.nodes newNode = none)
    (hnull : newNode ≠ null) (hsize : as.length + 1 < 2 ^ 64) (val : Int) :
    ∃ s', addVal s newNode val = some s' ∧ Holds s' (newNode :: as) ∧
      queue s' (newNode :: as) = queue s as ++ [val] ∧ s'.capacity = s.capacity := by
  obtain ⟨s', hadd, hnext, hprevNew, hprevHead, hprev, hdata, hhead, htail, hsize', hcapacity⟩ :=
    addVal_spec h hfree val
  have hnew : newNode ∉ as := by
    intro hmem
    have hsome := (h.allocated newNode).mpr hmem
    rw [hfree] at hsome
    cases hsome
  have hne : ∀ a ∈ as, a ≠ newNode := fun a ha heq => hnew (heq ▸ ha)
  refine ⟨s', hadd, ?_, ?_, hcapacity⟩
  · refine ⟨?_, ?_, nodup_cons.mpr ⟨hnew, h.nodup⟩, ?_, hhead, ?_, ?_⟩
    · refine h.linked.push hprevNew ?_ ?_ ?_ ?_
      · rw [hnext, update_self, h.head]
      · intro x hx
        have hxhead : s.head = x := by
          rw [h.head, headD_eq_head?_getD, hx, getD_some]
        rw [← hxhead]
        refine hprevHead ?_
        rw [hxhead]
        exact fun heq => h.nonNull (heq ▸ mem_of_head? hx)
      · intro x hx
        rw [hnext, update_of_ne (hne x hx)]
      · intro x hx
        refine hprev x (hne x (mem_of_mem_tail hx)) ?_
        rw [h.head]
        exact ne_headD_of_tail h.nodup hx
    · intro a
      rw [hdata, mem_cons]
      by_cases ha : a = newNode
      · subst ha
        simp
      · rw [update_of_ne ha, h.allocated a]
        simp [ha]
    · rw [mem_cons, not_or]
      exact ⟨Ne.symm hnull, h.nonNull⟩
    · rw [htail, h.head, h.tail]
      cases as with
      | nil => rfl
      | cons a as =>
        have ha : a ≠ null := fun heq => h.nonNull (heq ▸ mem_cons_self)
        rw [headD_cons, if_neg ha, getLastD_cons, getLastD_cons, getLastD_cons]
    · rw [hsize', length_cons, BitVec.toNat_add, h.size]
      exact Nat.mod_eq_of_lt hsize
  · have hrest : as.filterMap (data s'.nodes) = as.filterMap (data s.nodes) := by
      refine filterMap_congr fun a ha => ?_
      rw [hdata, update_of_ne (hne a ha)]
    have hval : data s'.nodes newNode = some val := by rw [hdata, update_self]
    rw [queue, filterMap_cons_some hval, hrest, reverse_cons, queue]

theorem unlinkTail_spec {last : Nat} (h : Holds s (as ++ [last])) :
    ∃ s₁, unlinkTail s last = some s₁ ∧
      (∀ x, as.getLast? = some x → next s₁.nodes x = null) ∧
      (∀ a, a ≠ as.getLastD null → next s₁.nodes a = next s.nodes a) ∧
      prev s₁.nodes = prev s.nodes ∧ data s₁.nodes = data s.nodes ∧
      s₁.head = as.headD null ∧ s₁.tail = as.getLastD null ∧ s₁.size = s.size ∧
      s₁.capacity = s.capacity := by
  obtain ⟨-, hprev, -, -⟩ := seg_append.mp h.linked
  unfold unlinkTail
  rw [hprev]
  cases as using reverseRecOn with
  | nil =>
    refine ⟨{ s with head := null, tail := null }, ?_, ?_, fun a _ => rfl, rfl, rfl, rfl, rfl, rfl,
      rfl⟩
    · exact if_neg (not_not.mpr rfl)
    · intro x hx
      cases hx
  | append_singleton as p =>
    rw [getLastD_concat]
    have hmem : p ∈ (as ++ [p]) ++ [last] := by simp
    have hp : p ≠ null := fun heq => h.nonNull (heq ▸ hmem)
    obtain ⟨nodes, hnodes, hnext₁, hprev₁, hdata₁⟩ := exists_setNext ((h.allocated p).mpr hmem) null
    refine ⟨{ s with nodes := nodes, tail := p }, ?_, ?_, ?_, hprev₁, hdata₁, ?_, rfl, rfl, rfl⟩
    · rw [if_pos hp, hnodes, map_some]
    · intro x hx
      rw [getLast?_concat] at hx
      cases hx
      rw [hnext₁, update_self]
    · intro a ha
      rw [hnext₁, update_of_ne ha]
    · change s.head = _
      rw [h.head]
      cases as <;> rfl

theorem holds_getVal {last : Nat} (h : Holds s (as ++ [last])) :
    ∃ s' val, getVal s = some (s', some val) ∧ Holds s' as ∧
      queue s (as ++ [last]) = val :: queue s' as ∧ s'.capacity = s.capacity := by
  have hmem : last ∈ as ++ [last] := mem_append_right _ mem_cons_self
  have htail : s.tail = last := by rw [h.tail, getLastD_concat]
  have hnull : s.tail ≠ null := by
    rw [htail]
    exact fun heq => h.nonNull (heq ▸ hmem)
  obtain ⟨hnodup, -, hapart⟩ := nodup_append.mp h.nodup
  have hne : ∀ a ∈ as, a ≠ last := fun a ha => hapart a ha last mem_cons_self
  obtain ⟨s₁, hunlink, hlast, hnext, hprev, hdata, hhead₁, htail₁, hsize₁, hcapacity₁⟩ :=
    unlinkTail_spec h
  have hsome : (data s₁.nodes last).isSome := by
    rw [hdata]
    exact (h.allocated last).mpr hmem
  obtain ⟨val, hval⟩ := isSome_iff_exists.mp hsome
  obtain ⟨nodes, hnodes, hnext₂, hprev₂, hdata₂⟩ := exists_free hsome
  refine ⟨{ s₁ with nodes := nodes, size := s₁.size - 1 }, val, ?_, ?_, ?_, hcapacity₁⟩
  · rw [getVal, if_neg hnull, htail, hunlink, bind_some, freeTail, hval, bind_some,
      hnodes, map_some]
  · refine ⟨?_, ?_, hnodup, ?_, hhead₁, htail₁, ?_⟩
    · refine (seg_append.mp h.linked).1.retarget ?_ ?_ ?_
      · intro x hx
        have hx' := hne x (mem_of_mem_dropLast hx)
        rw [hnext₂, update_of_ne hx', hnext x (ne_getLastD_of_dropLast hnodup hx)]
      · intro x hx
        rw [hnext₂, update_of_ne (hne x (mem_of_getLast? hx)), hlast x hx]
      · intro x hx
        rw [hprev₂, update_of_ne (hne x hx), hprev]
    · intro a
      change (data nodes a).isSome ↔ a ∈ as
      rw [hdata₂]
      by_cases ha : a = last
      · subst ha
        rw [update_self]
        exact ⟨fun hcontra => (by cases hcontra), fun hcontra => absurd rfl (hne a hcontra)⟩
      · rw [update_of_ne ha, hdata, h.allocated a]
        simp [ha]
    · exact fun hcontra => h.nonNull (mem_append_left _ hcontra)
    · change (s₁.size - 1).toNat = as.length
      have hsize := h.size
      rw [length_append, length_singleton] at hsize
      rw [hsize₁]
      bv_omega
  · have hrest : as.filterMap (data nodes) = as.filterMap (data s.nodes) := by
      refine filterMap_congr fun a ha => ?_
      rw [hdata₂, update_of_ne (hne a ha), hdata]
    rw [hdata] at hval
    rw [queue, filterMap_append, filterMap_cons_some hval, filterMap_nil,
      reverse_append, reverse_singleton, singleton_append, queue, hrest]

end Calls

end LinuxWorkouts.ProducerConsumer
