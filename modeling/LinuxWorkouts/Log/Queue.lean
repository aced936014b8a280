import LinuxWorkouts.Lib.DoublyLinked
import LinuxWorkouts.Lib.Transition

/-!
The message queue of the server's log (`log_msg_queue.c`).

A node is put on at the tail and taken off at the head; `prev` leads from the head to the
tail and `next` back. `push_message` makes its node before it takes the lock, so a call is
two steps, and nodes of other calls may be waiting for the lock in between.
`QueueOk h q ps` ties the memory to the addresses on the queue; `addTail_spec` and
`popMessage_spec` are the two edits, and `queue_fifo` is the queue over whole runs of any
number of callers.
-/

namespace LinuxWorkouts.Log

open DoublyLinked Transition List Option

def DEFAULT_MESSAGE_SIZE : Nat := 4096

inductive LogLevel where
  | blue
  | green
  | red
deriving DecidableEq, Repr

structure MessageDesc where
  message : List UInt8
  errorCode : Int
  level : LogLevel
  messageTime : Int
  tid : Nat
deriving DecidableEq, Repr

structure QueueNode where
  next : Nat
  prev : Nat
  msgDesc : MessageDesc
deriving DecidableEq, Repr

structure LogMessageQueue where
  head : Nat
  tail : Nat
  size : Nat
  capacity : Nat
  criticalSize : Bool
deriving DecidableEq, Repr

/-- The nodes by their addresses, and the addresses that `malloc` has given out. -/
structure Heap where
  nodes : Nat → QueueNode
  allocated : List Nat

/-! ### Memory -/

/-- Reading a node through a pointer that does not point to one is undefined. -/
def Heap.node (h : Heap) (p : Nat) : Option QueueNode :=
  if p ∈ h.allocated then some (h.nodes p) else none

def Heap.update (h : Heap) (p : Nat) (f : QueueNode → QueueNode) : Option Heap :=
  if p ∈ h.allocated then some { h with nodes := Function.update h.nodes p (f (h.nodes p)) }
  else none

def Heap.free (h : Heap) (p : Nat) : Option Heap :=
  if p ∈ h.allocated then some { h with allocated := h.allocated.erase p } else none

/-! ### The functions of the queue -/

/-- `malloc` is the address of the new node, `none` when there is no memory. -/
def newNode (h : Heap) (malloc : Option Nat) (msgDesc : MessageDesc) : Heap × Nat :=
  match malloc with
  | none => (h, 0)
  | some p => (⟨Function.update h.nodes p ⟨0, 0, msgDesc⟩, p :: h.allocated⟩, p)

def createLogQueue (maxSize : Nat) : LogMessageQueue := ⟨0, 0, 0, maxSize, true⟩

def addTail (h : Heap) (q : LogMessageQueue) (node : Nat) : Option (Heap × LogMessageQueue) :=
  if node = 0 then some (h, q)
  else if q.size = 0 then some (h, { q with head := node, tail := node, size := q.size + 1 })
  else do
    let h ← h.update node fun n => { n with next := q.tail }
    let h ← h.update q.tail fun n => { n with prev := node }
    some (h, { q with tail := node, size := q.size + 1 })

def advanceHead (h : Heap) (q : LogMessageQueue) : Option (Heap × LogMessageQueue) :=
  if q.head = q.tail then some (h, { q with head := 0, tail := 0 })
  else do
    let n ← h.node q.head
    let h ← h.update n.prev fun m => { m with next := 0 }
    some (h, { q with head := n.prev })

def deleteHead (h : Heap) (q : LogMessageQueue) : Option (Heap × LogMessageQueue) :=
  if q.size = 0 then some (h, q)
  else do
    let r ← advanceHead h q
    let h ← r.1.free q.head
    some (h, { r.2 with size := r.2.size - 1 })

/-- `pop_message` behind its wait for a message. -/
def popMessage (h : Heap) (q : LogMessageQueue) :
    Option (MessageDesc × Heap × LogMessageQueue) := do
  let n ← h.node q.head
  let r ← deleteHead h q
  some (n.msgDesc, r)

/-- The loop of `destroy_log_queue`: from the tail along `next`. `fuel` bounds the walk. -/
def freeNodes : Nat → Heap → Nat → Option Heap
  | _, h, 0 => some h
  | 0, _, _ => none
  | fuel + 1, h, current => do
      let n ← h.node current
      let h ← h.free current
      freeNodes fuel h n.next

def destroyLogQueue (h : Heap) (q : LogMessageQueue) : Option Heap :=
  freeNodes h.allocated.length h q.tail

/-! ### The queue as a list -/

def prevOf (h : Heap) (p : Nat) : Nat := (h.nodes p).prev

def nextOf (h : Heap) (p : Nat) : Nat := (h.nodes p).next

/-- The queue holds the nodes `ps`, head first: `prev` leads from each node to the one behind
it and `next` back. -/
structure QueueOk (h : Heap) (q : LogMessageQueue) (ps : List Nat) : Prop where
  head : q.head = ps.headD 0
  tail : q.tail = ps.getLastD 0
  size : q.size = ps.length
  linked : Seg (prevOf h) (nextOf h) 0 ps 0
  nodup : ps.Nodup
  known : ∀ p ∈ ps, p ∈ h.allocated ∧ p ≠ 0

/-- The messages on the queue, head first. -/
def messages (h : Heap) (ps : List Nat) : List MessageDesc := ps.map fun p => (h.nodes p).msgDesc

/-- A node that is not on the queue yet. -/
structure Loose (h : Heap) (ps : List Nat) (p : Nat) (msgDesc : MessageDesc) : Prop where
  known : p ∈ h.allocated ∧ p ≠ 0
  apart : p ∉ ps
  links : h.nodes p = ⟨0, 0, msgDesc⟩

section Operations

variable {h : Heap} {q : LogMessageQueue} {ps : List Nat} {p : Nat} {msgDesc : MessageDesc}

theorem Heap.node_eq (hp : p ∈ h.allocated) : h.node p = some (h.nodes p) := if_pos hp

theorem Heap.update_eq (hp : p ∈ h.allocated) (f : QueueNode → QueueNode) :
    h.update p f = some { h with nodes := Function.update h.nodes p (f (h.nodes p)) } := if_pos hp

theorem Heap.free_eq (hp : p ∈ h.allocated) :
    h.free p = some { h with allocated := h.allocated.erase p } := if_pos hp

theorem createLogQueue_ok (h : Heap) (maxSize : Nat) : QueueOk h (createLogQueue maxSize) [] :=
  ⟨rfl, rfl, rfl, trivial, nodup_nil, fun _ hp => absurd hp not_mem_nil⟩

theorem QueueOk.frame {h' : Heap} (hq : QueueOk h q ps)
    (hnodes : ∀ p ∈ ps, h'.nodes p = h.nodes p) (halloc : ∀ p ∈ ps, p ∈ h'.allocated) :
    QueueOk h' q ps where
  head := hq.head
  tail := hq.tail
  size := hq.size
  linked := by
    apply hq.linked.congr
    · intro p hp
      rw [prevOf, hnodes p hp, prevOf]
    · intro p hp
      rw [nextOf, hnodes p hp, nextOf]
  nodup := hq.nodup
  known p hp := ⟨halloc p hp, (hq.known p hp).2⟩

theorem messages_frame {h' : Heap} (hnodes : ∀ p ∈ ps, (h'.nodes p).msgDesc = (h.nodes p).msgDesc) :
    messages h' ps = messages h ps := map_congr_left hnodes

theorem QueueOk.ends_mem (hq : QueueOk h q ps) (hne : ps ≠ []) :
    ps.getLast? = some q.tail ∧ q.tail ∈ ps ∧ q.size ≠ 0 := by
  have hlast : ps.getLast? = some q.tail := by
    rw [hq.tail, getLastD_eq_getLast?, getLast?_eq_some_getLast hne]
    rfl
  refine ⟨hlast, mem_of_getLast? hlast, ?_⟩
  rw [hq.size]
  exact fun h => hne (length_eq_zero_iff.mp h)

theorem addTail_empty (hq : QueueOk h q []) (hp : Loose h [] p msgDesc) :
    ∃ q', addTail h q p = some (h, q') ∧ QueueOk h q' [p] := by
  have hsize : q.size = 0 := hq.size
  refine ⟨{ q with head := p, tail := p, size := q.size + 1 }, ?_, ?_⟩
  · rw [addTail, if_neg hp.known.2, if_pos hsize]
  · refine ⟨rfl, rfl, ?_, ⟨?_, ?_, trivial⟩, nodup_singleton p, ?_⟩
    · rw [hsize, length_singleton]
    · rw [nextOf, hp.links]
    · rw [prevOf, hp.links]
      rfl
    · intro r hr
      rw [mem_singleton.mp hr]
      exact hp.known

theorem addTail_nodes (hq : QueueOk h q ps) (hne : ps ≠ []) (hp : Loose h ps p msgDesc) :
    ∃ h', addTail h q p = some (h', { q with tail := p, size := q.size + 1 }) ∧
      h'.allocated = h.allocated ∧ h'.nodes p = ⟨q.tail, 0, msgDesc⟩ ∧
      h'.nodes q.tail = { h.nodes q.tail with prev := p } ∧
      ∀ r, r ≠ p → r ≠ q.tail → h'.nodes r = h.nodes r := by
  obtain ⟨-, hmem, hsize⟩ := hq.ends_mem hne
  have hpt : p ≠ q.tail := fun h => hp.apart (h ▸ hmem)
  let nodes₁ := Function.update h.nodes p { h.nodes p with next := q.tail }
  let nodes₂ := Function.update nodes₁ q.tail { nodes₁ q.tail with prev := p }
  refine ⟨⟨nodes₂, h.allocated⟩, ?_, rfl, ?_, ?_, ?_⟩
  · have htail : q.tail ∈ (Heap.mk nodes₁ h.allocated).allocated := (hq.known _ hmem).1
    rw [addTail, if_neg hp.known.2, if_neg hsize, Heap.update_eq hp.known.1]
    exact congrArg (Option.bind · _) (Heap.update_eq htail _)
  · simp only [nodes₂, nodes₁, Function.update_of_ne hpt, Function.update_self, hp.links]
  · simp only [nodes₂, nodes₁, Function.update_self, Function.update_of_ne hpt.symm]
  · intro r hrp hrt
    simp only [nodes₂, nodes₁, Function.update_of_ne hrt, Function.update_of_ne hrp]

theorem addTail_spec (hq : QueueOk h q ps) (hp : Loose h ps p msgDesc) :
    ∃ h' q', addTail h q p = some (h', q') ∧ QueueOk h' q' (ps ++ [p]) ∧
      messages h' (ps ++ [p]) = messages h ps ++ [msgDesc] ∧ h'.allocated = h.allocated ∧
      ∀ r, r ∉ ps ++ [p] → h'.nodes r = h.nodes r := by
  by_cases hnil : ps = []
  · subst hnil
    obtain ⟨q', hadd, hq'⟩ := addTail_empty hq hp
    refine ⟨h, q', hadd, hq', ?_, rfl, fun _ _ => rfl⟩
    rw [nil_append, messages, map_singleton, hp.links]
    rfl
  · obtain ⟨hlast, hmem, -⟩ := hq.ends_mem hnil
    obtain ⟨h', hadd, halloc, hself, htail, hother⟩ := addTail_nodes hq hnil hp
    have hne : ∀ r ∈ ps, r ≠ p := fun r hr h => hp.apart (h ▸ hr)
    -- the old nodes keep their message and their `next`
    have hkeep : ∀ r ∈ ps, (h'.nodes r).msgDesc = (h.nodes r).msgDesc ∧
        nextOf h' r = nextOf h r := by
      intro r hr
      by_cases hrt : r = q.tail
      · rw [hrt, nextOf, htail]
        exact ⟨rfl, rfl⟩
      · rw [nextOf, hother r (hne r hr) hrt]
        exact ⟨rfl, rfl⟩
    refine ⟨h', _, hadd, ⟨?_, ?_, ?_, ?_, ?_, ?_⟩, ?_, halloc, ?_⟩
    · obtain ⟨r, rs, rfl⟩ := exists_cons_of_ne_nil hnil
      exact hq.head
    · rw [getLastD_concat]
    · rw [length_append, length_singleton, hq.size]
    · apply hq.linked.concat
      · rw [nextOf, hself, hq.tail]
      · rw [prevOf, hself]
      · intro r hr
        rw [Option.some.inj (hr.symm.trans hlast), prevOf, htail]
      · intro r hr
        have hrt : r ≠ q.tail := hq.tail ▸ ne_getLastD_of_dropLast hq.nodup hr
        rw [prevOf, hother r (hne r (mem_of_mem_dropLast hr)) hrt, prevOf]
      · exact fun r hr => (hkeep r hr).2
    · rw [← concat_eq_append]
      exact hq.nodup.concat hp.apart
    · intro r hr
      rw [halloc]
      rcases mem_append.mp hr with hr | hr
      · exact hq.known r hr
      · rw [mem_singleton.mp hr]
        exact hp.known
    · rw [messages, map_append, map_singleton, hself]
      exact congrArg (· ++ [msgDesc]) (messages_frame fun r hr => (hkeep r hr).1)
    · intro r hr
      rw [mem_append, not_or, mem_singleton] at hr
      exact hother r hr.2 fun h => hr.1 (h ▸ hmem)

theorem advanceHead_spec (hq : QueueOk h q (p :: ps)) :
    ∃ h' q', advanceHead h q = some (h', q') ∧ q'.size = q.size ∧ q'.head = ps.headD 0 ∧
      q'.tail = ps.getLastD 0 ∧ h'.allocated = h.allocated ∧
      Seg (prevOf h') (nextOf h') 0 ps 0 ∧ messages h' ps = messages h ps ∧
      ∀ r, r ∉ ps → h'.nodes r = h.nodes r := by
  have hhead : q.head = p := hq.head
  have htail : q.tail = (p :: ps).getLastD 0 := hq.tail
  obtain ⟨-, hprev, hrest⟩ := hq.linked
  obtain ⟨hp, hnd⟩ := nodup_cons.mp hq.nodup
  cases ps with
  | nil =>
    have hone : q.head = q.tail := by
      rw [hhead, htail]
      rfl
    refine ⟨h, { q with head := 0, tail := 0 }, ?_, rfl, rfl, rfl, rfl, trivial, rfl,
      fun _ _ => rfl⟩
    rw [advanceHead, if_pos hone]
  | cons r rs =>
    have htwo : q.head ≠ q.tail := by
      rw [hhead, htail]
      exact ne_getLastD_of_dropLast hq.nodup mem_cons_self
    have hr : r ∈ h.allocated := (hq.known r (by simp)).1
    have hnext : (h.nodes p).prev = r := hprev
    let h' : Heap := { h with nodes := Function.update h.nodes r { h.nodes r with next := 0 } }
    have hself : h'.nodes r = { h.nodes r with next := 0 } := Function.update_self ..
    have hother : ∀ t, t ≠ r → h'.nodes t = h.nodes t := fun t ht => Function.update_of_ne ht ..
    refine ⟨h', { q with head := r }, ?_, rfl, rfl, ?_, rfl, ?_, ?_, ?_⟩
    · rw [advanceHead, if_neg htwo, hhead, Heap.node_eq (hq.known p mem_cons_self).1]
      simp only [bind_eq_bind, bind_some, hnext, Heap.update_eq hr]
      rfl
    · rw [htail]
      rfl
    · apply hrest.relink
      · intro t _
        by_cases ht : t = r
        · rw [ht, prevOf, hself, prevOf]
        · rw [prevOf, hother t ht, prevOf]
      · intro t ht
        cases ht
        rw [nextOf, hself]
      · intro t ht
        have htr : t ≠ r := fun h => (nodup_cons.mp hnd).1 (h ▸ ht)
        rw [nextOf, hother t htr, nextOf]
    · apply messages_frame
      intro t _
      by_cases ht : t = r
      · rw [ht, hself]
      · rw [hother t ht]
    · exact fun t ht => hother t fun h => ht (h ▸ mem_cons_self)

theorem popMessage_spec (hq : QueueOk h q (p :: ps)) :
    ∃ h' q', popMessage h q = some ((h.nodes p).msgDesc, h', q') ∧ QueueOk h' q' ps ∧
      messages h' ps = messages h ps ∧ h'.allocated = h.allocated.erase p ∧
      ∀ r, r ∉ ps → h'.nodes r = h.nodes r := by
  have hhead : q.head = p := hq.head
  have hsize : q.size = ps.length + 1 := hq.size
  have hp : p ∈ h.allocated := (hq.known p mem_cons_self).1
  obtain ⟨hfirst, hnd⟩ := nodup_cons.mp hq.nodup
  obtain ⟨h₁, q₁, hadv, hsize₁, hhead₁, htail₁, halloc₁, hseg, hmsgs, hother⟩ := advanceHead_spec hq
  refine ⟨{ h₁ with allocated := h₁.allocated.erase p }, { q₁ with size := q₁.size - 1 }, ?_, ?_,
    hmsgs, ?_, hother⟩
  · have hdel : deleteHead h q =
        some ({ h₁ with allocated := h₁.allocated.erase p }, { q₁ with size := q₁.size - 1 }) := by
      have hp₁ : p ∈ h₁.allocated := halloc₁ ▸ hp
      rw [deleteHead, if_neg (by omega), hadv, bind_eq_bind, bind_some, hhead]
      exact congrArg (Option.bind · _) (Heap.free_eq hp₁)
    rw [popMessage, hhead, Heap.node_eq hp, bind_eq_bind, bind_some, hdel]
    rfl
  · refine ⟨hhead₁, htail₁, ?_, hseg, hnd, ?_⟩
    · show q₁.size - 1 = ps.length
      omega
    · intro r hr
      obtain ⟨hr₁, hr₀⟩ := hq.known r (mem_cons_of_mem p hr)
      refine ⟨?_, hr₀⟩
      have hrp : r ≠ p := fun h => hfirst (h ▸ hr)
      show r ∈ h₁.allocated.erase p
      rw [halloc₁]
      exact (mem_erase_of_ne hrp).mpr hr₁
  · rw [halloc₁]

theorem freeNodes_spec {after : Nat} (hlinked : Seg (prevOf h) (nextOf h) 0 ps after)
    (hnd : ps.Nodup) (hknown : ∀ p ∈ ps, p ∈ h.allocated ∧ p ≠ 0) {fuel : Nat}
    (hfuel : ps.length ≤ fuel) :
    freeNodes fuel h (ps.getLastD 0) =
      some { h with allocated := h.allocated.diff ps.reverse } := by
  -- the nodes go from the last to the first, so the induction takes them off the back
  induction ps using reverseRecOn generalizing h fuel after with
  | nil =>
    rw [reverse_nil, diff_nil]
    cases fuel <;> rfl
  | append_singleton ps p ih =>
    obtain ⟨hrest, hnext, -⟩ := seg_append.mp hlinked
    obtain ⟨hpalloc, hp0⟩ := hknown p (by simp)
    obtain ⟨hnd, -, hapart⟩ := nodup_append.mp hnd
    obtain ⟨fuel, rfl⟩ : ∃ n, fuel = n + 1 := by
      rw [length_append, length_singleton] at hfuel
      exact ⟨fuel - 1, by omega⟩
    have hknown' : ∀ r ∈ ps, r ∈ h.allocated.erase p ∧ r ≠ 0 := by
      intro r hr
      obtain ⟨hr', hr0⟩ := hknown r (mem_append_left _ hr)
      exact ⟨(mem_erase_of_ne (hapart r hr p (by simp))).mpr hr', hr0⟩
    have hstep : freeNodes (fuel + 1) h p =
        freeNodes fuel { h with allocated := h.allocated.erase p } (h.nodes p).next := by
      rw [freeNodes, Heap.node_eq hpalloc, Heap.free_eq hpalloc]
      · rfl
      · exact hp0
    have hnext : (h.nodes p).next = ps.getLastD 0 := hnext
    rw [getLastD_concat, hstep, hnext, reverse_concat, diff_cons]
    refine ih (h := { h with allocated := h.allocated.erase p }) hrest hnd hknown' ?_
    rw [length_append, length_singleton] at hfuel
    omega

theorem destroyLogQueue_spec (hq : QueueOk h q ps) :
    destroyLogQueue h q = some { h with allocated := h.allocated.diff ps.reverse } := by
  have hlen : ps.length ≤ h.allocated.length :=
    (subperm_of_subset hq.nodup fun p hp => (hq.known p hp).1).length_le
  rw [destroyLogQueue, hq.tail]
  exact freeNodes_spec hq.linked hq.nodup hq.known hlen

end Operations

/-! ### Runs of any number of callers -/

/-- The queue with the nodes whose `push_message` is between `new_node` and the lock. `pushed` and
`popped` record the messages in the order in which their calls had the lock. -/
structure QueueState where
  heap : Heap
  queue : LogMessageQueue
  pending : List (Nat × MessageDesc)
  pushed : List MessageDesc
  popped : List MessageDesc

inductive QueueOp where
  | newNode (msgDesc : MessageDesc) (malloc : Option Nat)
  | push (node : Nat × MessageDesc)
  | pop
deriving DecidableEq, Repr

def QueueState.afterPop (s : QueueState) (r : MessageDesc × Heap × LogMessageQueue) : QueueState :=
  { s with heap := r.2.1, queue := r.2.2, popped := s.popped ++ [r.1] }

/-- `none` is a call that has to wait, or an access through a bad pointer. -/
def queueStep (s : QueueState) : QueueOp → Option QueueState
  | .newNode msgDesc malloc =>
    let r := newNode s.heap malloc msgDesc
    some { s with heap := r.1, pending := (r.2, msgDesc) :: s.pending }
  | .push node =>
    if node ∈ s.pending then
      (addTail s.heap s.queue node.1).map fun r =>
        { s with
          heap := r.1, queue := r.2, pending := s.pending.erase node,
          pushed := s.pushed ++ [node.2] }
    else none
  | .pop =>
    if s.queue.size = 0 then none
    else (popMessage s.heap s.queue).map s.afterPop

def Heap.Fresh (h : Heap) : Option Nat → Prop
  | none => False
  | some p => p ≠ 0 ∧ p ∉ h.allocated

instance (h : Heap) (malloc : Option Nat) : Decidable (h.Fresh malloc) := by
  unfold Heap.Fresh
  split <;> infer_instance

def Allocates (s : QueueState) : QueueOp → Prop
  | .newNode _ malloc => s.heap.Fresh malloc
  | _ => True

instance (s : QueueState) (op : QueueOp) : Decidable (Allocates s op) := by
  unfold Allocates
  split <;> infer_instance

/-- The nodes that wait for the lock are apart from each other and from the queue. -/
structure PendingOk (h : Heap) (ps : List Nat) (pending : List (Nat × MessageDesc)) : Prop where
  loose : ∀ e ∈ pending, Loose h ps e.1 e.2
  nodup : (pending.map Prod.fst).Nodup

/-- The queue is well linked and holds what was pushed and not yet popped, in this order. -/
def Fifo (s : QueueState) : Prop :=
  ∃ ps, QueueOk s.heap s.queue ps ∧ s.popped ++ messages s.heap ps = s.pushed

/-- A call that has the lock and need not wait is not stopped by a bad pointer. -/
def Served (s : QueueState) : QueueOp → Prop
  | .newNode _ _ => True
  | .push node => node ∈ s.pending → (addTail s.heap s.queue node.1).isSome
  | .pop => s.queue.size ≠ 0 → (popMessage s.heap s.queue).isSome

def QueueInv (s : QueueState) : Prop :=
  ∃ ps, QueueOk s.heap s.queue ps ∧ s.popped ++ messages s.heap ps = s.pushed ∧
    PendingOk s.heap ps s.pending

section Runs

variable {h h' : Heap} {q : LogMessageQueue} {ps : List Nat} {pending : List (Nat × MessageDesc)}
  {s s' : QueueState} {op : QueueOp}

theorem newNode_spec {malloc : Option Nat} {msgDesc : MessageDesc} (hq : QueueOk h q ps)
    (hpending : PendingOk h ps pending) (hfresh : h.Fresh malloc) :
    QueueOk (newNode h malloc msgDesc).1 q ps ∧
      messages (newNode h malloc msgDesc).1 ps = messages h ps ∧
      PendingOk (newNode h malloc msgDesc).1 ps
        (((newNode h malloc msgDesc).2, msgDesc) :: pending) := by
  obtain _ | p := malloc
  · exact absurd hfresh id
  obtain ⟨hp0, hpfresh⟩ := hfresh
  let h₁ : Heap := ⟨Function.update h.nodes p ⟨0, 0, msgDesc⟩, p :: h.allocated⟩
  have hother : ∀ r, r ∈ h.allocated → h₁.nodes r = h.nodes r := by
    intro r hr
    have hrp : r ≠ p := fun e => hpfresh (e ▸ hr)
    exact Function.update_of_ne hrp ..
  have hqueue : ∀ r ∈ ps, r ∈ h.allocated := fun r hr => (hq.known r hr).1
  refine ⟨hq.frame (fun r hr => hother r (hqueue r hr)) fun r hr => mem_cons_of_mem p (hqueue r hr),
    messages_frame fun r hr => congrArg _ (hother r (hqueue r hr)), ?_, ?_⟩
  · intro e he
    rcases mem_cons.mp he with rfl | he
    · exact ⟨⟨mem_cons_self, hp0⟩, fun hr => hpfresh (hqueue p hr), Function.update_self ..⟩
    · obtain ⟨hknown, hapart, hlinks⟩ := hpending.loose e he
      exact ⟨⟨mem_cons_of_mem p hknown.1, hknown.2⟩, hapart, (hother _ hknown.1).trans hlinks⟩
  · refine nodup_cons.mpr ⟨?_, hpending.nodup⟩
    intro hr
    obtain ⟨e, he, hep⟩ := mem_map.mp hr
    have hep : e.1 = p := hep
    exact hpfresh (hep ▸ (hpending.loose e he).known.1)

theorem push_spec {node : Nat × MessageDesc} (hq : QueueOk h q ps)
    (hpending : PendingOk h ps pending) (hnode : node ∈ pending) :
    ∃ h' q', addTail h q node.1 = some (h', q') ∧ QueueOk h' q' (ps ++ [node.1]) ∧
      messages h' (ps ++ [node.1]) = messages h ps ++ [node.2] ∧
      PendingOk h' (ps ++ [node.1]) (pending.erase node) := by
  obtain ⟨h', q', hadd, hq', hmsgs, halloc, hother⟩ := addTail_spec hq (hpending.loose node hnode)
  refine ⟨h', q', hadd, hq', hmsgs, ?_, ?_⟩
  · intro e he
    have hmem : e ∈ pending := mem_of_mem_erase he
    obtain ⟨hknown, hapart, hlinks⟩ := hpending.loose e hmem
    have hne : e.1 ≠ node.1 := by
      intro heq
      have : e = node := inj_on_of_nodup_map hpending.nodup hmem hnode heq
      subst this
      exact (hpending.nodup.of_map _).not_mem_erase he
    have hapart' : e.1 ∉ ps ++ [node.1] := by
      rw [mem_append, mem_singleton]
      exact fun h => h.elim hapart hne
    exact ⟨halloc ▸ hknown, hapart', (hother _ hapart').trans hlinks⟩
  · exact hpending.nodup.sublist ((erase_sublist).map _)

theorem pop_spec (hq : QueueOk h q ps) (hpending : PendingOk h ps pending) (hsize : q.size ≠ 0) :
    ∃ msgDesc h' q' ps', popMessage h q = some (msgDesc, h', q') ∧ QueueOk h' q' ps' ∧
      messages h ps = msgDesc :: messages h' ps' ∧ PendingOk h' ps' pending := by
  cases ps with
  | nil => exact absurd hq.size hsize
  | cons p ps =>
    obtain ⟨h', q', hpop, hq', hmsgs, halloc, hother⟩ := popMessage_spec hq
    refine ⟨_, h', q', ps, hpop, hq', ?_, ?_, hpending.nodup⟩
    · rw [hmsgs]
      rfl
    · intro e he
      obtain ⟨hknown, hapart, hlinks⟩ := hpending.loose e he
      rw [mem_cons, not_or] at hapart
      refine ⟨⟨?_, hknown.2⟩, hapart.2, (hother _ hapart.2).trans hlinks⟩
      rw [halloc]
      exact (mem_erase_of_ne hapart.1).mpr hknown.1

theorem QueueInv.afterPop {r : MessageDesc × Heap × LogMessageQueue} (hs : QueueInv s)
    (hsize : s.queue.size ≠ 0) (hr : popMessage s.heap s.queue = some r) :
    QueueInv (s.afterPop r) := by
  obtain ⟨ps, hq, hfifo, hpending⟩ := hs
  obtain ⟨msgDesc, h', q', ps', hpop, hq', hmsgs, hpending'⟩ := pop_spec hq hpending hsize
  cases hpop.symm.trans hr
  refine ⟨ps', hq', ?_, hpending'⟩
  show s.popped ++ [msgDesc] ++ messages h' ps' = s.pushed
  rw [append_assoc, singleton_append, ← hmsgs, hfifo]

theorem QueueInv.step (hs : QueueInv s) (hop : Allocates s op) (hstep : queueStep s op = some s') :
    QueueInv s' := by
  cases op with
  | newNode msgDesc malloc =>
    obtain ⟨ps, hq, hfifo, hpending⟩ := hs
    obtain ⟨hq', hmsgs, hpending'⟩ := newNode_spec hq hpending hop
    cases hstep
    exact ⟨ps, hq', hmsgs ▸ hfifo, hpending'⟩
  | push node =>
    rw [queueStep] at hstep
    split at hstep
    · next hnode =>
        obtain ⟨ps, hq, hfifo, hpending⟩ := hs
        obtain ⟨h', q', hadd, hq', hmsgs, hpending'⟩ := push_spec hq hpending hnode
        rw [hadd] at hstep
        cases hstep
        refine ⟨ps ++ [node.1], hq', ?_, hpending'⟩
        rw [hmsgs, ← append_assoc, hfifo]
    · cases hstep
  | pop =>
    rw [queueStep] at hstep
    split at hstep
    · cases hstep
    · next hsize =>
        obtain ⟨r, hr, rfl⟩ := map_eq_some_iff.mp hstep
        exact hs.afterPop hsize hr

theorem QueueInv.served (hs : QueueInv s) : Served s op := by
  obtain ⟨ps, hq, -, hpending⟩ := hs
  cases op with
  | newNode => trivial
  | push node =>
    intro hnode
    obtain ⟨h', q', hadd, -⟩ := push_spec hq hpending hnode
    rw [hadd]
    rfl
  | pop =>
    intro hsize
    obtain ⟨msgDesc, h', q', ps', hpop, -⟩ := pop_spec hq hpending hsize
    rw [hpop]
    rfl

theorem queueStep_push {node : Nat × MessageDesc} (hstep : queueStep s (.push node) = some s') :
    s'.pushed = s.pushed ++ [node.2] ∧ s'.popped = s.popped := by
  rw [queueStep] at hstep
  split at hstep
  · obtain ⟨r, -, rfl⟩ := map_eq_some_iff.mp hstep
    exact ⟨rfl, rfl⟩
  · cases hstep

theorem QueueInv.account (hs : QueueInv s) :
    s.popped <+: s.pushed ∧ s.pushed.length = s.popped.length + s.queue.size := by
  obtain ⟨ps, hq, hfifo, -⟩ := hs
  refine ⟨⟨_, hfifo⟩, ?_⟩
  rw [← hfifo, length_append, messages, length_map, hq.size]

end Runs

def QueueState.created (h : Heap) (maxSize : Nat) : QueueState :=
  ⟨h, createLogQueue maxSize, [], [], []⟩

theorem QueueState.created_inv (h : Heap) (maxSize : Nat) : QueueInv (.created h maxSize) :=
  ⟨[], createLogQueue_ok h maxSize, rfl, fun _ he => absurd he not_mem_nil, nodup_nil⟩

/-- **The queue is a FIFO.** However the calls of any number of threads interleave, the list is well
linked, what was popped followed by what is queued is what was pushed, in push order, and no call
reads or writes through a bad pointer. -/
theorem queue_fifo (h : Heap) (maxSize : Nat) (ops : List QueueOp)
    (hops : Along queueStep Allocates (.created h maxSize) ops) :
    Always queueStep Fifo (.created h maxSize) ops ∧
      Along queueStep Served (.created h maxSize) ops := by
  have h0 := QueueState.created_inv h maxSize
  constructor
  · refine always_of_along ?_ (fun s op s' _ => QueueInv.step) h0 hops
    exact fun s ⟨ps, hq, hfifo, _⟩ => ⟨ps, hq, hfifo⟩
  · exact hops.imp (fun s op hs _ => hs.served) (fun s op s' => QueueInv.step) h0

def Heap.blank : Heap := ⟨fun _ => ⟨0, 0, ⟨[], 0, .blue, 0, 0⟩⟩, []⟩

/-- Two calls make their nodes in one order and get the lock in the other. -/
def crossedPushes : List QueueOp :=
  let first : MessageDesc := ⟨[65], 0, .blue, 0, 0⟩
  let second : MessageDesc := ⟨[66], 0, .blue, 0, 1⟩
  [.newNode first (some 8), .newNode second (some 16), .push (16, second), .push (8, first), .pop]

theorem queue_fifo_crossed :
    Along queueStep Allocates (.created .blank 10) crossedPushes ∧
      Always queueStep Fifo (.created .blank 10) crossedPushes ∧
      Along queueStep Served (.created .blank 10) crossedPushes :=
  ⟨by decide +kernel, queue_fifo .blank 10 crossedPushes (by decide +kernel)⟩

/-! ### No node is lost -/

/-- A node that is allocated is on the queue or waits for the lock, or it was there before. -/
def NodesKept (before : List Nat) (s : QueueState) : Prop :=
  ∃ ps, QueueOk s.heap s.queue ps ∧ PendingOk s.heap ps s.pending ∧
    s.heap.allocated.Perm (ps ++ (s.pending.map Prod.fst ++ before))

theorem NodesKept.step {before : List Nat} {s s' : QueueState} {op : QueueOp}
    (hs : NodesKept before s) (hop : Allocates s op) (hstep : queueStep s op = some s') :
    NodesKept before s' := by
  obtain ⟨ps, hq, hpending, hperm⟩ := hs
  cases op with
  | newNode msgDesc malloc =>
    obtain ⟨hq', -, hpending'⟩ := newNode_spec hq hpending hop
    obtain _ | p := malloc
    · exact absurd hop id
    cases hstep
    exact ⟨ps, hq', hpending', (hperm.cons p).trans perm_middle.symm⟩
  | push node =>
    rw [queueStep] at hstep
    split at hstep
    · next hnode =>
        obtain ⟨h', q', hadd, hq', -, hpending'⟩ := push_spec hq hpending hnode
        obtain ⟨h₁, q₁, hadd₁, -, -, halloc, -⟩ := addTail_spec hq (hpending.loose node hnode)
        cases hadd₁.symm.trans hadd
        rw [hadd] at hstep
        cases hstep
        refine ⟨ps ++ [node.1], hq', hpending', ?_⟩
        have hmoved := (perm_cons_erase hnode).map Prod.fst
        rw [append_assoc]
        exact halloc ▸ hperm.trans ((hmoved.append_right before).append_left ps)
    · cases hstep
  | pop =>
    rw [queueStep] at hstep
    split at hstep
    · cases hstep
    next hsize =>
    obtain ⟨r, hr, rfl⟩ := map_eq_some_iff.mp hstep
    cases ps with
    | nil => exact absurd hq.size hsize
    | cons p ps =>
      obtain ⟨h', q', hpop, hq', -, halloc, hother⟩ := popMessage_spec hq
      cases hpop.symm.trans hr
      refine ⟨ps, hq', ⟨fun e he => ?_, hpending.nodup⟩, ?_⟩
      · obtain ⟨hknown, hapart, hlinks⟩ := hpending.loose e he
        rw [mem_cons, not_or] at hapart
        refine ⟨⟨?_, hknown.2⟩, hapart.2, (hother _ hapart.2).trans hlinks⟩
        exact halloc ▸ (mem_erase_of_ne hapart.1).mpr hknown.1
      · have herase := hperm.erase p
        rw [cons_append, erase_cons_head] at herase
        exact halloc ▸ herase

/-- **No node is lost.** At any point of such a run `destroy_log_queue` returns, and of the nodes
that were allocated in between those of pushes that have not got the lock are left. -/
theorem destroyLogQueue_leaves (h : Heap) (maxSize : Nat) (ops : List QueueOp)
    (hops : Along queueStep Allocates (.created h maxSize) ops) :
    Always queueStep (fun s => ∃ h', destroyLogQueue s.heap s.queue = some h' ∧
      h'.allocated.Perm (s.pending.map Prod.fst ++ h.allocated)) (.created h maxSize) ops := by
  refine always_of_along (I := NodesKept h.allocated) ?_ (fun s op s' _ => NodesKept.step) ?_ hops
  · rintro s ⟨ps, hq, -, hperm⟩
    refine ⟨_, destroyLogQueue_spec hq, ?_⟩
    rw [← Multiset.coe_eq_coe, ← Multiset.coe_sub, Multiset.coe_eq_coe.mpr hperm,
      ← Multiset.coe_add, Multiset.coe_eq_coe.mpr ps.reverse_perm, add_tsub_cancel_left]
  · exact ⟨[], createLogQueue_ok h maxSize, ⟨fun _ he => absurd he not_mem_nil, nodup_nil⟩, .refl _⟩

theorem destroyLogQueue_leaves_crossed :
    Along queueStep Allocates (.created .blank 10) crossedPushes ∧
      Always queueStep (fun s => ∃ h', destroyLogQueue s.heap s.queue = some h' ∧
        h'.allocated.Perm (s.pending.map Prod.fst ++ [])) (.created .blank 10) crossedPushes :=
  ⟨by decide +kernel, destroyLogQueue_leaves .blank 10 crossedPushes (by decide +kernel)⟩

end LinuxWorkouts.Log
