import LinuxWorkouts.Lib.Transition

/-!
The reference-counting handle of `c++/shared_ptr.cpp`.

A `SharedPtr` holds a raw pointer and the address of a counter that it shares with its copies. The
model is the memory a program has for its handles, counters and objects, by address; the calls are
those a program can make on its handles. An access to a counter that is not allocated and a second
`delete` of an object are faults, so that their absence can be stated. `new size_t` succeeds and
returns any address that is not in use, an earlier counter's included.
-/

namespace LinuxWorkouts.SharedPtr

open Function

abbrev Address := Fin (2 ^ 64)

def null : Address := 0

/-- A `SharedPtr`. -/
structure Handle where
  ptr : Address
  objCounter : Address
  deriving DecidableEq, Repr

/-- Whether an object has been given to a handle, and what became of it. -/
inductive Ownership
  | unowned
  | owned
  | deleted
  deriving DecidableEq, Repr

inductive Fault
  | counterAfterDelete
  | counterDeletedTwice
  | objectDeletedTwice
  deriving DecidableEq, Repr

structure Program where
  handles : Address → Option Handle
  /-- The allocated counters. -/
  counters : Address → Option Nat
  objects : Address → Ownership
  fault : Option Fault

/-! ### Counters and deletion -/

/-- A value kept in a `size_t`. -/
def sizeT (n : Nat) : Nat := n % 2 ^ 64

def readCounter (s : Program) (counter : Address) : Except Fault Nat :=
  match s.counters counter with
  | some n => .ok n
  | none => .error .counterAfterDelete

def writeCounter (s : Program) (counter : Address) (n : Nat) : Program :=
  { s with counters := update s.counters counter (some n) }

/-- `cnt_increment` -/
def cntIncrement (s : Program) (counter : Address) : Except Fault Program :=
  (readCounter s counter).map fun n => writeCounter s counter (sizeT (n + 1))

/-- `cnt_decrement` -/
def cntDecrement (s : Program) (counter : Address) : Except Fault Program :=
  (readCounter s counter).map fun n => writeCounter s counter (sizeT (n + (2 ^ 64 - 1)))

def deleteObject (s : Program) (ptr : Address) : Except Fault Program :=
  if ptr = null then .ok s
  else if s.objects ptr = .deleted then .error .objectDeletedTwice
  else .ok { s with objects := update s.objects ptr .deleted }

def deleteCounter (s : Program) (counter : Address) : Except Fault Program :=
  if s.counters counter = none then .error .counterDeletedTwice
  else .ok { s with counters := update s.counters counter none }

/-- The code that the destructor, `reset` and `operator=` have in common: count down, and delete
the object and the counter at zero. -/
def dropReference (s : Program) (handle : Handle) : Except Fault Program :=
  (cntDecrement s handle.objCounter).bind fun s =>
    (readCounter s handle.objCounter).bind fun n =>
      if n = 0 then
        (deleteObject s handle.ptr).bind fun s => deleteCounter s handle.objCounter
      else .ok s

/-! ### The members -/

def setHandle (s : Program) (self : Address) (handle : Handle) : Program :=
  { s with handles := update s.handles self (some handle) }

/-- `ptr_ = ptr; obj_counter_ = new size_t; cnt_init(obj_counter_)`, with the new counter at
`counter`. The object belongs to the handle from here on. -/
def adopt (s : Program) (self ptr counter : Address) : Program :=
  { s with
    handles := update s.handles self (some ⟨ptr, counter⟩)
    counters := update s.counters counter (some 1)
    objects := if ptr = null then s.objects else update s.objects ptr .owned }

/-- `ptr_ = ptr.get(); obj_counter_ = ptr.get_current_obj_count(); cnt_increment(obj_counter_)` -/
def share (s : Program) (self : Address) (handle : Handle) : Except Fault Program :=
  cntIncrement (setHandle s self handle) handle.objCounter

def removeHandle (s : Program) (self : Address) : Program :=
  { s with handles := update s.handles self none }

/-! ### Programs -/

/-- A call on a handle. The constructor and `reset` name the address that `new size_t` returns. -/
inductive Call
  | construct (self ptr counter : Address)
  | copy (self other : Address)
  | assign (self other : Address)
  | reset (self ptr counter : Address)
  | destroy (self : Address)
  deriving DecidableEq, Repr

def freeCounter (s : Program) (counter : Address) : Bool :=
  counter ≠ null && s.counters counter = none

/-- What a call does; `none` when it is not a call a program can make: a handle is constructed
where none lives, and the other members are called on live handles. -/
def runCall (s : Program) : Call → Option (Except Fault Program)
  | .construct self ptr counter =>
    if self ≠ null ∧ s.handles self = none ∧ freeCounter s counter then
      some (.ok (adopt s self ptr counter))
    else none
  | .copy self other =>
    if self ≠ null ∧ s.handles self = none then (s.handles other).map (share s self) else none
  | .assign self other =>
    match s.handles self, s.handles other with
    | some handle, some otherHandle =>
      if self = other then some (.ok s)
      else some ((dropReference s handle).bind fun s => share s self otherHandle)
    | _, _ => none
  | .reset self ptr counter =>
    (s.handles self).bind fun handle =>
      match dropReference s handle with
      | .error fault => some (.error fault)
      | .ok s => if freeCounter s counter then some (.ok (adopt s self ptr counter)) else none
  | .destroy self =>
    (s.handles self).map fun handle =>
      (dropReference s handle).map fun s => removeHandle s self

def step (s : Program) (call : Call) : Option Program :=
  if s.fault.isSome then none
  else
    (runCall s call).map fun
      | .ok s' => s'
      | .error fault => { s with fault := some fault }

def start : Program := ⟨fun _ => none, fun _ => none, fun _ => .unowned, none⟩

def Call.rawPointer : Call → Option Address
  | .construct _ ptr _ | .reset _ ptr _ => if ptr = null then none else some ptr
  | _ => none

end LinuxWorkouts.SharedPtr
