import LinuxWorkouts.Log.Queue
import LinuxWorkouts.Lib.Ascii

/-!
The log of the file server and its shutdown (`log.c`, `main` of `server.c`).

Any number of threads and `main` itself log through the queue; `log_writer_routine` tests the
flag, waits for a message, and writes it, each a step of its own; `main` stores the flag,
joins the writer and destroys the log. The queue is the one of `Log.Queue`, so its invariant is
used here and not proved again.

* `shutdown_drains_iff` — when the writer exits, everything pushed before the flag is in the file
  exactly if the writer could still take what was queued when the flag was stored;
* `shutdown_not_wedged` — `main` and the writer do not wait for each other if the writer
  was not inside `pop_message` on an empty queue at that moment.
-/

namespace LinuxWorkouts.Log

open Transition Ascii Option List

/-! ### Messages -/

/-- The message that `log_write_thread` pushes; `message` is the memory behind the pointer. -/
def logWriteThread (tid : Nat) (message : List UInt8) (error : Int) (level : LogLevel)
    (currentTimestamp : Int) : MessageDesc :=
  ⟨message.take DEFAULT_MESSAGE_SIZE, error, level, currentTimestamp, tid⟩

def logWrite (message : List UInt8) (error : Int) (level : LogLevel) (currentTimestamp : Int) :
    MessageDesc := logWriteThread 0 message error level currentTimestamp

inductive LogCall where
  | logWrite (message : List UInt8) (error : Int) (level : LogLevel) (time : Int)
  | logWriteThread (tid : Nat) (message : List UInt8) (error : Int) (level : LogLevel) (time : Int)
deriving DecidableEq, Repr

def LogCall.msgDesc : LogCall → MessageDesc
  | .logWrite message error level time => Log.logWrite message error level time
  | .logWriteThread tid message error level time => Log.logWriteThread tid message error level time

/-! ### The threads -/

/-- Where `log_writer_routine` is: at the test of the flag, before the test of the size in
`pop_message`, in `pthread_cond_wait`, with a message to write, or at its end. -/
inductive Writer where
  | testing
  | popping
  | waiting
  | writing (msgDesc : MessageDesc)
  | exited
deriving DecidableEq, Repr

/-- Where `main` is: in its loop, in a `log_write` of its own, in `pthread_join`, or behind
`destroy_log`. -/
inductive Main where
  | running
  | logging (node : Nat × MessageDesc)
  | joining
  | joined
deriving DecidableEq, Repr

inductive Caller where
  | main
  | thread
deriving DecidableEq, Repr

/-- `threads` counts the threads that may log and are not in a call. `early` records what was
pushed before the flag was stored. -/
structure LogState where
  log : QueueState
  shutdownFlag : Bool
  writer : Writer
  main : Main
  threads : Nat
  logfile : List MessageDesc
  early : List MessageDesc

inductive LogOp where
  | start
  | leave
  | call (caller : Caller) (call : LogCall) (malloc : Option Nat)
  | push (caller : Caller) (node : Nat × MessageDesc)
  | writer
  | wake
  | setFlag
  | join
deriving DecidableEq, Repr

def Writer.signal : Writer → Writer
  | .waiting => .popping
  | w => w

def LogState.newMessage (s : LogState) (msgDesc : MessageDesc) (malloc : Option Nat) :
    Option LogState :=
  (queueStep s.log (.newNode msgDesc malloc)).map fun l => { s with log := l }

def LogState.pushMessage (s : LogState) (node : Nat × MessageDesc) : Option LogState :=
  (queueStep s.log (.push node)).map fun l =>
    { s with
      log := l, writer := s.writer.signal,
      early := if s.shutdownFlag then s.early else s.early ++ [node.2] }

def logWriterRoutine (s : LogState) : Option LogState :=
  match s.writer with
  | .testing => some { s with writer := if s.shutdownFlag then .exited else .popping }
  | .popping =>
    if s.log.queue.size = 0 then some { s with writer := .waiting }
    else (popMessage s.log.heap s.log.queue).map fun r =>
      { s with log := s.log.afterPop r, writer := .writing r.1 }
  | .waiting => none
  | .writing msgDesc => some { s with writer := .testing, logfile := s.logfile ++ [msgDesc] }
  | .exited => none

/-- Threads are started by `main` in its loop; `wake` is a return of `pthread_cond_wait` that
nobody signalled. -/
def logStep (s : LogState) (op : LogOp) : Option LogState :=
  if s.main = .joined then none
  else
    match op with
    | .start => if s.main = .running then some { s with threads := s.threads + 1 } else none
    | .leave => if s.threads = 0 then none else some { s with threads := s.threads - 1 }
    | .call .main call malloc =>
      if s.main = .running then
        (s.newMessage call.msgDesc malloc).map fun t =>
          { t with main := .logging ((newNode s.log.heap malloc call.msgDesc).2, call.msgDesc) }
      else none
    | .call .thread call malloc =>
      if s.threads = 0 then none
      else (s.newMessage call.msgDesc malloc).map fun t => { t with threads := s.threads - 1 }
    | .push .main node =>
      if s.main = .logging node then (s.pushMessage node).map fun t => { t with main := .running }
      else none
    | .push .thread node =>
      if s.main = .logging node then none
      else (s.pushMessage node).map fun t => { t with threads := s.threads + 1 }
    | .writer => logWriterRoutine s
    | .wake => if s.writer = .waiting then some { s with writer := .popping } else none
    | .setFlag =>
      if s.main = .running then some { s with main := .joining, shutdownFlag := true } else none
    | .join =>
      if s.main = .joining ∧ s.writer = .exited then
        (destroyLogQueue s.log.heap s.log.queue).map fun h =>
          { s with log := { s.log with heap := h }, main := .joined }
      else none

def LogState.created (h : Heap) (logQueueSize : Nat) : LogState :=
  ⟨.created h logQueueSize, false, .testing, .running, 0, [], []⟩

def CallAllocates (s : LogState) : LogOp → Prop
  | .call _ _ malloc => s.log.heap.Fresh malloc
  | _ => True

instance (s : LogState) (op : LogOp) : Decidable (CallAllocates s op) := by
  unfold CallAllocates
  split <;> infer_instance

/-! ### What a step can do -/

def Main.stopping : Main → Bool
  | .joining => true
  | .joined => true
  | _ => false

/-- The steps by what they change. Only `setFlag` and `join` move `main` towards the end. -/
inductive Effect (s : LogState) : LogOp → LogState → Prop
  | threads {op : LogOp} (n : Nat) : op ≠ .setFlag → Effect s op { s with threads := n }
  | call {caller : Caller} {call : LogCall} {malloc : Option Nat} {l : QueueState} (n : Nat)
      (m : Main) : queueStep s.log (.newNode call.msgDesc malloc) = some l →
      m.stopping = s.main.stopping →
      Effect s (.call caller call malloc) { s with log := l, threads := n, main := m }
  | push {caller : Caller} {node : Nat × MessageDesc} {l : QueueState} (n : Nat) (m : Main) :
      queueStep s.log (.push node) = some l → m.stopping = s.main.stopping →
      Effect s (.push caller node)
        { s with
          log := l, writer := s.writer.signal, threads := n, main := m,
          early := if s.shutdownFlag then s.early else s.early ++ [node.2] }
  | test : s.writer = .testing →
      Effect s .writer { s with writer := if s.shutdownFlag then .exited else .popping }
  | wait : s.writer = .popping → s.log.queue.size = 0 →
      Effect s .writer { s with writer := .waiting }
  | pop {r : MessageDesc × Heap × LogMessageQueue} : s.writer = .popping →
      s.log.queue.size ≠ 0 → popMessage s.log.heap s.log.queue = some r →
      Effect s .writer { s with log := s.log.afterPop r, writer := .writing r.1 }
  | write {msgDesc : MessageDesc} : s.writer = .writing msgDesc →
      Effect s .writer { s with writer := .testing, logfile := s.logfile ++ [msgDesc] }
  | wake : s.writer = .waiting → Effect s .wake { s with writer := .popping }
  | setFlag : s.main = .running →
      Effect s .setFlag { s with main := .joining, shutdownFlag := true }
  | join {h : Heap} : s.main = .joining → s.writer = .exited →
      Effect s .join { s with log := { s.log with heap := h }, main := .joined }

section Steps

variable {s s' : LogState} {op : LogOp}

theorem logWriterRoutine_effect (hstep : logWriterRoutine s = some s') : Effect s .writer s' := by
  rw [logWriterRoutine] at hstep
  split at hstep
  · next hw =>
      cases hstep
      exact .test hw
  · next hw =>
      split at hstep
      · next hsize =>
          cases hstep
          exact .wait hw hsize
      · next hsize =>
          obtain ⟨r, hr, rfl⟩ := map_eq_some_iff.mp hstep
          exact .pop hw hsize hr
  · cases hstep
  · next hw =>
      cases hstep
      exact .write hw
  · cases hstep

theorem logStep_effect (hstep : logStep s op = some s') : s.main ≠ .joined ∧ Effect s op s' := by
  unfold logStep at hstep
  split at hstep
  · cases hstep
  · next hmain =>
      refine ⟨hmain, ?_⟩
      split at hstep
      · split at hstep
        · cases hstep
          exact .threads _ (by simp)
        · cases hstep
      · split at hstep
        · cases hstep
        · cases hstep
          exact .threads _ (by simp)
      · split at hstep
        · next hrun =>
            obtain ⟨t, ht, rfl⟩ := map_eq_some_iff.mp hstep
            obtain ⟨l, hl, rfl⟩ := map_eq_some_iff.mp ht
            exact .call s.threads _ hl (by rw [hrun]; rfl)
        · cases hstep
      · split at hstep
        · cases hstep
        · obtain ⟨t, ht, rfl⟩ := map_eq_some_iff.mp hstep
          obtain ⟨l, hl, rfl⟩ := map_eq_some_iff.mp ht
          exact .call _ s.main hl rfl
      · split at hstep
        · next hlog =>
            obtain ⟨t, ht, rfl⟩ := map_eq_some_iff.mp hstep
            obtain ⟨l, hl, rfl⟩ := map_eq_some_iff.mp ht
            exact .push s.threads _ hl (by rw [hlog]; rfl)
        · cases hstep
      · split at hstep
        · cases hstep
        · obtain ⟨t, ht, rfl⟩ := map_eq_some_iff.mp hstep
          obtain ⟨l, hl, rfl⟩ := map_eq_some_iff.mp ht
          exact .push _ s.main hl rfl
      · exact logWriterRoutine_effect hstep
      · split at hstep
        · next hw =>
            cases hstep
            exact .wake hw
        · cases hstep
      · split at hstep
        · next hrun =>
            cases hstep
            exact .setFlag hrun
        · cases hstep
      · split at hstep
        · next hjoin =>
            obtain ⟨h, -, rfl⟩ := map_eq_some_iff.mp hstep
            exact .join hjoin.1 hjoin.2
        · cases hstep

end Steps

/-! ### The invariant -/

def Writer.inHand : Writer → List MessageDesc
  | .writing msgDesc => [msgDesc]
  | _ => []

/-- How many messages the writer still takes to the file once the flag is stored. -/
def Writer.due : Writer → Nat
  | .popping => 1
  | .waiting => 1
  | .writing _ => 1
  | _ => 0

structure LogInv (s : LogState) : Prop where
  queue : s.main ≠ .joined → QueueInv s.log
  popped : s.log.popped <+: s.log.pushed
  written : s.log.popped = s.logfile ++ s.writer.inHand
  early : s.early <+: s.log.pushed
  unstopped : s.shutdownFlag = false → s.early = s.log.pushed
  flag : s.shutdownFlag = s.main.stopping
  waiting : s.writer = .waiting → s.log.queue.size = 0
  exited : s.writer = .exited → s.shutdownFlag = true

section Invariant

variable {s s' : LogState} {op : LogOp}

theorem Writer.signal_ne_waiting (w : Writer) : w.signal ≠ .waiting := by
  cases w <;> simp [Writer.signal]

theorem Writer.exited_of_signal {w : Writer} (h : w.signal = .exited) : w = .exited := by
  cases w <;> first | rfl | cases h

@[simp] theorem Writer.signal_inHand (w : Writer) : w.signal.inHand = w.inHand := by
  cases w <;> rfl

@[simp] theorem Writer.signal_due (w : Writer) : w.signal.due = w.due := by
  cases w <;> rfl

theorem LogInv.effect (hs : LogInv s) (hmain : s.main ≠ .joined) (hop : CallAllocates s op)
    (he : Effect s op s') : LogInv s' := by
  have hq := hs.queue hmain
  have hwritten := hs.written
  cases he with
  | threads n _ =>
    exact ⟨hs.queue, hs.popped, hwritten, hs.early, hs.unstopped, hs.flag, hs.waiting, hs.exited⟩
  | @call caller call malloc l n m hl hm =>
    have hfresh : Allocates s.log (.newNode call.msgDesc malloc) := hop
    have hq' : QueueInv l := hq.step hfresh hl
    cases hl
    exact ⟨fun _ => hq', hs.popped, hwritten, hs.early, hs.unstopped, hs.flag.trans hm.symm,
      hs.waiting, hs.exited⟩
  | @push caller node l n m hl hm =>
    have hpush : Allocates s.log (.push node) := trivial
    have hq' : QueueInv l := hq.step hpush hl
    obtain ⟨hpushed, hpopped⟩ := queueStep_push hl
    refine ⟨fun _ => hq', hq'.account.1, ?_, ?_, ?_, hs.flag.trans hm.symm, ?_, ?_⟩
    · show l.popped = s.logfile ++ s.writer.signal.inHand
      rw [hpopped, hwritten, Writer.signal_inHand]
    · show (if s.shutdownFlag then s.early else s.early ++ [node.2]) <+: l.pushed
      rw [hpushed]
      split
      · exact hs.early.trans (prefix_append _ _)
      · next hflag => rw [hs.unstopped (Bool.eq_false_iff.mpr hflag)]
    · intro hflag
      have hflag : s.shutdownFlag = false := hflag
      show (if s.shutdownFlag then s.early else s.early ++ [node.2]) = l.pushed
      rw [hflag, hpushed, hs.unstopped hflag]
      rfl
    · exact fun hw => absurd hw s.writer.signal_ne_waiting
    · exact fun hw => hs.exited (Writer.exited_of_signal hw)
  | test hw =>
    rw [hw] at hwritten
    cases hflag : s.shutdownFlag with
    | false =>
      exact ⟨hs.queue, hs.popped, hwritten, hs.early, fun _ => hs.unstopped hflag,
        hflag.symm.trans hs.flag, fun h => Writer.noConfusion h, fun h => Writer.noConfusion h⟩
    | true =>
      exact ⟨hs.queue, hs.popped, hwritten, hs.early, fun h => Bool.noConfusion h,
        hflag.symm.trans hs.flag, fun h => Writer.noConfusion h, fun _ => rfl⟩
  | wait hw hsize =>
    rw [hw] at hwritten
    exact ⟨hs.queue, hs.popped, hwritten, hs.early, hs.unstopped, hs.flag, fun _ => hsize,
      fun h => Writer.noConfusion h⟩
  | @pop r hw hsize hr =>
    have hq' := hq.afterPop hsize hr
    rw [hw] at hwritten
    refine ⟨fun _ => hq', hq'.account.1, ?_, hs.early, hs.unstopped, hs.flag,
      fun h => Writer.noConfusion h, fun h => Writer.noConfusion h⟩
    show s.log.popped ++ [r.1] = s.logfile ++ [r.1]
    rw [hwritten]
    exact congrArg (· ++ [r.1]) (append_nil _)
  | @write msgDesc hw =>
    rw [hw] at hwritten
    refine ⟨hs.queue, hs.popped, ?_, hs.early, hs.unstopped, hs.flag,
      fun h => Writer.noConfusion h, fun h => Writer.noConfusion h⟩
    show s.log.popped = s.logfile ++ [msgDesc] ++ []
    rw [append_nil]
    exact hwritten
  | wake hw =>
    rw [hw] at hwritten
    exact ⟨hs.queue, hs.popped, hwritten, hs.early, hs.unstopped, hs.flag,
      fun h => Writer.noConfusion h, fun h => Writer.noConfusion h⟩
  | setFlag hrun =>
    exact ⟨fun _ => hq, hs.popped, hwritten, hs.early, fun h => Bool.noConfusion h, rfl,
      hs.waiting, fun _ => rfl⟩
  | join hjoin _ =>
    have hflag : s.shutdownFlag = true := by
      rw [hs.flag, hjoin]
      rfl
    exact ⟨fun h => absurd rfl h, hs.popped, hwritten, hs.early, hs.unstopped, hflag, hs.waiting,
      hs.exited⟩

theorem LogInv.step (hs : LogInv s) (hop : CallAllocates s op) (hstep : logStep s op = some s') :
    LogInv s' :=
  hs.effect (logStep_effect hstep).1 hop (logStep_effect hstep).2

theorem LogState.created_inv (h : Heap) (logQueueSize : Nat) :
    LogInv (LogState.created h logQueueSize) where
  queue _ := QueueState.created_inv h logQueueSize
  popped := prefix_refl _
  written := rfl
  early := prefix_refl _
  unstopped _ := rfl
  flag := rfl
  waiting h := Writer.noConfusion h
  exited h := Writer.noConfusion h

/-! ### Draining -/

/-- What the writer takes to the file when nothing but the flag stops it. -/
def LogState.reach (s : LogState) : Nat := s.logfile.length + s.writer.due

theorem reach_stopped (hflag : s.shutdownFlag = true) (he : Effect s op s') :
    s'.shutdownFlag = true ∧ s'.reach = s.reach ∧ s'.early = s.early := by
  cases he with
  | threads n _ => exact ⟨hflag, rfl, rfl⟩
  | call n m hl hm => exact ⟨hflag, rfl, rfl⟩
  | push n m hl hm =>
    refine ⟨hflag, ?_, if_pos hflag⟩
    exact congrArg (s.logfile.length + ·) s.writer.signal_due
  | test hw =>
    refine ⟨hflag, ?_, rfl⟩
    simp [LogState.reach, hw, hflag, Writer.due]
  | wait hw _ =>
    refine ⟨hflag, ?_, rfl⟩
    simp [LogState.reach, hw, Writer.due]
  | pop hw _ _ =>
    refine ⟨hflag, ?_, rfl⟩
    simp [LogState.reach, hw, Writer.due]
  | write hw =>
    refine ⟨hflag, ?_, rfl⟩
    simp [LogState.reach, hw, Writer.due]
  | wake hw =>
    refine ⟨hflag, ?_, rfl⟩
    simp [LogState.reach, hw, Writer.due]
  | setFlag hrun => exact ⟨rfl, rfl, rfl⟩
  | join _ _ => exact ⟨hflag, rfl, rfl⟩

theorem flag_of_effect (he : Effect s op s') (hop : op ≠ .setFlag) :
    s'.shutdownFlag = s.shutdownFlag := by
  cases he <;> first | rfl | exact absurd rfl hop

end Invariant

/-- When `main` stores the flag, the writer can still take all that is queued: one message if it is
inside `pop_message`, none otherwise. -/
def QueueInReach (s : LogState) (op : LogOp) : Prop :=
  op = .setFlag →
    s.log.queue.size ≤ if s.writer = .popping ∨ s.writer = .waiting then 1 else 0

instance (s : LogState) (op : LogOp) : Decidable (QueueInReach s op) := by
  unfold QueueInReach
  infer_instance

section Draining

variable {s s' : LogState} {op : LogOp}

theorem LogInv.queueInReach_iff (hs : LogInv s) (hrun : s.main = .running) :
    QueueInReach s .setFlag ↔ s.early.length ≤ s.reach := by
  have hflag : s.shutdownFlag = false := by rw [hs.flag, hrun]; rfl
  have hcount := (hs.queue (by simp [hrun])).account.2
  rw [hs.written, length_append, ← hs.unstopped hflag] at hcount
  rw [QueueInReach, hcount, LogState.reach]
  cases hw : s.writer <;> simp [Writer.due, Writer.inHand]

theorem LogInv.early_prefix_iff (hs : LogInv s) (hexit : s.writer = .exited) :
    s.early <+: s.logfile ↔ s.early.length ≤ s.reach := by
  have hfile : s.logfile <+: s.log.pushed := by
    have hwritten := hs.written
    rw [hexit] at hwritten
    rw [← append_nil s.logfile]
    exact hwritten ▸ hs.popped
  rw [LogState.reach, hexit]
  constructor
  · exact fun h => h.length_le
  · exact fun h => prefix_of_prefix_length_le hs.early hfile h

/-- The part of a run whose store of the flag, if there was one, had the queue in reach. -/
def Draining (s : LogState) : Prop :=
  LogInv s ∧ (s.shutdownFlag = true → s.early.length ≤ s.reach)

/-- The part of a run behind a store of the flag that left messages out of reach. -/
def Dropping (s : LogState) : Prop :=
  LogInv s ∧ s.shutdownFlag = true ∧ s.reach < s.early.length

theorem Draining.step (hs : Draining s) (hop : CallAllocates s op) (hreach : QueueInReach s op)
    (hstep : logStep s op = some s') : Draining s' := by
  obtain ⟨hs, hgood⟩ := hs
  refine ⟨hs.step hop hstep, fun hflag => ?_⟩
  have he := (logStep_effect hstep).2
  by_cases hset : op = .setFlag
  · subst hset
    cases he with
    | threads n hne => exact absurd rfl hne
    | setFlag hmain => exact (hs.queueInReach_iff hmain).mp hreach
  · have hflag' : s.shutdownFlag = true := (flag_of_effect he hset).symm.trans hflag
    obtain ⟨-, hr, hearly⟩ := reach_stopped hflag' he
    rw [hr, hearly]
    exact hgood hflag'

theorem Draining.break (hs : Draining s) (hop : CallAllocates s op) (hreach : ¬ QueueInReach s op)
    (hstep : logStep s op = some s') : Dropping s' := by
  have he := (logStep_effect hstep).2
  have hset : op = .setFlag := by
    by_contra hne
    exact hreach fun h => absurd h hne
  subst hset
  refine ⟨hs.1.step hop hstep, ?_⟩
  cases he with
  | threads n hne => exact absurd rfl hne
  | setFlag hmain =>
    rw [hs.1.queueInReach_iff hmain, not_le] at hreach
    exact ⟨rfl, hreach⟩

theorem Dropping.step (hs : Dropping s) (hop : CallAllocates s op)
    (hstep : logStep s op = some s') : Dropping s' := by
  obtain ⟨hs, hflag, hbad⟩ := hs
  obtain ⟨hflag', hr, hearly⟩ := reach_stopped hflag (logStep_effect hstep).2
  refine ⟨hs.step hop hstep, hflag', ?_⟩
  rw [hr, hearly]
  exact hbad

/-- **The log is drained iff the queue was in reach.** When the writer has exited, the file begins
with everything pushed before the flag was stored, exactly if at that moment the writer could still
take what was queued. -/
theorem shutdown_drains_iff (h : Heap) (logQueueSize : Nat) (ops : List LogOp) (s' : LogState)
    (hops : Along logStep CallAllocates (.created h logQueueSize) ops)
    (hrun : run logStep (.created h logQueueSize) ops = some s') (hexit : s'.writer = .exited) :
    s'.early <+: s'.logfile ↔ Along logStep QueueInReach (.created h logQueueSize) ops := by
  have h0 : Draining (.created h logQueueSize) :=
    ⟨LogState.created_inv h logQueueSize, fun h => Bool.noConfusion h⟩
  obtain ⟨hdrain, hdrop⟩ := run_split (fun s op s' => Draining.step) (fun s op s' => Draining.break)
    (fun s op s' => Dropping.step) h0 hops hrun
  constructor
  · intro hwritten
    by_contra hout
    obtain ⟨hs, -, hlt⟩ := hdrop hout
    have hle := (hs.early_prefix_iff hexit).mp hwritten
    omega
  · intro hreach
    obtain ⟨hs, hle⟩ := hdrain hreach
    exact (hs.early_prefix_iff hexit).mpr (hle (hs.exited hexit))

end Draining

/-- `LOG_WRITE` of a text by `main`, which is put at the address `p`. -/
def mainLogs (text : String) (p : Nat) : List LogOp :=
  let call : LogCall := .logWrite (ascii text) 0 .blue 0
  [.call .main call (some p), .push .main (p, call.msgDesc)]

/-- The writer is inside `pop_message` when `main` logs its last message and stores the flag. -/
def drainedRun : List LogOp :=
  mainLogs "Start main loop!" 8 ++ [.writer, .writer, .writer, .writer] ++
    mainLogs "Stop main loop!" 16 ++ [.setFlag, .writer, .writer, .writer]

/-- The writer has not been scheduled yet when `main` stores the flag. -/
def droppedRun : List LogOp :=
  mainLogs "Start main loop!" 8 ++ mainLogs "Stop main loop!" 16 ++ [.setFlag, .writer]

theorem shutdown_drains_popping :
    ∃ s', run logStep (.created .blank 1024) drainedRun = some s' ∧ s'.writer = .exited ∧
      s'.early <+: s'.logfile := by
  have hends : (run logStep (.created .blank 1024) drainedRun).map LogState.writer =
      some .exited := by
    decide +kernel
  obtain ⟨s', hrun, hexit⟩ := map_eq_some_iff.mp hends
  refine ⟨s', hrun, hexit, ?_⟩
  exact (shutdown_drains_iff .blank 1024 drainedRun s' (by decide +kernel) hrun hexit).mpr
    (by decide +kernel)

/-- Both messages of `main` were pushed before the flag, and the writer exits with an empty file. -/
theorem shutdown_drops :
    (run logStep (.created .blank 1024) droppedRun).map
        (fun s => (s.writer, s.early.length, s.logfile)) = some (.exited, 2, []) := by
  decide +kernel

/-! ### Waiting for each other -/

/-- `main` is in `pthread_join`, the writer waits on an empty queue, and nobody is left to push. -/
def Wedged (s : LogState) : Prop :=
  s.main = .joining ∧ s.writer = .waiting ∧ s.log.queue.size = 0 ∧ s.threads = 0 ∧
    s.log.pending = []

instance (s : LogState) : Decidable (Wedged s) := by
  unfold Wedged
  infer_instance

def Starved (s : LogState) : Prop :=
  (s.writer = .popping ∨ s.writer = .waiting) ∧ s.log.queue.size = 0

instance (s : LogState) : Decidable (Starved s) := by
  unfold Starved
  infer_instance

def FedAtFlag (s : LogState) (op : LogOp) : Prop := op = .setFlag → ¬ Starved s

instance (s : LogState) (op : LogOp) : Decidable (FedAtFlag s op) := by
  unfold FedAtFlag
  infer_instance

section Waiting

variable {s s' : LogState} {op : LogOp}

theorem addTail_size {h h' : Heap} {q q' : LogMessageQueue} {node : Nat}
    (hadd : addTail h q node = some (h', q')) : q.size ≤ q'.size := by
  rw [addTail] at hadd
  split at hadd
  · cases hadd
    exact le_rfl
  · split at hadd
    · cases hadd
      exact Nat.le_succ _
    · obtain ⟨h₁, -, hadd⟩ := bind_eq_some_iff.mp hadd
      obtain ⟨h₂, -, hadd⟩ := bind_eq_some_iff.mp hadd
      cases hadd
      exact Nat.le_succ _

theorem queueStep_push_size {t t' : QueueState} {node : Nat × MessageDesc}
    (hstep : queueStep t (.push node) = some t') : t.queue.size ≤ t'.queue.size := by
  rw [queueStep] at hstep
  split at hstep
  · obtain ⟨r, hr, rfl⟩ := map_eq_some_iff.mp hstep
    exact addTail_size hr
  · cases hstep

/-- A wakeup is never lost, and behind the flag the writer is not starved. -/
structure Fed (s : LogState) : Prop where
  waiting : s.writer = .waiting → s.log.queue.size = 0
  flag : s.shutdownFlag = s.main.stopping
  fed : s.shutdownFlag = true → ¬ Starved s

theorem Fed.push {node : Nat × MessageDesc} {l : QueueState} (hs : Fed s)
    (hl : queueStep s.log (.push node) = some l) (hflag : s.shutdownFlag = true) :
    ¬ ((s.writer.signal = .popping ∨ s.writer.signal = .waiting) ∧ l.queue.size = 0) := by
  rintro ⟨hw, hsize⟩
  have hle := queueStep_push_size hl
  apply hs.fed hflag
  refine ⟨?_, by omega⟩
  cases hwriter : s.writer <;> simp_all [Writer.signal]

theorem Fed.step (hs : Fed s) (hop : FedAtFlag s op) (hstep : logStep s op = some s') : Fed s' := by
  cases (logStep_effect hstep).2 with
  | threads n _ => exact ⟨hs.waiting, hs.flag, hs.fed⟩
  | call n m hl hm =>
    cases hl
    exact ⟨hs.waiting, hs.flag.trans hm.symm, hs.fed⟩
  | push n m hl hm =>
    refine ⟨fun h => absurd h s.writer.signal_ne_waiting, hs.flag.trans hm.symm, fun hflag => ?_⟩
    exact hs.push hl hflag
  | test hw =>
    cases hflag : s.shutdownFlag with
    | false =>
      exact ⟨fun h => Writer.noConfusion h, hflag.symm.trans hs.flag, fun h => Bool.noConfusion h⟩
    | true =>
      refine ⟨fun h => Writer.noConfusion h, hflag.symm.trans hs.flag, fun _ => ?_⟩
      rintro ⟨h | h, -⟩ <;> cases h
  | wait hw hsize =>
    refine ⟨fun _ => hsize, hs.flag, fun hflag => ?_⟩
    exact absurd ⟨.inl hw, hsize⟩ (hs.fed hflag)
  | pop hw _ _ =>
    refine ⟨fun h => Writer.noConfusion h, hs.flag, fun _ => ?_⟩
    rintro ⟨h | h, -⟩ <;> cases h
  | write hw =>
    refine ⟨fun h => Writer.noConfusion h, hs.flag, fun _ => ?_⟩
    rintro ⟨h | h, -⟩ <;> cases h
  | wake hw =>
    refine ⟨fun h => Writer.noConfusion h, hs.flag, fun hflag => ?_⟩
    exact absurd ⟨.inr hw, hs.waiting hw⟩ (hs.fed hflag)
  | setFlag hrun => exact ⟨hs.waiting, rfl, fun _ => hop rfl⟩
  | join hjoin _ =>
    have hflag : s.shutdownFlag = true := by
      rw [hs.flag, hjoin]
      rfl
    exact ⟨hs.waiting, hflag, hs.fed⟩

theorem LogState.created_fed (h : Heap) (logQueueSize : Nat) : Fed (.created h logQueueSize) where
  waiting h := Writer.noConfusion h
  flag := rfl
  fed h := Bool.noConfusion h

theorem Fed.not_wedged (hs : Fed s) : ¬ Wedged s := by
  rintro ⟨hmain, hw, hsize, -⟩
  refine hs.fed ?_ ⟨.inr hw, hsize⟩
  rw [hs.flag, hmain]
  rfl

/-- **The shutdown does not wedge** in any run in which the writer is not starved when `main` stores
the flag, whatever `malloc` returns. -/
theorem shutdown_not_wedged (h : Heap) (logQueueSize : Nat) (ops : List LogOp)
    (hops : Along logStep FedAtFlag (.created h logQueueSize) ops) :
    Always logStep (fun s => ¬ Wedged s) (.created h logQueueSize) ops := by
  refine always_of_along (I := Fed) (fun s => Fed.not_wedged) ?_
    (LogState.created_fed h logQueueSize) hops
  exact fun s op s' _ => Fed.step

theorem shutdown_not_wedged_popping :
    Along logStep FedAtFlag (.created .blank 1024) drainedRun ∧
      Always logStep (fun s => ¬ Wedged s) (.created .blank 1024) drainedRun :=
  ⟨by decide +kernel, shutdown_not_wedged .blank 1024 drainedRun (by decide +kernel)⟩

/-- The writer has written everything and waits for more when `main` stores the flag. -/
def wedgedRun : List LogOp :=
  mainLogs "Start main loop!" 8 ++ mainLogs "Stop main loop!" 16 ++
    replicate 8 .writer ++ [.setFlag]

theorem shutdown_wedges :
    ∃ s', run logStep (.created .blank 1024) wedgedRun = some s' ∧ Wedged s' := by
  have hends : (run logStep (.created .blank 1024) wedgedRun).map (fun s => decide (Wedged s)) =
      some true := by
    decide +kernel
  obtain ⟨s', hrun, hw⟩ := map_eq_some_iff.mp hends
  exact ⟨s', hrun, of_decide_eq_true hw⟩

/-- The flag is stored, the writer is starved, and nobody is left to push. -/
def Stuck (s : LogState) : Prop :=
  s.main = .joining ∧ s.shutdownFlag = true ∧ Starved s ∧ s.threads = 0 ∧ s.log.pending = []

theorem wedged_of_starved (hmain : s.main = .running) (hstarved : Starved s)
    (hthreads : s.threads = 0) (hpending : s.log.pending = []) :
    ∃ ops s', run logStep s (.setFlag :: ops) = some s' ∧ Wedged s' := by
  obtain ⟨hw | hw, hsize⟩ := hstarved
  · refine ⟨[.writer], { s with main := .joining, shutdownFlag := true, writer := .waiting }, ?_,
      rfl, rfl, hsize, hthreads, hpending⟩
    simp [run, logStep, logWriterRoutine, hmain, hw, hsize]
  · refine ⟨[], { s with main := .joining, shutdownFlag := true }, ?_, rfl, hw, hsize, hthreads,
      hpending⟩
    simp [run, logStep, hmain]

theorem Stuck.step (hs : Stuck s) (hstep : logStep s op = some s') : Stuck s' := by
  obtain ⟨hmain, hflag, ⟨hw, hsize⟩, hthreads, hpending⟩ := hs
  cases op with
  | start => simp [logStep, hmain] at hstep
  | leave => simp [logStep, hmain, hthreads] at hstep
  | call caller call malloc => cases caller <;> simp [logStep, hmain, hthreads] at hstep
  | push caller node =>
    cases caller <;>
      simp [logStep, hmain, LogState.pushMessage, queueStep, hpending] at hstep
  | writer =>
    rcases hw with hw | hw
    · simp only [logStep, hmain, logWriterRoutine, hw, hsize, reduceCtorEq, if_false,
        if_true] at hstep
      cases hstep
      exact ⟨rfl, hflag, ⟨.inr rfl, hsize⟩, hthreads, hpending⟩
    · simp [logStep, hmain, logWriterRoutine, hw] at hstep
  | wake =>
    simp only [logStep, hmain, reduceCtorEq, if_false] at hstep
    split at hstep
    · cases hstep
      exact ⟨rfl, hflag, ⟨.inl rfl, hsize⟩, hthreads, hpending⟩
    · cases hstep
  | setFlag => simp [logStep, hmain] at hstep
  | join =>
    rcases hw with hw | hw <;> simp [logStep, hmain, hw] at hstep

/-- **A wedged shutdown stays so:** `main` never returns from `pthread_join`. -/
theorem wedged_forever (hs : Wedged s) (hflag : s.shutdownFlag = true) (ops : List LogOp) :
    Always logStep Stuck s ops := by
  obtain ⟨hmain, hw, hsize, hthreads, hpending⟩ := hs
  apply always_of_step ops (fun s op s' => Stuck.step)
  exact ⟨hmain, hflag, ⟨.inr hw, hsize⟩, hthreads, hpending⟩

theorem wedged_forever_idle :
    ∃ s, run logStep (.created .blank 1024) [.writer, .writer, .setFlag] = some s ∧
      ∀ ops, Always logStep Stuck s ops :=
  ⟨_, rfl, fun ops => wedged_forever ⟨rfl, rfl, rfl, rfl, rfl⟩ rfl ops⟩

end Waiting

end LinuxWorkouts.Log
