import LinuxWorkouts.Lib.Ascii
import LinuxWorkouts.Lib.Goroutines
import LinuxWorkouts.Lib.Transition

/-!
The Kafka consumer of `golang/kafka/consumer/consumer.go`, with the store of
`golang/kafka/db/database.go` that it calls.

`mainLoop` collects button events into a batch and starts a `StoreButtonEventsAsync` for each
batch; the stores report their errors over `errCh` to `errorHandle`. The model has all these
goroutines and the wait of `main`. A turn of the scheduler names the goroutine that moves and takes
it to its next operation on a channel, on the wait group or on the database. What Kafka, the
signal handler and the ticker deliver comes with the turns, and so does what the database answers.

The two packages declare a type `ButtonEvents` each, with the same fields; they are one type here.
-/

namespace LinuxWorkouts.Kafka

open Ascii Goroutines

/-! ### Events -/

structure ButtonEvents where
  buttonId : Int
  buttonName : List UInt8
  clicksCnt : Int
  deriving DecidableEq, Repr

def noEvent : ButtonEvents := ⟨0, [], 0⟩

/-- The record a failed call returns is dropped by the caller and left out. -/
def parseButtonEvents (key value : List UInt8) : Attempt (Except AtoiError ButtonEvents) :=
  match key.splitOn (ofChar ':') with
  | [] => .panics .indexOutOfRange
  | idToken :: rest =>
    match atoi idToken with
    | .error err => .goes (.error err)
    | .ok buttonId =>
      -- `keyStrTokens[1]` is read without a look at the number of tokens.
      match rest with
      | [] => .panics .indexOutOfRange
      | buttonName :: _ =>
        match atoi value with
        | .error err => .goes (.error err)
        | .ok clicksCnt => .goes (.ok ⟨buttonId, buttonName, clicksCnt⟩)

/-! ### The store -/

/-- What the pool and the transaction answer to one call of `StoreButtonEvents`; `none` is the
error `nil`. -/
structure Database where
  acquire : Option String
  scan : ButtonEvents → Option String
  update : ButtonEvents → Option String
  insert : ButtonEvents → Option String

/-- The statement a transaction runs for an event. -/
inductive Statement
  | update (be : ButtonEvents)
  | insert (be : ButtonEvents)
  deriving DecidableEq, Repr

/-- The loop of `StoreButtonEvents`: the statements that succeeded, and the error that made it roll
back. The update is for the events whose `Scan` fails. -/
def storeLoop (db : Database) : List ButtonEvents → List Statement × Option String
  | [] => ([], none)
  | be :: rest =>
    let (statement, err) :=
      if (db.scan be).isSome then (Statement.update be, db.update be)
      else (Statement.insert be, db.insert be)
    match err with
    | some err => ([], some err)
    | none => (statement :: (storeLoop db rest).1, (storeLoop db rest).2)

/-- The statements that are committed, and the error that is returned. -/
def storeButtonEvents (db : Database) (beBatch : List ButtonEvents) :
    List Statement × Option String :=
  match db.acquire with
  | some err => ([], some err)
  | none =>
    match storeLoop db beBatch with
    | (_, some err) => ([], some err)
    | (statements, none) => (statements, none)

/-! ### Goroutines -/

/-- Where a `StoreButtonEventsAsync` stands: in `StoreButtonEvents`, in `errors <- err`, in the
deferred `wg.Done()`, or gone. -/
inductive StorePhase
  | storing
  | sending (err : String)
  | leaving
  | left
  deriving DecidableEq, Repr

structure Store where
  beBatch : List ButtonEvents
  phase : StorePhase
  deriving DecidableEq, Repr

/-- Where `mainLoop` stands. The deferred calls run last to first: the ticker is stopped, `errCh`
is closed, and `wg.Done()` is called. -/
inductive LoopPhase
  | selecting
  | stoppingTicker
  | closingErrCh
  | leaving
  | left
  deriving DecidableEq, Repr

/-- What the `select` of `mainLoop` receives. -/
inductive Received
  | endSignal (value : Bool)
  | endClosed
  | message (key value : List UInt8)
  | messagesClosed
  | tick
  deriving DecidableEq, Repr

/-- The process. -/
structure Consumer where
  batchSize : Nat
  batch : List ButtonEvents
  batchIdx : Nat
  loop : LoopPhase
  /-- The panic that `mainLoop` is unwinding from. -/
  unwinding : Option Panic
  /-- The stores that were started, oldest first. -/
  stores : List Store
  errCh : Chan String
  /-- `errorHandle` has left its loop. -/
  handlerLeft : Bool
  errorsStore : List String
  wg : Nat
  /-- `wg.Wait()` in `main` has returned. -/
  finished : Bool
  panicked : Option Panic
  deriving DecidableEq, Repr

/-- What the scheduler does next. -/
inductive Turn
  | select (received : Received)
  | deferred
  | storeReturns (store : Nat) (db : Database)
  | report (store : Nat)
  | storeLeave (store : Nat)
  | handlerLeave
  | wait

/-! ### The main loop -/

/-- The store gets a clone, `clear` zeroes the batch, and the caller sets `batchIdx` to the 0 that
is returned. -/
def storeBatchAsync (s : Consumer) : Consumer :=
  { s with
    wg := s.wg + 1
    stores := s.stores ++ [⟨s.batch, .storing⟩]
    batch := s.batch.map fun _ => noEvent
    batchIdx := 0 }

def unwind (s : Consumer) (p : Panic) : Consumer :=
  { s with loop := .stoppingTicker, unwinding := some p }

/-- `batch[batchIdx] = be` -/
def putEvent (s : Consumer) (be : ButtonEvents) : Consumer :=
  if s.batchIdx < s.batch.length then { s with batch := s.batch.set s.batchIdx be }
  else unwind s .indexOutOfRange

/-- The end of the case of a message: a message that cannot be parsed is skipped. -/
def takeMessage (s : Consumer) (key value : List UInt8) : Consumer :=
  match parseButtonEvents key value with
  | .goes (.ok be) => putEvent s be
  | .goes (.error _) => s
  | .blocked => s
  | .panics p => unwind s p

/-- One round of the `for` loop. -/
def receive (s : Consumer) : Received → Consumer
  | .endSignal value => if value then { s with loop := .stoppingTicker } else s
  | .endClosed => { s with loop := .stoppingTicker }
  | .message key value =>
    takeMessage (if s.batch.length = s.batchSize then storeBatchAsync s else s) key value
  | .messagesClosed => { s with loop := .stoppingTicker }
  | .tick => storeBatchAsync s

/-- The next deferred call of `mainLoop`. The panic it unwinds from ends the process after the
last one. -/
def deferred (s : Consumer) : Attempt Consumer :=
  match s.loop with
  | .stoppingTicker => .goes { s with loop := .closingErrCh }
  | .closingErrCh => s.errCh.close.map fun c => { s with errCh := c, loop := .leaving }
  | .leaving =>
    (waitGroupDone s.wg).map fun count =>
      { s with wg := count, loop := .left, panicked := s.unwinding }
  | .selecting | .left => .blocked

/-! ### The stores and the error handler -/

def afterStore : Option String → StorePhase
  | some err => .sending err
  | none => .leaving

/-- `StoreButtonEvents` returns in store `i`. -/
def storeReturns (s : Consumer) (i : Nat) (db : Database) : Attempt Consumer :=
  match s.stores[i]? with
  | some ⟨beBatch, .storing⟩ =>
    .goes { s with
      stores := s.stores.set i ⟨beBatch, afterStore (storeButtonEvents db beBatch).2⟩ }
  | _ => .blocked

def report (s : Consumer) (i : Nat) : Attempt Consumer :=
  match s.stores[i]? with
  | some ⟨beBatch, .sending err⟩ =>
    (s.errCh.handOver !s.handlerLeft).map fun _ =>
      { s with
        stores := s.stores.set i ⟨beBatch, .leaving⟩
        errorsStore := s.errorsStore ++ [err] }
  | _ => .blocked

/-- The deferred `wg.Done()` of store `i`. -/
def storeLeave (s : Consumer) (i : Nat) : Attempt Consumer :=
  match s.stores[i]? with
  | some ⟨beBatch, .leaving⟩ =>
    (waitGroupDone s.wg).map fun count =>
      { s with wg := count, stores := s.stores.set i ⟨beBatch, .left⟩ }
  | _ => .blocked

def handlerLeave (s : Consumer) : Attempt Consumer :=
  if s.handlerLeft then .blocked
  else if s.errCh.closed then
    (waitGroupDone s.wg).map fun count => { s with wg := count, handlerLeft := true }
  else .blocked

/-! ### The process -/

/-- The operation of a turn. -/
def takeTurn (s : Consumer) : Turn → Attempt Consumer
  | .select received => if s.loop = .selecting then .goes (receive s received) else .blocked
  | .deferred => deferred s
  | .storeReturns i db => storeReturns s i db
  | .report i => report s i
  | .storeLeave i => storeLeave s i
  | .handlerLeave => handlerLeave s
  | .wait => if s.wg = 0 then .goes { s with finished := true } else .blocked

/-- A turn of a process that still runs. -/
def step (s : Consumer) (turn : Turn) : Option Consumer :=
  if s.panicked.isSome || s.finished then none
  else
    match takeTurn s turn with
    | .goes s' => some s'
    | .blocked => none
    | .panics p => some { s with panicked := some p }

/-- The state when `mainLoop` enters its loop. -/
def start (batchSize : Nat) : Consumer where
  batchSize := batchSize
  batch := List.replicate batchSize noEvent
  batchIdx := 0
  loop := .selecting
  unwinding := none
  stores := []
  errCh := .make 0
  handlerLeft := false
  errorsStore := []
  wg := 2
  finished := false
  panicked := none

/-! ### What a turn does

One lemma for each operation; the proofs about runs use these and do not look at the code again. -/

section Turns

variable {s s' : Consumer} {turn : Turn} {i : Nat}

theorem step_eq_some (h : step s turn = some s') :
    takeTurn s turn = .goes s' ∨
      ∃ p, takeTurn s turn = .panics p ∧ s' = { s with panicked := some p } := by
  unfold step at h
  split at h
  · cases h
  · split at h
    · next heq =>
        cases h
        exact .inl heq
    · cases h
    · next p heq =>
        cases h
        exact .inr ⟨p, heq, rfl⟩

theorem select_eq_goes {r : Received} (h : takeTurn s (.select r) = .goes s') :
    s.loop = .selecting ∧ s' = receive s r := by
  simp only [takeTurn] at h
  split at h
  · next hloop =>
      cases h
      exact ⟨hloop, rfl⟩
  · cases h

theorem parseButtonEvents_panics {key value : List UInt8} {p : Panic}
    (h : parseButtonEvents key value = .panics p) : p = .indexOutOfRange := by
  unfold parseButtonEvents at h
  split at h
  · cases h
    rfl
  · split at h
    · cases h
    · split at h
      · cases h
        rfl
      · split at h <;> cases h

theorem takeMessage_frame (s : Consumer) (key value : List UInt8) :
    (takeMessage s key value).errCh = s.errCh ∧ (takeMessage s key value).panicked = s.panicked ∧
      ((takeMessage s key value).unwinding = s.unwinding ∨
        (takeMessage s key value).unwinding = some .indexOutOfRange) := by
  unfold takeMessage
  split
  · unfold putEvent
    split
    · exact ⟨rfl, rfl, .inl rfl⟩
    · exact ⟨rfl, rfl, .inr rfl⟩
  · exact ⟨rfl, rfl, .inl rfl⟩
  · exact ⟨rfl, rfl, .inl rfl⟩
  · next p hp =>
      cases parseButtonEvents_panics hp
      exact ⟨rfl, rfl, .inr rfl⟩

theorem receive_frame (s : Consumer) (r : Received) :
    (receive s r).errCh = s.errCh ∧ (receive s r).panicked = s.panicked ∧
      ((receive s r).unwinding = s.unwinding ∨
        (receive s r).unwinding = some .indexOutOfRange) := by
  cases r with
  | endSignal value => cases value <;> exact ⟨rfl, rfl, .inl rfl⟩
  | endClosed => exact ⟨rfl, rfl, .inl rfl⟩
  | messagesClosed => exact ⟨rfl, rfl, .inl rfl⟩
  | tick => exact ⟨rfl, rfl, .inl rfl⟩
  | message key value =>
    simp only [receive]
    split
    · exact takeMessage_frame (storeBatchAsync s) key value
    · exact takeMessage_frame s key value

theorem deferred_eq_goes (h : takeTurn s .deferred = .goes s') :
    (s.loop = .stoppingTicker ∧ s' = { s with loop := .closingErrCh }) ∨
      (∃ c, s.loop = .closingErrCh ∧ c = s.errCh.asClosed ∧
        s' = { s with errCh := c, loop := .leaving }) ∨
      ∃ count, s.loop = .leaving ∧ s.wg = count + 1 ∧
        s' = { s with wg := count, loop := .left, panicked := s.unwinding } := by
  simp only [takeTurn, deferred] at h
  split at h
  · next hloop =>
      cases h
      exact .inl ⟨hloop, rfl⟩
  · next hloop =>
      obtain ⟨c, hc, rfl⟩ := Attempt.map_eq_goes.mp h
      exact .inr (.inl ⟨c, hloop, (Chan.close_eq_goes.mp hc).2, rfl⟩)
  · next hloop =>
      obtain ⟨count, hc, rfl⟩ := Attempt.map_eq_goes.mp h
      exact .inr (.inr ⟨count, hloop, waitGroupDone_eq_goes.mp hc, rfl⟩)
  · cases h
  · cases h

theorem storeReturns_eq_goes {db : Database} (h : takeTurn s (.storeReturns i db) = .goes s') :
    ∃ beBatch, s.stores[i]? = some ⟨beBatch, .storing⟩ ∧
      s' = { s with
        stores := s.stores.set i ⟨beBatch, afterStore (storeButtonEvents db beBatch).2⟩ } := by
  simp only [takeTurn, storeReturns] at h
  split at h
  · next beBatch hi =>
      cases h
      exact ⟨beBatch, hi, rfl⟩
  · cases h

theorem report_eq_goes (h : takeTurn s (.report i) = .goes s') :
    ∃ beBatch err, s.stores[i]? = some ⟨beBatch, .sending err⟩ ∧ s.errCh.closed = false ∧
      s' = { s with
        stores := s.stores.set i ⟨beBatch, .leaving⟩
        errorsStore := s.errorsStore ++ [err] } := by
  simp only [takeTurn, report] at h
  split at h
  · next beBatch err hi =>
      obtain ⟨u, hu, rfl⟩ := Attempt.map_eq_goes.mp h
      exact ⟨beBatch, err, hi, (Chan.handOver_eq_goes.mp hu).1, rfl⟩
  · cases h

theorem storeLeave_eq_goes (h : takeTurn s (.storeLeave i) = .goes s') :
    ∃ beBatch count, s.stores[i]? = some ⟨beBatch, .leaving⟩ ∧ s.wg = count + 1 ∧
      s' = { s with wg := count, stores := s.stores.set i ⟨beBatch, .left⟩ } := by
  simp only [takeTurn, storeLeave] at h
  split at h
  · next beBatch hi =>
      obtain ⟨count, hc, rfl⟩ := Attempt.map_eq_goes.mp h
      exact ⟨beBatch, count, hi, waitGroupDone_eq_goes.mp hc, rfl⟩
  · cases h

theorem handlerLeave_eq_goes (h : takeTurn s .handlerLeave = .goes s') :
    ∃ count, s.errCh.closed = true ∧ s.wg = count + 1 ∧
      s' = { s with wg := count, handlerLeft := true } := by
  simp only [takeTurn, handlerLeave] at h
  split at h
  · cases h
  · split at h
    · next hclosed =>
        obtain ⟨count, hc, rfl⟩ := Attempt.map_eq_goes.mp h
        exact ⟨count, hclosed, waitGroupDone_eq_goes.mp hc, rfl⟩
    · cases h

theorem wait_eq_goes (h : takeTurn s .wait = .goes s') :
    s.wg = 0 ∧ s' = { s with finished := true } := by
  simp only [takeTurn] at h
  split at h
  · next hwg =>
      cases h
      exact ⟨hwg, rfl⟩
  · cases h

theorem takeTurn_sendOnClosed (h : takeTurn s turn = .panics .sendOnClosed) :
    ∃ i beBatch err, turn = .report i ∧ s.stores[i]? = some ⟨beBatch, .sending err⟩ ∧
      s.errCh.closed = true := by
  cases turn with
  | select r =>
    simp only [takeTurn] at h
    split at h <;> cases h
  | deferred =>
    simp only [takeTurn, deferred] at h
    split at h
    · cases h
    · cases (Chan.close_eq_panics.mp (Attempt.map_eq_panics.mp h)).2
    · cases (waitGroupDone_eq_panics.mp (Attempt.map_eq_panics.mp h)).2
    · cases h
    · cases h
  | storeReturns i db =>
    simp only [takeTurn, storeReturns] at h
    split at h <;> cases h
  | report i =>
    simp only [takeTurn, report] at h
    split at h
    · next beBatch err hi =>
        exact ⟨i, beBatch, err, rfl, hi,
          (Chan.handOver_eq_panics.mp (Attempt.map_eq_panics.mp h)).1⟩
    · cases h
  | storeLeave i =>
    simp only [takeTurn, storeLeave] at h
    split at h
    · cases (waitGroupDone_eq_panics.mp (Attempt.map_eq_panics.mp h)).2
    · cases h
  | handlerLeave =>
    simp only [takeTurn, handlerLeave] at h
    split at h
    · cases h
    · split at h
      · cases (waitGroupDone_eq_panics.mp (Attempt.map_eq_panics.mp h)).2
      · cases h
  | wait =>
    simp only [takeTurn] at h
    split at h <;> cases h

end Turns

end LinuxWorkouts.Kafka
