import LinuxWorkouts.Lib.Goroutines
import LinuxWorkouts.Lib.Transition

/-!
The URL checker of `golang/fanIn-fanOut/validator.go`.

`main` fans a list of URLs out to a pool of workers over three input channels, one per priority,
and merges their answers from three output channels into one. The model has every goroutine of a
run: the feeder, the workers (`checkUrl`), the requests they start (`getRespAsync`), the closer
that waits for the pool, the three readers and the finisher of `merge`, and `main` itself, which
prints. All of them exist from the start; one that is spawned later is one that is not scheduled
earlier.

A turn of the scheduler names the goroutine and what it picks. It takes the goroutine to its next
channel operation, wait group operation or sleep, so each turn touches shared state once. Random
numbers, sleeping times and the moment the deadline fires come with the turns, which makes every
timing a run. A panic ends the process, and so does the end of `main`.
-/

namespace LinuxWorkouts.UrlChecker

open Goroutines Function

/-! ### Data -/

structure Url where
  name : String
  priority : UInt8
  deriving DecidableEq, Repr

/-- Times are in nanoseconds. -/
structure Response where
  code : String
  url : Url
  timestamp : Nat
  duration : Nat
  deriving DecidableEq, Repr

/-- `High`, `Middle` and `Low`: the indices of the channels and of the lists in `merge`. -/
def priorities : List (Fin 3) := [0, 1, 2]

def laneOf (url : Url) : Option (Fin 3) :=
  if h : url.priority.toNat < 3 then some ⟨url.priority.toNat, h⟩ else none

/-! ### Goroutines -/

/-- A `getRespAsync`: asleep, or blocked in `chOut <- resp`. It is gone once that is received. -/
inductive Request
  | sleeping (url : Url)
  | sending (resp : Response)
  deriving DecidableEq, Repr

/-- Where a worker stands in the loop of `checkUrl`. -/
inductive Phase
  | receiving
  | selecting (url : Url)
  | answering (resp : Response)
  | left
  deriving DecidableEq, Repr

/-- A `checkUrl` with the requests that were started for its `respChan`. -/
structure Worker where
  phase : Phase
  requests : List Request
  deriving DecidableEq, Repr

/-- The goroutine that sends the URLs and closes the input channels. -/
inductive Feeder
  | sending (urls : List Url)
  | closing (lanes : List (Fin 3))
  | left
  deriving DecidableEq, Repr

/-- The goroutine that waits for the pool and closes the output channels. -/
inductive Closer
  | waiting
  | closing (lanes : List (Fin 3))
  | left
  deriving DecidableEq, Repr

/-- The last goroutine of `merge`. -/
inductive Finisher
  | waiting
  | filling (responses : List Response)
  | left
  deriving DecidableEq, Repr

/-- The process with a pool of `W` workers. -/
structure Checker (W : Nat) where
  feeder : Feeder
  chansInput : Fin 3 → Chan Url
  workers : Fin W → Worker
  chansOutput : Fin 3 → Chan Response
  /-- The wait group of `requestWorkerPool`. -/
  poolWait : Nat
  closer : Closer
  /-- `ctx.Done()` is closed: the timeout has passed or the context was cancelled. -/
  ctxDone : Bool
  deadline : Nat
  /-- The readers of `merge` that have left their loop. -/
  readerLeft : Fin 3 → Bool
  responses : Fin 3 → List Response
  /-- The wait group of `merge`. -/
  mergeWait : Nat
  finisher : Finisher
  /-- The channel `responses` of `main`. -/
  out : Chan Response
  printed : List Response
  /-- `printResult` has returned. -/
  finished : Bool
  panicked : Option Panic

/-- What the scheduler does next. -/
inductive Turn (W : Nat)
  | feed
  | receive (w : Fin W)
  | wake (w : Fin W) (request : Nat) (randInt : Fin 4) (randTime : Fin 1000) (now : Nat)
  | timeout (w : Fin W)
  | accept (w : Fin W) (request : Nat)
  | answer (w : Fin W)
  | expire
  | closePool
  | readerLeave (lane : Fin 3)
  | finish
  | print

variable {W : Nat}

def lane (w : Fin W) : Fin 3 := ⟨w.val % 3, Nat.mod_lt _ (by decide)⟩

/-! ### The feeder -/

def feed (s : Checker W) : Attempt (Checker W) :=
  match s.feeder with
  | .sending (url :: urls) =>
    match laneOf url with
    | none => .panics .indexOutOfRange
    | some k =>
      ((s.chansInput k).send url).map fun c =>
        { s with chansInput := update s.chansInput k c, feeder := .sending urls }
  | .sending [] => .goes { s with feeder := .closing priorities }
  | .closing (k :: lanes) =>
    (s.chansInput k).close.map fun c =>
      { s with chansInput := update s.chansInput k c, feeder := .closing lanes }
  | .closing [] =>
    (waitGroupDone s.poolWait).map fun count => { s with poolWait := count, feeder := .left }
  | .left => .blocked

/-! ### The workers -/

/-- The head of the loop of `checkUrl`. A URL starts a request; a closed channel ends the loop and
the deferred `wg.Done()` runs. -/
def receiveUrl (s : Checker W) (w : Fin W) : Attempt (Checker W) :=
  match (s.workers w).phase with
  | .receiving =>
    (s.chansInput (lane w)).receive.bind fun
      | (some url, c) =>
        .goes { s with
          chansInput := update s.chansInput (lane w) c
          workers := update s.workers w
            ⟨.selecting url, (s.workers w).requests ++ [.sleeping url]⟩ }
      | (none, _) =>
        (waitGroupDone s.poolWait).map fun count =>
          { s with
            workers := update s.workers w ⟨.left, (s.workers w).requests⟩
            poolWait := count }
  | _ => .blocked

/-- The codes `getRespAsync` answers with. -/
def respCode : Fin 4 → String
  | 0 => "200 OK                   "
  | 1 => "301 Moved Permanently    "
  | 2 => "404 Not Found            "
  | 3 => "400 Bad Request          "

/-- The end of the sleep of a `getRespAsync`. -/
def getRespAsync (s : Checker W) (w : Fin W) (request : Nat) (randInt : Fin 4)
    (randTime : Fin 1000) (now : Nat) : Attempt (Checker W) :=
  match (s.workers w).requests[request]? with
  | some (.sleeping url) =>
    .goes { s with
      workers := update s.workers w
        ⟨(s.workers w).phase, (s.workers w).requests.set request
          (.sending ⟨respCode randInt, url, now, randTime.val * 1000000⟩)⟩ }
  | _ => .blocked

def selectDone (s : Checker W) (w : Fin W) : Attempt (Checker W) :=
  match (s.workers w).phase with
  | .selecting url =>
    if s.ctxDone then
      .goes { s with
        workers := update s.workers w
          ⟨.answering ⟨"500 Internal Server Error", url, s.deadline, 0⟩, (s.workers w).requests⟩ }
    else .blocked
  | _ => .blocked

/-- The `select` of `checkUrl` takes the case `resp = <-respChan`, from any request that is
sending: all requests of a worker share its `respChan`. -/
def selectResp (s : Checker W) (w : Fin W) (request : Nat) : Attempt (Checker W) :=
  match (s.workers w).phase, (s.workers w).requests[request]? with
  | .selecting _, some (.sending resp) =>
    .goes { s with
      workers := update s.workers w
        ⟨.answering resp, (s.workers w).requests.eraseIdx request⟩ }
  | _, _ => .blocked

/-- `chOut <- resp`, received by the reader of `merge` for that channel, which appends it. -/
def sendAnswer (s : Checker W) (w : Fin W) : Attempt (Checker W) :=
  match (s.workers w).phase with
  | .answering resp =>
    ((s.chansOutput (lane w)).handOver (!s.readerLeft (lane w))).map fun _ =>
      { s with
        workers := update s.workers w ⟨.receiving, (s.workers w).requests⟩
        responses := update s.responses (lane w) (s.responses (lane w) ++ [resp]) }
  | _ => .blocked

/-! ### Closing and merging -/

def closePool (s : Checker W) : Attempt (Checker W) :=
  match s.closer with
  | .waiting => if s.poolWait = 0 then .goes { s with closer := .closing priorities } else .blocked
  | .closing (k :: lanes) =>
    (s.chansOutput k).close.map fun c =>
      { s with chansOutput := update s.chansOutput k c, closer := .closing lanes }
  | .closing [] => .goes { s with ctxDone := true, closer := .left }
  | .left => .blocked

def readerLeave (s : Checker W) (k : Fin 3) : Attempt (Checker W) :=
  if s.readerLeft k then .blocked
  else if (s.chansOutput k).closed then
    (waitGroupDone s.mergeWait).map fun count =>
      { s with mergeWait := count, readerLeft := update s.readerLeft k true }
  else .blocked

def merged (s : Checker W) : List Response := s.responses 0 ++ s.responses 1 ++ s.responses 2

/-- The last goroutine of `merge`: `fillOutputChannel` and `close(out)`. Without a buffer the
channel hands a response to `printResult` directly. -/
def fillOutputChannel (s : Checker W) : Attempt (Checker W) :=
  match s.finisher with
  | .waiting =>
    if s.mergeWait = 0 then .goes { s with finisher := .filling (merged s) } else .blocked
  | .filling (resp :: rest) =>
    if s.out.capacity = 0 then
      (s.out.handOver !s.finished).map fun _ =>
        { s with printed := s.printed ++ [resp], finisher := .filling rest }
    else
      (s.out.send resp).map fun c => { s with out := c, finisher := .filling rest }
  | .filling [] => s.out.close.map fun c => { s with out := c, finisher := .left }
  | .left => .blocked

/-- The loop of `printResult`. -/
def printResult (s : Checker W) : Attempt (Checker W) :=
  s.out.receive.bind fun
    | (some resp, c) => .goes { s with out := c, printed := s.printed ++ [resp] }
    | (none, _) => .goes { s with finished := true }

/-! ### The process -/

/-- The operation of a turn. -/
def takeTurn (s : Checker W) : Turn W → Attempt (Checker W)
  | .feed => feed s
  | .receive w => receiveUrl s w
  | .wake w request randInt randTime now => getRespAsync s w request randInt randTime now
  | .timeout w => selectDone s w
  | .accept w request => selectResp s w request
  | .answer w => sendAnswer s w
  | .expire => .goes { s with ctxDone := true }
  | .closePool => closePool s
  | .readerLeave k => readerLeave s k
  | .finish => fillOutputChannel s
  | .print => printResult s

/-- A turn of a process that still runs. -/
def step (s : Checker W) (turn : Turn W) : Option (Checker W) :=
  if s.panicked.isSome || s.finished then none
  else
    match takeTurn s turn with
    | .goes s' => some s'
    | .blocked => none
    | .panics p => some { s with panicked := some p }

def poolSize (workersCnt : Int) : Nat := if workersCnt < 3 then 3 else workersCnt.toNat

/-- `main` when `printResult` begins: `requestWorkerPool` and `merge` have been called. -/
def start (urls : List Url) (workersCnt : Int) (deadline : Nat) :
    Checker (poolSize workersCnt) where
  feeder := .sending urls
  chansInput := fun _ => .make (poolSize workersCnt)
  workers := fun _ => ⟨.receiving, []⟩
  chansOutput := fun _ => .make 0
  poolWait := poolSize workersCnt + 1
  closer := .waiting
  ctxDone := false
  deadline := deadline
  readerLeft := fun _ => false
  responses := fun _ => []
  mergeWait := 3
  finisher := .waiting
  out := .make urls.length
  printed := []
  finished := false
  panicked := none

end LinuxWorkouts.UrlChecker
