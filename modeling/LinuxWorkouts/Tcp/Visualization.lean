import LinuxWorkouts.Tcp.Client
import LinuxWorkouts.Lib.Goroutines
import LinuxWorkouts.Lib.Transition

/-!
The progress display of the client (`visualization.go`, and `startRoutins` of `client.go`).

`startRoutins` starts the display and one `GetFile` for each path, waits for the downloads and
closes their channel. The display receives until every routine has sent its end message. A
`Download` is what the channel sees of a call of `GetFile`: some progress messages, and the end
message if the call succeeds (`returned_shown`). What the display prints is left out; the variables
behind `TotalOffset` are kept.
-/

namespace LinuxWorkouts.Tcp.Visualization

open Ascii Goroutines Transition Function

/-! ### Messages -/

/-- What goes over the channel. `totalOffset` points to the variable of a routine; nil is
`none`. -/
structure Message (n : Nat) where
  args : VisualizationArgs
  totalOffset : Option (Fin n)
deriving DecidableEq, Repr

def Message.zero {n : Nat} : Message n := ⟨⟨0, 0, false⟩, none⟩

/-- A call of `GetFile`, as the channel sees it: the `CurrentOffset` of the progress messages, that
of the end message, and whether the call succeeds. -/
structure Download where
  progress : List Nat
  last : Nat
  succeeds : Bool
deriving DecidableEq, Repr

def Download.shown (d : Download) (routineId : Nat) : List VisualizationArgs :=
  d.progress.map (fun offset => ⟨routineId, offset, false⟩) ++
    if d.succeeds then [⟨routineId, d.last, true⟩] else []

def Download.messages {n : Nat} (d : Download) (i : Fin n) : List (Message n) :=
  (d.shown i).map fun args => ⟨args, some i⟩

/-! ### The goroutines -/

inductive Failure where
  | nilDereference
  | goroutine (p : Panic)
deriving DecidableEq, Repr

inductive Routine (n : Nat) where
  | idle
  | running (toSend : List (Message n))
  /-- after `wg.Done` -/
  | finished
deriving DecidableEq, Repr

/-- The place in `startRoutins`. -/
inductive Main where
  | starting (routineId : Nat)
  | waiting
  | closed
  | returned
deriving DecidableEq, Repr

structure State (n : Nat) where
  main : Main
  wg : Nat
  visualizationChannel : Chan (Message n)
  routines : Fin n → Routine n
  routinesStatus : Fin n → Bool
  totalOffset : Fin n → Nat
  failure : Option Failure

/-- `strings.Split(srcPathes, ":")`. -/
def pathTokens (srcPathes : Bytes) : List Bytes := srcPathes.splitOn (ofChar ':')

/-- `startRoutins` before its loop. -/
def start (n : Nat) : State n where
  main := .starting 0
  wg := 0
  visualizationChannel := .make 0
  routines := fun _ => .idle
  routinesStatus := fun _ => false
  totalOffset := fun _ => 0
  failure := none

def State.fail {n : Nat} (s : State n) (failure : Failure) : State n :=
  { s with failure := some failure }

section Model

variable {n : Nat}

def allRoutineDone (routinesStatus : Fin n → Bool) : Bool :=
  (List.finRange n).all routinesStatus

/-- The text before the bar of a routine, in UTF-8. -/
def tempalte (routineId : Nat) : Bytes :=
  ascii "File " ++ [0xE2, 0x84, 0x96] ++ decimal routineId ++ ascii " "

def downloadVisualizationInternalNew (currentOffset totalOffset routineId : Nat) : Nat :=
  let offset := currentOffset + totalOffset
  let tempLen := if offset = 1 then (tempalte routineId).length else 0
  totalOffset + (currentOffset + tempLen)

/-- The body of the loop of `DownloadVisualization`, once a message has been received. -/
def State.received (s : State n) (m : Message n) : State n :=
  if m.args.endFlag = false then
    match m.totalOffset with
    | none => s.fail .nilDereference
    | some v =>
      { s with
        totalOffset := update s.totalOffset v
          (downloadVisualizationInternalNew m.args.currentOffset (s.totalOffset v)
            m.args.routineId) }
  else if h : m.args.routineId < n then
    { s with routinesStatus := update s.routinesStatus ⟨m.args.routineId, h⟩ true }
  else s.fail (.goroutine .indexOutOfRange)

def State.send (s : State n) (i : Fin n) : Option (State n) :=
  match s.routines i with
  | .running (m :: rest) =>
    match s.visualizationChannel.handOver (!allRoutineDone s.routinesStatus) with
    | .goes _ =>
      some (State.received
        { s with routines := update s.routines i (.running rest) } m)
    | .blocked => none
    | .panics p => some (s.fail (.goroutine p))
  | _ => none

/-- `GetFile` returns, with its deferred `wg.Done`. -/
def State.done (s : State n) (i : Fin n) : Option (State n) :=
  match s.routines i with
  | .running [] =>
    match waitGroupDone s.wg with
    | .goes wg =>
      some { s with wg := wg, routines := update s.routines i .finished }
    | .blocked => none
    | .panics p => some (s.fail (.goroutine p))
  | _ => none

def State.receiveClosed (s : State n) : Option (State n) :=
  if allRoutineDone s.routinesStatus then none
  else
    match s.visualizationChannel.receive with
    | .goes (m, channel) =>
      some (State.received { s with visualizationChannel := channel } (m.getD .zero))
    | _ => none

/-- One step of `startRoutins`. `get` is the test of `opType`; nothing is started for another
one. -/
def State.mainStep (get : Bool) (downloads : Fin n → Download) (s : State n) : Option (State n) :=
  match s.main with
  | .starting routineId =>
    if h : routineId < n then
      if get then
        some { s with
          main := .starting (routineId + 1)
          wg := s.wg + 1
          routines := update s.routines ⟨routineId, h⟩
            (.running ((downloads ⟨routineId, h⟩).messages ⟨routineId, h⟩)) }
      else some { s with main := .starting (routineId + 1) }
    else some { s with main := .waiting }
  | .waiting =>
    if s.wg = 0 then
      match s.visualizationChannel.close with
      | .goes channel => some { s with main := .closed, visualizationChannel := channel }
      | .blocked => none
      | .panics p => some (s.fail (.goroutine p))
    else none
  | .closed => some { s with main := .returned }
  | .returned => none

inductive Event (n : Nat) where
  | main
  | send (i : Fin n)
  | done (i : Fin n)
  | receiveClosed
deriving DecidableEq, Repr

/-- A panic or the end of `main` ends the program. -/
def step (get : Bool) (downloads : Fin n → Download) (s : State n) (e : Event n) :
    Option (State n) :=
  if s.failure = none ∧ s.main ≠ .returned then
    match e with
    | .main => s.mainStep get downloads
    | .send i => s.send i
    | .done i => s.done i
    | .receiveClosed => s.receiveClosed
  else none

def Survives (get : Bool) (downloads : Fin n → Download) : Prop :=
  ∀ events, Always (step get downloads) (fun s => s.failure ≠ some .nilDereference) (start n) events

end Model

/-! ### What a download sends -/

section Messages

variable {n : Nat} {d : Download} {i : Fin n}

theorem Download.of_mem_messages {m : Message n} (h : m ∈ d.messages i) :
    m.args.routineId = i ∧ m.totalOffset = some i := by
  obtain ⟨args, hargs, rfl⟩ := List.mem_map.mp h
  refine ⟨?_, rfl⟩
  rcases List.mem_append.mp hargs with hargs | hargs
  · obtain ⟨offset, _, rfl⟩ := List.mem_map.mp hargs
    rfl
  · split at hargs
    · rw [List.mem_singleton.mp hargs]
    · exact absurd hargs List.not_mem_nil

theorem Download.endFlag_iff (d : Download) (i : Fin n) :
    (∃ m ∈ d.messages i, m.args.endFlag = true) ↔ d.succeeds = true := by
  constructor
  · rintro ⟨m, hm, hend⟩
    by_contra hfails
    obtain ⟨args, hargs, rfl⟩ := List.mem_map.mp hm
    rw [Download.shown, if_neg hfails, List.append_nil] at hargs
    obtain ⟨offset, _, rfl⟩ := List.mem_map.mp hargs
    cases hend
  · intro hsucceeds
    refine ⟨⟨⟨i, d.last, true⟩, some i⟩, List.mem_map.mpr ⟨_, ?_, rfl⟩, rfl⟩
    rw [Download.shown, if_pos hsucceeds]
    exact List.mem_append_right _ List.mem_cons_self

end Messages

/-! ### The calls of `GetFile` -/

variable {progress : List Nat} {visualization : VisualizationArgs}

section Calls

variable {routineId : Nat} {srcPath : Bytes} {c c' : Client} {l l' : Link}

def ShownOk (routineId : Nat) (c : Client) : Prop :=
  match c.stage with
  | .returned err => ∃ d : Download, d.succeeds = err.isNone ∧ c.shown = d.shown routineId
  | .download _ visualization =>
    visualization.routineId = routineId ∧ visualization.endFlag = false ∧
      ∃ progress, c.shown = Download.shown ⟨progress, 0, false⟩ routineId
  | _ => c.shown = Download.shown ⟨[], 0, false⟩ routineId

theorem readString_frame {n : Nat} {r : LineResult} (h : c.readString l n = some (r, c', l')) :
    c'.stage = c.stage ∧ c'.shown = c.shown := by
  rcases Client.readString_cases h with
    ⟨_, _, rfl, _⟩ | ⟨_, ⟨_, _, rfl, _⟩ | ⟨_, _, _, rfl, _⟩ | ⟨_, _, rfl, _⟩⟩
  all_goals exact ⟨rfl, rfl⟩

theorem readData_frame {n : Nat} {r : ReadResult} (h : c.readData l n = some (r, c', l')) :
    c'.stage = c.stage ∧ c'.shown = c.shown := by
  unfold Client.readData at h
  split at h
  · obtain ⟨_, _, heq⟩ := Option.map_eq_some_iff.mp h
    cases heq
    exact ⟨rfl, rfl⟩
  · cases h
    exact ⟨rfl, rfl⟩

theorem ShownOk.failed (hshown : c.shown = Download.shown ⟨progress, 0, false⟩ routineId)
    (err : ClientError) :
    ShownOk routineId { c with stage := .returned (some err) } :=
  ⟨⟨progress, 0, false⟩, rfl, hshown⟩

theorem ShownOk.onData (hid : visualization.routineId = routineId)
    (hend : visualization.endFlag = false)
    (hshown : c.shown = Download.shown ⟨progress, 0, false⟩ routineId) (totalDownload : Nat)
    (totalOffset : Int) (bytes : Bytes) :
    ShownOk routineId (c.onData totalDownload visualization totalOffset bytes) := by
  by_cases hdraw : totalOffset * c.fileSize.tdiv 50 ≤ (totalDownload + bytes.length : Nat)
  · rw [Client.onData, if_pos hdraw]
    refine ⟨hid, hend, progress ++ [1], ?_⟩
    simp [hshown, Download.shown, hid, hend]
  · rw [Client.onData, if_neg hdraw]
    exact ⟨hid, hend, progress, hshown⟩

theorem ShownOk.onEnd (hid : visualization.routineId = routineId)
    (hshown : c.shown = Download.shown ⟨progress, 0, false⟩ routineId) (l : Link) :
    ShownOk routineId (c.onEnd visualization l).1 := by
  have hcheck : ∀ size : Int, sizeCheck size c.fileSize = none := by
    intro size
    unfold sizeCheck
    split <;> rfl
  refine ⟨⟨progress, visualization.currentOffset, true⟩, ?_, ?_⟩
  · dsimp only
    rw [hcheck]
    rfl
  · simp [Client.onEnd, Client.exit, hshown, Download.shown, hid]

theorem ShownOk.download {n totalDownload : Nat} {totalOffset : Int} (h : ShownOk routineId c)
    (hstage : c.stage = .download totalDownload visualization)
    (hstep : c.step routineId srcPath l n totalOffset = some (c', l')) : ShownOk routineId c' := by
  simp only [ShownOk, hstage] at h
  obtain ⟨hid, hend, progress, hshown⟩ := h
  simp only [Client.step, hstage] at hstep
  obtain ⟨⟨r, c₁, l₁⟩, hread, heq⟩ := Option.map_eq_some_iff.mp hstep
  obtain ⟨_, hshown₁⟩ := readData_frame hread
  rw [← hshown₁] at hshown
  cases r with
  | data bytes =>
    cases heq
    exact .onData hid hend hshown totalDownload totalOffset bytes
  | eof =>
    cases heq
    exact .onEnd hid hshown l₁
  | error =>
    cases heq
    exact .failed hshown .connection

theorem ShownOk.step {n : Nat} {totalOffset : Int} (h : ShownOk routineId c)
    (hstep : c.step routineId srcPath l n totalOffset = some (c', l')) : ShownOk routineId c' := by
  cases hstage : c.stage with
  | request =>
    simp only [ShownOk, hstage] at h
    simp only [Client.step, hstage, Option.some.injEq, Prod.mk.injEq] at hstep
    obtain ⟨rfl, _⟩ := hstep
    exact h
  | response =>
    simp only [ShownOk, hstage] at h
    simp only [Client.step, hstage] at hstep
    obtain ⟨⟨r, c₁, l₁⟩, hread, heq⟩ := Option.map_eq_some_iff.mp hstep
    obtain ⟨hstage₁, hshown₁⟩ := readString_frame hread
    rw [← hshown₁] at h
    cases r with
    | line response =>
      dsimp only [Client.onResponse] at heq
      split at heq
      · cases heq
        exact .failed h .errCode
      · cases heq
        exact h
    | pending =>
      cases heq
      simpa only [ShownOk, hstage₁, hstage] using h
    | failed err =>
      cases heq
      exact .failed h err
  | size =>
    simp only [ShownOk, hstage] at h
    simp only [Client.step, hstage] at hstep
    obtain ⟨⟨r, c₁, l₁⟩, hread, heq⟩ := Option.map_eq_some_iff.mp hstep
    obtain ⟨hstage₁, hshown₁⟩ := readString_frame hread
    rw [← hshown₁] at h
    cases r with
    | line fileSizeStr =>
      cases heq
      exact ⟨rfl, rfl, [], h⟩
    | pending =>
      cases heq
      simpa only [ShownOk, hstage₁, hstage] using h
    | failed err =>
      cases heq
      exact .failed h err
  | download totalDownload visualization => exact h.download hstage hstep
  | returned err =>
    simp only [Client.step, hstage] at hstep
    cases hstep

/-- **`GetFile` as a download.** Whatever the connection does, a call that has returned has sent the
messages of a `Download` that succeeds exactly if the call returned no error. The input of a round
is the connection, the number of bytes read and the value behind `TotalOffset`. -/
theorem returned_shown (destFile : Option Bytes) (rounds : List (Link × Nat × Int))
    {err : Option ClientError}
    (hrun : run (fun c round => (c.step routineId srcPath round.1 round.2.1 round.2.2).map Prod.fst)
      ⟨.request, [], [], 0, destFile, []⟩ rounds = some c) (hreturned : c.stage = .returned err) :
    ∃ d : Download, d.succeeds = err.isNone ∧ c.shown = d.shown routineId := by
  have hok : ShownOk routineId c := by
    refine (always_of_step rounds (fun c round c' h hstep => ?_) ?_).run hrun
    · obtain ⟨_, hround, rfl⟩ := Option.map_eq_some_iff.mp hstep
      exact h.step hround
    · rfl
  simpa only [ShownOk, hreturned] using hok

/-- The rounds of a call that gets a file of five bytes: the response, the line with the size, the
data and the end. -/
def fiveBytes : List (Link × Nat × Int) :=
  let link (down : Bytes) : Link := ⟨[], down, false, some .eof⟩
  [(link [], 0, 0), (link (ascii "OK\n"), 3, 0), (link [], 0, 0), (link (0 :: ascii "5\n"), 3, 0),
    (link [], 0, 0), (link (ascii "hello"), 5, 0), (link [], 0, 0)]

/-- The call returns without an error, and has sent a progress message and the end message. -/
theorem returned_shown_fiveBytes :
    ∃ c, run (fun (c : Client) round =>
          (c.step 3 [97] round.1 round.2.1 round.2.2).map Prod.fst)
        ⟨.request, [], [], 0, none, []⟩ fiveBytes = some c ∧
      c.shown = [⟨3, 1, false⟩, ⟨3, 1, true⟩] ∧
      ∃ d : Download, d.succeeds = true ∧ c.shown = d.shown 3 := by
  have hrun : run (fun (c : Client) round =>
        (c.step 3 [97] round.1 round.2.1 round.2.2).map Prod.fst)
      ⟨.request, [], [], 0, none, []⟩ fiveBytes =
      some ⟨.returned none, [], [], 5, some (ascii "hello"), [⟨3, 1, false⟩, ⟨3, 1, true⟩]⟩ := by
    decide +kernel
  exact ⟨_, hrun, rfl, returned_shown none fiveBytes hrun rfl⟩

end Calls

end LinuxWorkouts.Tcp.Visualization
