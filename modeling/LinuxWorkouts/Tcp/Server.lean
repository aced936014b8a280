import LinuxWorkouts.Tcp.Request

/-!
The file server's side of a transfer (`server.c`, `net.c`, `filesystem.c`).

The two directions of a connection are the byte queues of a `Link`. The thread that
serves the connection stops at its system calls: a `Server` is the call that comes next
with the local variables that are still needed, and `Server.step` carries out the call
with the result that the system gives it. How many bytes a `read` or a `send` handles is
up to the system, within what the call asks for.
-/

namespace LinuxWorkouts.Tcp

open Ascii

def PAGESIZE : Nat := 4096

def BUFSIZE : Nat := 4096 * 2

def PATH_MAX : Nat := 4096

def OK_MSG : Bytes := ascii "OK\n"

def ERR_MSG1 : Bytes := ascii "Can not open file\n"

/-! ### The connection -/

/-- How the server's direction of a connection ended. -/
inductive End where
  | eof
  | reset
deriving DecidableEq, Repr

/-- The bytes under way to the server (`up`) and to the client (`down`). -/
structure Link where
  up : Bytes
  down : Bytes
  upClosed : Bool
  ended : Option End
deriving DecidableEq, Repr

/-- `read` and `recv` of the server: the bytes received. The result 0 means that the
client has closed its direction, and -1 (`none`) leaves the buffer as it is. -/
def Link.recv (l : Link) (cap : Nat) : Option Nat → Option (Bytes × Link)
  | none => some ([], l)
  | some n =>
    if n ≤ cap ∧ n ≤ l.up.length ∧ (n = 0 → l.up = [] ∧ l.upClosed) then
      some (l.up.take n, { l with up := l.up.drop n })
    else none

/-- `send`: a prefix of the data goes out, unless the connection is gone. -/
def Link.send (l : Link) (data : Bytes) : Option Nat → Option Link
  | none => some l
  | some n =>
    if n ≤ data.length then
      some (if l.ended.isNone then { l with down := l.down ++ data.take n } else l)
    else none

def Link.close (l : Link) : Link := { l with ended := l.ended.or (some .eof) }

def Link.reset (l : Link) : Link := { l with down := [], ended := some .reset }

/-! ### Files -/

/-- A file of the server. Its size is an `off_t`. -/
structure File where
  bytes : Bytes
  size_lt : bytes.length < 2 ^ 63

/-- What `fopen` finds. A path that it can open is a C string within the system's limit. -/
structure Disk where
  fopen : Bytes → Option File
  noNul : ∀ {path file}, fopen path = some file → 0 ∉ path
  short : ∀ {path file}, fopen path = some file → path.length < PATH_MAX

/-- A `FILE` that is read: the bytes in front of it and its two indicators. -/
structure Stream where
  rest : Bytes
  eof : Bool
  error : Bool
deriving DecidableEq, Repr

structure FileInfo where
  file : Stream
  fileSize : Nat
  fileSizeStr : Bytes
deriving DecidableEq, Repr

def fread (n : Nat) (f : Stream) : Bytes × Stream :=
  (f.rest.take n, { f with rest := f.rest.drop n, eof := f.eof || decide (f.rest.length < n) })

def openFile (disk : Disk) (path : Bytes) : Option FileInfo :=
  (disk.fopen path).map fun f =>
    { file := ⟨f.bytes, false, false⟩
      fileSize := f.bytes.length
      fileSizeStr := decimal f.bytes.length ++ [newline] }

/-! ### Serving a connection -/

inductive Server where
  | readRequest
  /-- in `send_file`, before the calls of `send` and `recv` -/
  | sendErr
  | sendOk (fileInfo : FileInfo)
  | recvResp (fileInfo : FileInfo)
  | sendSize (fileInfo : FileInfo)
  /-- before the loop's test for the end of the file -/
  | copyLoop (file : Stream) (totalCnt : Nat)
  | sendChunk (fileBuf : Bytes) (file : Stream) (totalCnt : Nat)
  /-- the connection is released -/
  | closed
  /-- an access outside of an object, or through `NULL` -/
  | fault
deriving DecidableEq, Repr

/-- A buffer of zeros that `data` was read into. -/
def inBuffer (size : Nat) (data : Bytes) : Bytes := data ++ List.replicate (size - data.length) 0

/-- `serve_connection` behind the `read`, up to the first `send` of `send_file`. -/
def serveConnection (disk : Disk) (data : Bytes) : Server :=
  let request := inBuffer BUFSIZE data
  -- a request that fills the buffer has no terminator
  if 0 ∉ request then .fault
  else match parseRequest request with
    | none => .fault
    | some args =>
      match getOpType (args.headD []) with
      | .get =>
        match args[1]? with
        | none => .fault
        | some filePath =>
          match openFile disk (cString filePath) with
          | none => .sendErr
          | some fileInfo => .sendOk fileInfo
      -- never the answer; `get_file` is not finished in the source
      | .post => .fault
      | .undefined => .closed

/-- What `send_file` sends next. The two messages go out with their terminator. -/
def Server.output : Server → Bytes
  | .sendErr => ERR_MSG1 ++ [0]
  | .sendOk _ => OK_MSG ++ [0]
  | .sendSize fileInfo => fileInfo.fileSizeStr
  | .sendChunk fileBuf _ _ => fileBuf
  | _ => []

/-- `send` has returned `sendCnt`, or -1. -/
def Server.afterSend (sendCnt : Option Nat) : Server → Server
  -- `error_exit` closes the file that could not be opened
  | .sendErr => .fault
  | .sendOk fileInfo => if sendCnt.isNone then .closed else .recvResp fileInfo
  | .sendSize fileInfo => if sendCnt.isNone then .closed else .copyLoop fileInfo.file 0
  | .sendChunk _ file totalCnt =>
    match sendCnt with
    | none => .closed
    | some n => .copyLoop file (totalCnt + n)
  | s => s

def afterRecv (fileInfo : FileInfo) (data : Bytes) : Server :=
  if strncmpEq (inBuffer PAGESIZE data) (ascii "STOP\n") 4 then .closed else .sendSize fileInfo

/-- One round of the loop, up to its `send`. -/
def copyRound (file : Stream) (totalCnt : Nat) : Server :=
  if file.eof then .closed
  else if file.error then .closed
  else .sendChunk (fread PAGESIZE file).1 (fread PAGESIZE file).2 totalCnt

/-- The thread closes the connection when it is done, and the system does when the process
is gone. -/
def Server.release (s : Server) (l : Link) : Server × Link :=
  match s with
  | .closed | .fault => (s, l.close)
  | _ => (s, l)

/-- The next system call, with its result, and the code up to the one behind it. -/
def Server.step (disk : Disk) (s : Server) (l : Link) (res : Option Nat) :
    Option (Server × Link) :=
  match s with
  | .readRequest => (l.recv BUFSIZE res).map fun r => (serveConnection disk r.1).release r.2
  | .recvResp fileInfo => (l.recv PAGESIZE res).map fun r => (afterRecv fileInfo r.1).release r.2
  | .copyLoop file totalCnt => some ((copyRound file totalCnt).release l)
  | .closed | .fault => none
  | s => (l.send s.output res).map fun l => (s.afterSend res).release l

/-! ### Effects on the connection -/

section Effects

variable {l l' : Link} {srv srv' : Server} {res : Option Nat}

theorem Link.recv_frame {cap : Nat} {r : Bytes × Link} (h : l.recv cap res = some r) :
    r.1 <+: l.up ∧ r.2.down = l.down ∧ r.2.ended = l.ended ∧ r.2.upClosed = l.upClosed := by
  cases res with
  | none =>
    cases h
    exact ⟨List.nil_prefix, rfl, rfl, rfl⟩
  | some n =>
    simp only [Link.recv] at h
    split at h
    · cases h
      exact ⟨List.take_prefix _ _, rfl, rfl, rfl⟩
    · cases h

theorem Link.send_frame {data : Bytes} (h : l.send data res = some l') :
    l'.ended = l.ended ∧ (l.ended ≠ none → l' = l) := by
  cases res with
  | none =>
    cases h
    exact ⟨rfl, fun _ => rfl⟩
  | some n =>
    simp only [Link.send, Option.isNone_iff_eq_none] at h
    split at h
    · cases h
      split
      · next hopen => exact ⟨rfl, fun hended => absurd hopen hended⟩
      · exact ⟨rfl, fun _ => rfl⟩
    · cases h

@[simp]
theorem Server.release_fst : (srv.release l).1 = srv := by
  cases srv <;> rfl

@[simp]
theorem Server.release_down : (srv.release l).2.down = l.down := by
  cases srv <;> rfl

theorem Server.release_ended (hended : l.ended ≠ none) : (srv.release l).2.ended = l.ended := by
  obtain ⟨e, he⟩ := Option.ne_none_iff_exists'.mp hended
  cases srv <;> simp [Server.release, Link.close, he]

theorem Server.step_release {disk : Disk} (hstep : srv.step disk l res = some (srv', l')) :
    ∃ l₁, l' = (srv'.release l₁).2 ∧ l₁.ended = l.ended ∧
      (l.ended ≠ none → l₁.down = l.down) := by
  have hrelease : ∀ {t : Server} {l₁ : Link}, t.release l₁ = (srv', l') →
      l' = (srv'.release l₁).2 := by
    intro t l₁ h
    have ht : (t.release l₁).1 = srv' := congrArg Prod.fst h
    rw [Server.release_fst] at ht
    rw [← ht, h]
  have hrecv : ∀ {cap : Nat} {f : Bytes → Server},
      ((l.recv cap res).map fun r => (f r.1).release r.2) = some (srv', l') →
      ∃ l₁, l' = (srv'.release l₁).2 ∧ l₁.ended = l.ended ∧
        (l.ended ≠ none → l₁.down = l.down) := by
    intro cap f h
    obtain ⟨r, hr, hrel⟩ := Option.map_eq_some_iff.mp h
    obtain ⟨-, hdown, hend, -⟩ := Link.recv_frame hr
    exact ⟨r.2, hrelease hrel, hend, fun _ => hdown⟩
  have hsend : ∀ {t : Server},
      ((l.send srv.output res).map fun l => t.release l) = some (srv', l') →
      ∃ l₁, l' = (srv'.release l₁).2 ∧ l₁.ended = l.ended ∧
        (l.ended ≠ none → l₁.down = l.down) := by
    intro t h
    obtain ⟨l₁, hl₁, hrel⟩ := Option.map_eq_some_iff.mp h
    obtain ⟨hend, hsame⟩ := Link.send_frame hl₁
    exact ⟨l₁, hrelease hrel, hend, fun hended => congrArg Link.down (hsame hended)⟩
  cases srv with
  | readRequest => exact hrecv hstep
  | recvResp fileInfo => exact hrecv hstep
  | copyLoop file totalCnt => exact ⟨l, hrelease (Option.some.inj hstep), rfl, fun _ => rfl⟩
  | closed => cases hstep
  | fault => cases hstep
  | sendErr => exact hsend hstep
  | sendOk fileInfo => exact hsend hstep
  | sendSize fileInfo => exact hsend hstep
  | sendChunk fileBuf file totalCnt => exact hsend hstep

theorem Server.step_ended {disk : Disk} (hended : l.ended ≠ none)
    (hstep : srv.step disk l res = some (srv', l')) : l'.down = l.down ∧ l'.ended = l.ended := by
  obtain ⟨l₁, rfl, hend, hdown⟩ := Server.step_release hstep
  rw [Server.release_down, Server.release_ended (hend ▸ hended)]
  exact ⟨hdown hended, hend⟩

theorem Server.step_closes {disk : Disk} (hopen : l.ended = none)
    (hstep : srv.step disk l res = some (srv', l')) (hended : l'.ended ≠ none) :
    srv' = .closed ∨ srv' = .fault := by
  obtain ⟨l₁, rfl, hend, -⟩ := Server.step_release hstep
  cases srv' with
  | closed => exact .inl rfl
  | fault => exact .inr rfl
  | _ => exact absurd (hend.trans hopen) hended

end Effects

end LinuxWorkouts.Tcp
