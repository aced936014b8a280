import LinuxWorkouts.Lib.Transition
import LinuxWorkouts.Tcp.Client

/-!
The exchange of the server and the client over one connection.

A step is one system call of the server, one round of the client, or an event of the
network, in any order. `Flow` describes the states that such a run reaches by the bytes
that have gone out, those that are still to come and those the client has taken; the
header, two lines with a NUL between them, is what both sides have to agree on.
`GoesOn` is what a step does to it.
-/

namespace LinuxWorkouts.Tcp

open Ascii Transition

/-- What stays the same during an exchange. -/
structure Setup where
  disk : Disk
  srcPath : Bytes
  routineId : Nat

structure State where
  server : Server
  client : Client
  link : Link
deriving DecidableEq, Repr

inductive Op where
  | server (res : Option Nat)
  /-- the client's next round: the length of its read and the shared progress -/
  | client (n : Nat) (totalOffset : Int)
  /-- the server's end of the connection goes away -/
  | disconnect
  | reset
deriving DecidableEq, Repr

def step (setup : Setup) (s : State) : Op → Option State
  | .server res =>
    (s.server.step setup.disk s.link res).map fun r => { s with server := r.1, link := r.2 }
  | .client n totalOffset =>
    (s.client.step setup.routineId setup.srcPath s.link n totalOffset).map fun r =>
      { s with client := r.1, link := r.2 }
  | .disconnect => some { s with link := s.link.close }
  | .reset => some { s with link := s.link.reset }

/-- The connection is made; `destFile` is the destination before the download. -/
def start (destFile : Option Bytes) : State :=
  ⟨.readRequest, ⟨.request, [], [], 0, destFile, []⟩, ⟨[], [], false, none⟩⟩

def request (srcPath : Bytes) : Bytes := ascii "GET:" ++ srcPath ++ [newline]

def File.info (file : File) : FileInfo :=
  ⟨⟨file.bytes, false, false⟩, file.bytes.length, decimal file.bytes.length ++ [newline]⟩

/-! ### The bytes of an exchange -/

/-- What has gone out in front of the file. -/
inductive Header where
  | nothing
  | status
  | complete
deriving DecidableEq, Repr

def Header.bytes (file : File) : Header → Bytes
  | .nothing => []
  | .status => OK_MSG ++ [0]
  | .complete => OK_MSG ++ [0] ++ file.info.fileSizeStr

/-- A server of an open connection: the header it has sent and the part of the file it
has not. -/
def Server.At (file : File) (header : Header) (unsent : Bytes) : Server → Prop
  | .readRequest => header = .nothing ∧ unsent = file.bytes
  | .sendOk info => info = file.info ∧ header = .nothing ∧ unsent = file.bytes
  | .recvResp info => info = file.info ∧ header = .status ∧ unsent = file.bytes
  | .sendSize info => info = file.info ∧ header = .status ∧ unsent = file.bytes
  | .copyLoop f _ => header = .complete ∧ unsent = f.rest ∧ f.error = false ∧ (f.eof → f.rest = [])
  | .sendChunk fileBuf f _ =>
    header = .complete ∧ unsent = fileBuf ++ f.rest ∧ f.error = false ∧ (f.eof → f.rest = []) ∧
      (¬ f.eof → fileBuf.length = PAGESIZE)
  | .sendErr | .closed | .fault => False

def Handshake (srcPath : Bytes) (stage : ClientStage) (up : Bytes) : Server → Prop
  | .readRequest =>
    (stage = .request ∧ up = []) ∨ (stage = .response ∧ up = request srcPath)
  | .sendOk _ => stage = .response ∧ up = []
  | .recvResp _ => (stage = .response ∧ up = []) ∨ (stage = .size ∧ up = ascii "GO\n")
  | _ => stage ≠ .request

def Client.Within (old coming stream : Bytes) (c : Client) : Prop :=
  c.fragments ++ c.buf ++ coming = stream ∧ newline ∉ c.fragments ∧ c.destFile.getD [] = old

/-- The client has taken the front of what has gone out, `coming` is still to come. -/
def Client.Reads (file : File) (old : Bytes) (header : Header) (sent coming : Bytes)
    (ended : Option End) (c : Client) : Prop :=
  match c.stage with
  | .request | .response => c.Within old coming (header.bytes file ++ sent)
  | .size =>
    ∃ stream, header.bytes file ++ sent = OK_MSG ++ stream ∧ c.Within old coming stream
  | .download totalDownload _ =>
    header = .complete ∧ c.fileSize = file.bytes.length ∧
      ∃ got, sent = got ++ c.buf ++ coming ∧ got.length = totalDownload ∧
        c.destFile = some (got ++ old.drop totalDownload)
  | .returned none =>
    ended ≠ none ∧ header = .complete ∧ c.fileSize = file.bytes.length ∧
      c.destFile = some (sent ++ old.drop sent.length)
  | .returned (some _) => ended ≠ none

/-- `sent` is the part of the file that has gone out, `unsent` the part that still can,
and `lost` what a reset has destroyed. -/
structure Flow (setup : Setup) (file : File) (old : Bytes) (s : State) (header : Header)
    (sent unsent lost : Bytes) : Prop where
  front : header ≠ .complete → sent = []
  server : s.link.ended = none →
    s.server.At file header unsent ∧ Handshake setup.srcPath s.client.stage s.link.up s.server ∧
      s.link.upClosed = false
  drained : s.link.ended ≠ none → unsent = []
  kept : s.link.ended ≠ some .reset → lost = []
  client : s.client.Reads file old header sent (s.link.down ++ lost) s.link.ended

/-! ### Conditions on a run -/

/-- The request arrives in one read, and the two lines of the header go out in one
piece or not at all. -/
def HeaderWhole (s : State) (op : Op) : Prop :=
  s.link.ended = none →
    match op, s.server with
    | .server res, .readRequest => res = some s.link.up.length
    | .server res, .sendOk info => res = none ∨ res = some (Server.sendOk info).output.length
    | .server res, .sendSize info => res = none ∨ res = some (Server.sendSize info).output.length
    | _, _ => True

instance decidableHeaderWhole (s : State) (op : Op) : Decidable (HeaderWhole s op) := by
  unfold HeaderWhole
  split <;> infer_instance

/-- The step leaves no byte of the file behind: a chunk goes out as a whole, and the
server's end goes away only when nothing is left. -/
def NoLoss (s : State) (op : Op) : Prop :=
  s.link.ended = none →
    match op, s.server with
    | .server res, .sendChunk fileBuf _ _ => res.getD 0 = fileBuf.length
    | .disconnect, .copyLoop f _ => f.rest = []
    | .disconnect, .sendChunk fileBuf f _ => fileBuf ++ f.rest = []
    | _, _ => True

/-- Every system call does what it is asked for, and nothing happens to the connection. -/
def Smooth (s : State) : Op → Prop
  | .server res =>
    match s.server with
    | .readRequest => res = some s.link.up.length
    | .recvResp _ => res ≠ none
    | .copyLoop _ _ => True
    | srv => res = some srv.output.length
  | .client _ _ => True
  | .disconnect | .reset => False

instance decidableSmooth (s : State) (op : Op) : Decidable (Smooth s op) := by
  unfold Smooth
  split
  · split <;> infer_instance
  · infer_instance
  · infer_instance
  · infer_instance

def Live (s : State) (header : Header) : Prop :=
  s.client.stage = .returned none ∨
    (∀ err, s.client.stage ≠ .returned (some err)) ∧
      (s.link.ended = none ∨ (s.link.ended = some .eof ∧ header = .complete))

/-- What a step does to the two parts of the file. -/
structure Carried (s : State) (op : Op) (header : Header) (sent unsent : Bytes) (s' : State)
    (header' : Header) (sent' unsent' : Bytes) : Prop where
  live : Live s' header' → Live s header
  smooth : Smooth s op → Live s header → Live s' header'
  whole : Live s' header' → NoLoss s op → sent' ++ unsent' = sent ++ unsent
  le : sent'.length + unsent'.length ≤ sent.length + unsent.length
  lt : ¬ NoLoss s op → sent'.length + unsent'.length < sent.length + unsent.length

def GoesOn (setup : Setup) (file : File) (old : Bytes) (s : State) (op : Op) (header : Header)
    (sent unsent : Bytes) (s' : State) : Prop :=
  ∃ header' sent' unsent' lost', Flow setup file old s' header' sent' unsent' lost' ∧
    Carried s op header sent unsent s' header' sent' unsent'

end LinuxWorkouts.Tcp
