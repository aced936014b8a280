import LinuxWorkouts.Tcp.Server

/-!
The client's side of a transfer (`network.go`).

`GetFile` reads through a `bufio.Reader`: lines with `ReadString`, the file with `Read`.
A `Client` holds the reader's buffer and the place in `GetFile` and `downloadFile`;
`Client.step` is one round of the loop the client is in, with at most one read from the
connection. The destination is the file at the path that `MakeDestFilePath` returned,
`none` while there is none.
-/

namespace LinuxWorkouts.Tcp

open Ascii

def readerSize : Nat := 4096

structure VisualizationArgs where
  routineId : Nat
  currentOffset : Nat
  endFlag : Bool
deriving DecidableEq, Repr

inductive ClientError where
  | eof
  | connection
  | errCode
deriving DecidableEq, Repr

inductive ClientStage where
  /-- before the request is written -/
  | request
  /-- in `ReadString`, for the response and for the size -/
  | response
  | size
  /-- in the loop of `downloadFile` -/
  | download (totalDownload : Nat) (visualization : VisualizationArgs)
  | returned (err : Option ClientError)
deriving DecidableEq, Repr

/-- `buf` is the unread part of the reader's buffer; `fragments` are the full buffers
that `ReadString` has already put aside. -/
structure Client where
  stage : ClientStage
  buf : Bytes
  fragments : Bytes
  fileSize : Int
  destFile : Option Bytes
  shown : List VisualizationArgs
deriving DecidableEq, Repr

/-! ### The connection, from the client -/

inductive ReadResult where
  | data (bytes : Bytes)
  | eof
  | error
deriving DecidableEq, Repr

/-- `conn.Read`: some of the bytes that have arrived, at least one; it blocks (`none`) while
there are none and the connection is open. -/
def Link.read (l : Link) (cap n : Nat) : Option (ReadResult × Link) :=
  if l.down = [] then
    match l.ended with
    | none => none
    | some .eof => some (.eof, l)
    | some .reset => some (.error, l)
  else if 0 < n ∧ n ≤ cap ∧ n ≤ l.down.length then
    some (.data (l.down.take n), { l with down := l.down.drop n })
  else none

def Link.write (l : Link) (data : Bytes) : Link := { l with up := l.up ++ data }

/-! ### The reader -/

inductive LineResult where
  | line (bytes : Bytes)
  | pending
  | failed (err : ClientError)
deriving DecidableEq, Repr

/-- One round of `ReadString('\n')`: search the buffer, put it aside when it is full, or
read more. -/
def Client.readString (c : Client) (l : Link) (n : Nat) : Option (LineResult × Client × Link) :=
  if newline ∈ c.buf then
    some (.line (c.fragments ++ (splitLine c.buf).1),
      { c with buf := (splitLine c.buf).2, fragments := [] }, l)
  else if readerSize ≤ c.buf.length then
    some (.pending, { c with buf := [], fragments := c.fragments ++ c.buf }, l)
  else
    (l.read (readerSize - c.buf.length) n).map fun r =>
      match r.1 with
      | .data bytes => (.pending, { c with buf := c.buf ++ bytes }, r.2)
      | .eof => (.failed .eof, c, r.2)
      | .error => (.failed .connection, c, r.2)

/-- `reader.Read(recvData)`: from the buffer, or directly from the connection when the
buffer is empty. -/
def Client.readData (c : Client) (l : Link) (n : Nat) : Option (ReadResult × Client × Link) :=
  if c.buf = [] then (l.read readerSize n).map fun r => (r.1, c, r.2)
  else some (.data (c.buf.take readerSize), { c with buf := c.buf.drop readerSize }, l)

/-! ### `downloadFile` and `GetFile` -/

def writeAt (file : Bytes) (offset : Nat) (data : Bytes) : Bytes :=
  file.take offset ++ data ++ file.drop (offset + data.length)

/-- `GetFile` returns: the connection is closed. -/
def Client.exit (c : Client) (err : Option ClientError) (l : Link) : Client × Link :=
  ({ c with stage := .returned err }, { l with upClosed := true })

/-- The response has arrived. -/
def Client.onResponse (c : Client) (response : Bytes) (l : Link) : Client × Link :=
  if response ≠ ascii "OK\n" then c.exit (some .errCode) (l.write (ascii "STOP\n"))
  else ({ c with stage := .size }, l.write (ascii "GO\n"))

/-- The line with the size has arrived. Its first byte is the terminator of the response. The
destination is opened without being truncated. -/
def Client.onSize (routineId : Nat) (c : Client) (fileSizeStr : Bytes) : Client :=
  { c with
    stage := .download 0 ⟨routineId, 0, false⟩
    fileSize := parseInt (trimSpace fileSizeStr.tail)
    destFile := some (c.destFile.getD []) }

/-- One round of the loop with data. The position in the file is the number of bytes written.
`totalOffset` is what the routine that draws the progress has left in the shared
variable. -/
def Client.onData (c : Client) (totalDownload : Nat) (visualization : VisualizationArgs)
    (totalOffset : Int) (bytes : Bytes) : Client :=
  let total := totalDownload + bytes.length
  let destFile := c.destFile.map fun file => writeAt file totalDownload bytes
  if totalOffset * c.fileSize.tdiv 50 ≤ total then
    let visualization := { visualization with currentOffset := 1 }
    { c with
      stage := .download total visualization
      destFile := destFile
      shown := c.shown ++ [visualization] }
  else { c with stage := .download total visualization, destFile := destFile }

/-- What `GetFile` returns for the size of the downloaded file. The body of its test is
empty. -/
def sizeCheck (downloadedFileSize fileSize : Int) : Option ClientError :=
  if downloadedFileSize ≠ fileSize then none else none

/-- The stream has ended. -/
def Client.onEnd (c : Client) (visualization : VisualizationArgs) (l : Link) : Client × Link :=
  let c := { c with shown := c.shown ++ [{ visualization with endFlag := true }] }
  c.exit (sizeCheck (c.destFile.getD []).length c.fileSize) l

def Client.step (routineId : Nat) (srcPath : Bytes) (c : Client) (l : Link) (n : Nat)
    (totalOffset : Int) : Option (Client × Link) :=
  match c.stage with
  | .request =>
    some ({ c with stage := .response }, l.write (ascii "GET:" ++ srcPath ++ [newline]))
  | .response =>
    (c.readString l n).map fun r =>
      match r.1 with
      | .line response => r.2.1.onResponse response r.2.2
      | .pending => r.2
      | .failed err => r.2.1.exit (some err) r.2.2
  | .size =>
    (c.readString l n).map fun r =>
      match r.1 with
      | .line fileSizeStr => (r.2.1.onSize routineId fileSizeStr, r.2.2)
      | .pending => r.2
      | .failed err => r.2.1.exit (some err) r.2.2
  | .download totalDownload visualization =>
    (c.readData l n).map fun r =>
      match r.1 with
      | .data bytes => (r.2.1.onData totalDownload visualization totalOffset bytes, r.2.2)
      | .eof => r.2.1.onEnd visualization r.2.2
      | .error => r.2.1.exit (some .connection) r.2.2
  | .returned _ => none

/-! ### What a read can do -/

section Reads

variable {c c' : Client} {l l' : Link} {n : Nat}

theorem Link.read_cases {cap : Nat} {r : ReadResult} (h : l.read cap n = some (r, l')) :
    (∃ bytes, r = .data bytes ∧ bytes ≠ [] ∧ l = { l' with down := bytes ++ l'.down }) ∨
      (r = .eof ∧ l' = l ∧ l.down = [] ∧ l.ended = some .eof) ∨
      (r = .error ∧ l' = l ∧ l.down = [] ∧ l.ended = some .reset) := by
  unfold Link.read at h
  split at h
  · next hdown =>
    split at h
    · cases h
    · next hended =>
      cases h
      exact .inr (.inl ⟨rfl, rfl, hdown, hended⟩)
    · next hended =>
      cases h
      exact .inr (.inr ⟨rfl, rfl, hdown, hended⟩)
  · next hdown =>
    split at h
    · next hn =>
      cases h
      refine .inl ⟨_, rfl, ?_, ?_⟩
      · intro hnil
        rcases List.take_eq_nil_iff.mp hnil with h0 | h0
        · omega
        · exact hdown h0
      · dsimp only
        rw [List.take_append_drop]
    · cases h

theorem Client.readString_cases {r : LineResult} (h : c.readString l n = some (r, c', l')) :
    (newline ∈ c.buf ∧ r = .line (c.fragments ++ (splitLine c.buf).1) ∧
        c' = { c with buf := (splitLine c.buf).2, fragments := [] } ∧ l' = l) ∨
      newline ∉ c.buf ∧
        ((readerSize ≤ c.buf.length ∧ r = .pending ∧
            c' = { c with buf := [], fragments := c.fragments ++ c.buf } ∧ l' = l) ∨
          (∃ bytes, bytes ≠ [] ∧ r = .pending ∧ c' = { c with buf := c.buf ++ bytes } ∧
            l = { l' with down := bytes ++ l'.down }) ∨
          ∃ err, r = .failed err ∧ c' = c ∧ l' = l ∧ l.down = [] ∧ l.ended ≠ none) := by
  unfold Client.readString at h
  split at h
  · next hbuf =>
    cases h
    exact .inl ⟨hbuf, rfl, rfl, rfl⟩
  · next hbuf =>
    refine .inr ⟨hbuf, ?_⟩
    split at h
    · next hfull =>
      cases h
      exact .inl ⟨hfull, rfl, rfl, rfl⟩
    · obtain ⟨⟨q, l₁⟩, hq, hres⟩ := Option.map_eq_some_iff.mp h
      rcases Link.read_cases hq with
        ⟨bytes, rfl, hne, hl⟩ | ⟨rfl, rfl, hdown, hended⟩ | ⟨rfl, rfl, hdown, hended⟩
      · cases hres
        exact .inr (.inl ⟨bytes, hne, rfl, rfl, hl⟩)
      · cases hres
        exact .inr (.inr ⟨.eof, rfl, rfl, rfl, hdown, by simp [hended]⟩)
      · cases hres
        exact .inr (.inr ⟨.connection, rfl, rfl, rfl, hdown, by simp [hended]⟩)

end Reads

end LinuxWorkouts.Tcp
