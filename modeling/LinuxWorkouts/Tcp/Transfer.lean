import LinuxWorkouts.Tcp.ClientFlow

/-!
A transfer on a smooth connection.

When every call of the server does what it is asked for and nothing happens to the
connection, an exchange comes to an end, however the bytes are cut into reads and however
the two sides take turns, and the client then holds the file. `rank` bounds the steps that
are left (`Flow.rank_server`, `Client.step_effect`), `Flow.canStep` says that somebody can
always make one, and `transfer_exact` puts both together with the flow of the bytes.
-/

namespace LinuxWorkouts.Tcp

open Ascii Transition Function List Option

def Delivered (file : File) (s : State) : Prop :=
  s.client.stage = .returned none ∧ s.client.fileSize = file.bytes.length ∧
    s.client.destFile = some file.bytes

/-! ### The steps that are left -/

def Server.weight (file : File) : Server → Nat
  | .readRequest => 10 + 3 * (OK_MSG ++ [0]).length + 3 * file.info.fileSizeStr.length +
      4 * file.bytes.length
  | .sendOk info => 9 + 3 * (OK_MSG ++ [0]).length + 3 * info.fileSizeStr.length +
      4 * info.file.rest.length
  | .recvResp info => 8 + 3 * info.fileSizeStr.length + 4 * info.file.rest.length
  | .sendSize info => 7 + 3 * info.fileSizeStr.length + 4 * info.file.rest.length
  | .copyLoop f _ => (if f.eof then 3 else 5) + 4 * f.rest.length
  | .sendChunk fileBuf f _ => (if f.eof then 4 else 6) + 3 * fileBuf.length + 4 * f.rest.length
  | .sendErr | .closed | .fault => 0

def ClientStage.weight : ClientStage → Nat
  | .request => 2
  | .response | .size | .download _ _ => 1
  | .returned _ => 0

def rank (file : File) (s : State) : Nat :=
  s.server.weight file + 2 * s.link.down.length + s.client.buf.length + s.client.stage.weight

section Smooth

variable {s : State} {op : Op}

theorem Smooth.headerWhole (h : Smooth s op) : HeaderWhole s op := by
  intro _
  cases op with
  | server res =>
    cases hsrv : s.server with
    | readRequest | sendOk | sendSize =>
      simp only [Smooth, hsrv] at h
      simp [h]
    | _ => trivial
  | _ => trivial

theorem Smooth.noLoss (h : Smooth s op) : NoLoss s op := by
  intro _
  cases op with
  | server res =>
    cases hsrv : s.server with
    | sendChunk fileBuf f totalCnt =>
      simp only [Smooth, hsrv] at h
      rw [h]
      rfl
    | _ => trivial
  | client n totalOffset => trivial
  | disconnect => exact h.elim
  | reset => exact h.elim

end Smooth

section Rank

variable {setup : Setup} {file : File} {old sent unsent lost : Bytes} {header : Header}
  {s s' : State} {c c' : Client} {l l' : Link}

theorem splitLine_snd_lt {buf : Bytes} (h : newline ∈ buf) :
    (splitLine buf).2.length < buf.length := by
  obtain ⟨line, rest, rfl, hline⟩ := eq_append_cons_of_mem h
  rw [splitLine_append hline]
  simp
  omega

theorem Client.readString_effect {n : Nat} {r : LineResult}
    (h : c.readString l n = some (r, c', l')) :
    l'.ended = l.ended ∧ c'.stage = c.stage ∧
      match r with
      | .failed _ => l' = l ∧ c'.buf = c.buf
      | _ => 2 * l'.down.length + c'.buf.length < 2 * l.down.length + c.buf.length := by
  rcases Client.readString_cases h with ⟨hbuf, rfl, rfl, rfl⟩ | ⟨-, ⟨hfull, rfl, rfl, rfl⟩ |
    ⟨bytes, hne, rfl, rfl, rfl⟩ | ⟨err, rfl, rfl, rfl, -⟩⟩
  · exact ⟨rfl, rfl, Nat.add_lt_add_left (splitLine_snd_lt hbuf) _⟩
  · refine ⟨rfl, rfl, ?_⟩
    unfold readerSize at hfull
    simp only [length_nil]
    omega
  · have := length_pos_iff.mpr hne
    refine ⟨rfl, rfl, ?_⟩
    simp only [length_append]
    omega
  · exact ⟨rfl, rfl, rfl, rfl⟩

theorem Client.readData_effect {n : Nat} {r : ReadResult} (h : c.readData l n = some (r, c', l')) :
    l'.ended = l.ended ∧
      match r with
      | .data _ => 2 * l'.down.length + c'.buf.length < 2 * l.down.length + c.buf.length
      | _ => l' = l ∧ c'.buf = c.buf := by
  unfold Client.readData at h
  split at h
  · obtain ⟨⟨q, l₁⟩, hq, hres⟩ := map_eq_some_iff.mp h
    cases hres
    rcases Link.read_cases hq with ⟨bytes, rfl, hne, rfl⟩ | ⟨rfl, rfl, -⟩ | ⟨rfl, rfl, -⟩
    · have := length_pos_iff.mpr hne
      refine ⟨rfl, ?_⟩
      simp only [length_append]
      omega
    · exact ⟨rfl, rfl, rfl⟩
    · exact ⟨rfl, rfl, rfl⟩
  · next hbuf =>
    cases h
    have := length_pos_iff.mpr hbuf
    refine ⟨rfl, ?_⟩
    simp only [length_drop]
    unfold readerSize
    omega

theorem Client.step_effect {routineId n : Nat} {srcPath : Bytes} {totalOffset : Int}
    (h : c.step routineId srcPath l n totalOffset = some (c', l')) :
    l'.ended = l.ended ∧
      2 * l'.down.length + c'.buf.length + c'.stage.weight <
        2 * l.down.length + c.buf.length + c.stage.weight := by
  cases hstage : c.stage with
  | request =>
    simp only [Client.step, hstage, Option.some.injEq] at h
    cases h
    simp [Link.write, ClientStage.weight]
  | response =>
    simp only [Client.step, hstage, map_eq_some_iff] at h
    obtain ⟨⟨r, c₁, l₁⟩, hr, hres⟩ := h
    obtain ⟨hend, hst, heffect⟩ := Client.readString_effect hr
    cases r with
    | line bytes =>
      dsimp only [Client.onResponse] at hres
      split at hres
      · cases hres
        exact ⟨hend, Nat.add_lt_add_of_lt_of_le heffect (Nat.zero_le _)⟩
      · cases hres
        exact ⟨hend, Nat.add_lt_add_right heffect _⟩
    | pending =>
      cases hres
      rw [hst, hstage]
      exact ⟨hend, Nat.add_lt_add_right heffect _⟩
    | failed err =>
      cases hres
      obtain ⟨rfl, hbuf⟩ := heffect
      exact ⟨hend, hbuf ▸ Nat.lt_succ_self _⟩
  | size =>
    simp only [Client.step, hstage, map_eq_some_iff] at h
    obtain ⟨⟨r, c₁, l₁⟩, hr, hres⟩ := h
    obtain ⟨hend, hst, heffect⟩ := Client.readString_effect hr
    cases r with
    | line bytes =>
      cases hres
      exact ⟨hend, Nat.add_lt_add_right heffect _⟩
    | pending =>
      cases hres
      rw [hst, hstage]
      exact ⟨hend, Nat.add_lt_add_right heffect _⟩
    | failed err =>
      cases hres
      obtain ⟨rfl, hbuf⟩ := heffect
      exact ⟨hend, hbuf ▸ Nat.lt_succ_self _⟩
  | download total v =>
    simp only [Client.step, hstage, map_eq_some_iff] at h
    obtain ⟨⟨r, c₁, l₁⟩, hr, hres⟩ := h
    obtain ⟨hend, heffect⟩ := Client.readData_effect hr
    cases r with
    | data bytes =>
      cases hres
      obtain ⟨⟨v', hst⟩, hbuf, -⟩ := Client.onData_spec c₁ total v totalOffset bytes
      rw [hst, hbuf]
      exact ⟨hend, Nat.add_lt_add_right heffect _⟩
    | eof | error =>
      cases hres
      obtain ⟨rfl, hbuf⟩ := heffect
      exact ⟨hend, hbuf ▸ Nat.lt_succ_self _⟩
  | returned err => simp [Client.step, hstage] at h

theorem copyRound_weight (file : File) (f : Stream) (totalCnt : Nat) :
    (copyRound f totalCnt).weight file < (Server.copyLoop f totalCnt).weight file := by
  unfold copyRound
  split
  · simp only [Server.weight]
    split <;> omega
  · next heof =>
    split
    · simp only [Server.weight]
      split <;> omega
    · simp only [Server.weight, fread, heof, Bool.false_or, decide_eq_true_eq, length_take,
        length_drop, Bool.false_eq_true, if_false]
      unfold PAGESIZE
      split <;> omega

theorem Flow.rank_server {res : Option Nat} (hf : Flow setup file old s header sent unsent lost)
    (hfile : setup.disk.fopen setup.srcPath = some file) (hcolon : colon ∉ setup.srcPath)
    (hopen : s.link.ended = none) (hsmooth : Smooth s (.server res))
    (hstep : step setup s (.server res) = some s') : rank file s' < rank file s := by
  obtain ⟨srv, c, l⟩ := s
  obtain ⟨hat, hhand, hup⟩ := hf.server hopen
  cases srv with
  | readRequest =>
    obtain rfl : res = some l.up.length := hsmooth
    obtain ⟨-, rfl⟩ := readRequest_eq hfile hcolon hhand hup hstep
    simp only [rank, Server.weight, File.info]
    omega
  | sendOk info =>
    obtain rfl : res = some (Server.sendOk info).output.length := hsmooth
    obtain ⟨-, _, rfl, rfl⟩ := step_send rfl hopen hstep
    simp only [rank, Server.afterSend, isNone_some, Server.release,
      Server.weight, Server.output, length_take, length_append, Bool.false_eq_true,
      if_false]
    omega
  | recvResp info =>
    simp only [step, Server.step, Option.map_map, map_eq_some_iff] at hstep
    obtain ⟨r, hr, rfl⟩ := hstep
    obtain ⟨-, hdown, -⟩ := Link.recv_frame hr
    simp only [rank, comp_apply, Server.release_fst, Server.release_down, hdown]
    have hweight : (afterRecv info r.1).weight file < (Server.recvResp info).weight file := by
      unfold afterRecv
      split
      · simp only [Server.weight]
        omega
      · simp only [Server.weight]
        omega
    omega
  | sendSize info =>
    obtain rfl : res = some (Server.sendSize info).output.length := hsmooth
    obtain ⟨-, _, rfl, rfl⟩ := step_send rfl hopen hstep
    simp only [rank, Server.afterSend, isNone_some, Server.release,
      Server.weight, Server.output, length_take, length_append, Bool.false_eq_true,
      if_false]
    split <;> omega
  | copyLoop f totalCnt =>
    simp only [step, Server.step, map_some, Option.some.injEq] at hstep
    subst hstep
    simp only [rank, Server.release_fst, Server.release_down]
    have hweight := copyRound_weight file f totalCnt
    omega
  | sendChunk fileBuf f totalCnt =>
    obtain rfl : res = some fileBuf.length := hsmooth
    obtain ⟨-, _, rfl, rfl⟩ := step_send rfl hopen hstep
    simp only [rank, Server.afterSend, Server.release, Server.weight,
      Server.output, length_take, length_append]
    split <;> omega
  | sendErr | closed | fault => cases hat

end Rank

/-! ### Somebody can always make a step -/

section Progress

variable {setup : Setup} {file : File} {old sent unsent lost : Bytes} {header : Header}
  {s s' : State} {srv srv' : Server} {c c' : Client} {l l' : Link} {res : Option Nat}

def CanStep (setup : Setup) (s : State) : Prop := ∃ op, Smooth s op ∧ (step setup s op).isSome

theorem Link.read_isSome {cap : Nat} (hcap : 0 < cap) (h : l.down ≠ [] ∨ l.ended ≠ none) :
    (l.read cap 1).isSome := by
  unfold Link.read
  split
  · next hdown =>
    rcases h with h | h
    · exact absurd hdown h
    · split
      · next hnone => exact absurd hnone h
      · rfl
      · rfl
  · next hdown =>
    have := length_pos_iff.mpr hdown
    rw [if_pos ⟨Nat.one_pos, by omega, by omega⟩]
    rfl

theorem Client.readString_isSome (h : newline ∈ c.buf ∨ l.down ≠ [] ∨ l.ended ≠ none) :
    (c.readString l 1).isSome := by
  unfold Client.readString
  split
  · rfl
  · next hbuf =>
    split
    · rfl
    · next hfull =>
      rw [isSome_map]
      exact Link.read_isSome (by omega) (h.resolve_left hbuf)

theorem Client.readData_isSome (h : l.down ≠ [] ∨ l.ended ≠ none) : (c.readData l 1).isSome := by
  unfold Client.readData
  split
  · rw [isSome_map]
    exact Link.read_isSome (by decide) h
  · rfl

theorem canStep_client (hret : ∀ err, c.stage ≠ .returned err)
    (h : (newline ∈ c.buf ∧ c.stage = .response) ∨ l.down ≠ [] ∨ l.ended ≠ none) :
    CanStep setup ⟨srv, c, l⟩ := by
  refine ⟨.client 1 0, trivial, ?_⟩
  simp only [step, isSome_map]
  cases hstage : c.stage with
  | request => simp [Client.step, hstage]
  | response =>
    simp only [Client.step, hstage, isSome_map]
    exact Client.readString_isSome (h.imp_left And.left)
  | size =>
    simp only [Client.step, hstage, isSome_map]
    refine Client.readString_isSome (.inr (h.resolve_left fun hnl => ?_))
    rw [hstage] at hnl
    cases hnl.2
  | download total v =>
    simp only [Client.step, hstage, isSome_map]
    refine Client.readData_isSome (h.resolve_left fun hnl => ?_)
    rw [hstage] at hnl
    cases hnl.2
  | returned err => exact absurd hstage (hret err)

theorem Link.send_isSome (data : Bytes) : (l.send data (some data.length)).isSome := by
  simp [Link.send]

theorem Flow.canStep (hf : Flow setup file old s header sent unsent lost) (hlive : Live s header)
    (hfile : setup.disk.fopen setup.srcPath = some file) :
    s.client.stage = .returned none ∨ CanStep setup s := by
  obtain ⟨srv, c, l⟩ := s
  rcases hlive with hdone | ⟨herr, -⟩
  · exact .inl hdone
  by_cases hdone : c.stage = .returned none
  · exact .inl hdone
  have hret : ∀ err, c.stage ≠ .returned err := by
    intro err
    cases err with
    | none => exact hdone
    | some err => exact herr err
  right
  by_cases hready : l.down ≠ [] ∨ l.ended ≠ none
  · exact canStep_client hret (.inr hready)
  obtain ⟨hdown, hopen⟩ : l.down = [] ∧ l.ended = none := by
    simpa only [not_or, ne_eq, not_not] using hready
  obtain ⟨hat, hhand, hup⟩ := hf.server hopen
  -- the client waits, so the server has to go on
  cases srv with
  | readRequest =>
    rcases hhand with ⟨hstage, -⟩ | ⟨-, hrequest⟩
    · refine ⟨.client 1 0, trivial, ?_⟩
      dsimp only at hstage
      simp [step, Client.step, hstage]
    · refine ⟨.server (some l.up.length), rfl, ?_⟩
      have hlen := request_length (setup.disk.short hfile)
      have hpos : (request setup.srcPath).length ≠ 0 := by simp [request]
      dsimp only at hrequest
      simp [step, Server.step, Link.recv, hrequest, Nat.le_of_lt hlen, hpos]
  | sendOk info =>
    refine ⟨.server (some (Server.sendOk info).output.length), rfl, ?_⟩
    simp only [step, Server.step, isSome_map]
    exact Link.send_isSome _
  | recvResp info =>
    dsimp only at hhand
    rcases hhand with ⟨hstage, -⟩ | ⟨-, hgo⟩
    · -- the response has arrived
      refine canStep_client hret (.inl ⟨?_, hstage⟩)
      obtain ⟨-, rfl, -⟩ := hat
      have hreads := hf.client
      simp only [Client.Reads, hstage, hdown, hf.kept (by simp [hopen]), append_nil,
        Header.bytes, hf.front (by decide)] at hreads
      have hmem : newline ∈ c.fragments ++ c.buf ++ [] := by
        rw [hreads.1]
        decide
      rw [append_nil] at hmem
      exact (mem_append.mp hmem).resolve_left hreads.2.1
    · refine ⟨.server (some l.up.length), some_ne_none _, ?_⟩
      simp [step, Server.step, Link.recv, hgo, PAGESIZE, ascii]
  | sendSize info =>
    refine ⟨.server (some (Server.sendSize info).output.length), rfl, ?_⟩
    simp only [step, Server.step, isSome_map]
    exact Link.send_isSome _
  | copyLoop f totalCnt => exact ⟨.server none, trivial, rfl⟩
  | sendChunk fileBuf f totalCnt =>
    refine ⟨.server (some fileBuf.length), rfl, ?_⟩
    simp only [step, Server.step, isSome_map]
    exact Link.send_isSome _
  | sendErr | closed | fault => cases hat

end Progress

/-! ### The transfer -/

section Transfer

variable {setup : Setup} {file : File} {s s' : State}

def Smoothly (setup : Setup) (file : File) (s : State) : Prop :=
  (∃ header sent unsent lost, Flow setup file [] s header sent unsent lost ∧ Live s header ∧
      sent ++ unsent = file.bytes) ∧
    (s.link.ended ≠ none → s.server = .closed ∨ s.server = .fault)

theorem Smoothly.next {op : Op} (h : Smoothly setup file s)
    (hfile : setup.disk.fopen setup.srcPath = some file) (hcolon : colon ∉ setup.srcPath)
    (hsmooth : Smooth s op) (hstep : step setup s op = some s') :
    Smoothly setup file s' ∧ rank file s' < rank file s := by
  obtain ⟨⟨header, sent, unsent, lost, hf, hlive, hexact⟩, hquiet⟩ := h
  obtain ⟨header', sent', unsent', lost', hf', hcarried⟩ :=
    hf.next hfile hcolon hsmooth.headerWhole hstep
  have hlive' := hcarried.smooth hsmooth hlive
  have hexact' := (hcarried.whole hlive' hsmooth.noLoss).trans hexact
  have hnext : ∃ header sent unsent lost, Flow setup file [] s' header sent unsent lost ∧
      Live s' header ∧ sent ++ unsent = file.bytes :=
    ⟨header', sent', unsent', lost', hf', hlive', hexact'⟩
  cases op with
  | server res =>
    have hopen : s.link.ended = none := by
      by_contra hended
      rcases hquiet hended with h | h
      · simp [step, Server.step, h] at hstep
      · simp [step, Server.step, h] at hstep
    refine ⟨⟨hnext, ?_⟩, hf.rank_server hfile hcolon hopen hsmooth hstep⟩
    obtain ⟨⟨srv', l'⟩, hr, rfl⟩ := map_eq_some_iff.mp hstep
    exact Server.step_closes hopen hr
  | client n totalOffset =>
    obtain ⟨⟨c', l'⟩, hr, rfl⟩ := map_eq_some_iff.mp hstep
    obtain ⟨hend, hweight⟩ := Client.step_effect hr
    refine ⟨⟨hnext, fun h => hquiet (hend ▸ h)⟩, ?_⟩
    simp only [rank]
    omega
  | disconnect => exact hsmooth.elim
  | reset => exact hsmooth.elim

/-- **A file arrives as it is.** Whatever the file holds, every smooth exchange for it comes
to an end, and at its end the client has returned without an error, has found the size of
the file in the header and has written the bytes of the file to the new destination. -/
theorem transfer_exact (setup : Setup) (file : File)
    (hfile : setup.disk.fopen setup.srcPath = some file) (hcolon : colon ∉ setup.srcPath) :
    Ends (step setup) Smooth (Delivered file) (start none) := by
  have hstart : Flow setup file [] (start none) .nothing [] file.bytes [] := Flow.start none
  have h0 : Smoothly setup file (start none) :=
    ⟨⟨.nothing, [], file.bytes, [], hstart, hstart.live_of_open rfl, rfl⟩, fun h => absurd rfl h⟩
  refine ends_of_rank (fun s op s' h hs hstep => h.next hfile hcolon hs hstep) ?_ h0
  rintro s ⟨⟨header, sent, unsent, lost, hf, hlive, hexact⟩, -⟩ hstuck
  rcases hf.canStep hlive hfile with hdone | ⟨op, hsmooth, hsome⟩
  · have hreads := hf.client
    simp only [Client.Reads, hdone] at hreads
    obtain ⟨hended, -, hsize, hdest⟩ := hreads
    rw [hf.drained hended, append_nil] at hexact
    refine ⟨hdone, hsize, ?_⟩
    rw [hdest, hexact, drop_nil, append_nil]
  · rw [hstuck op hsmooth] at hsome
    cases hsome

end Transfer

def oneFile (path : Bytes) (file : File) (hnul : 0 ∉ path) (hshort : path.length < PATH_MAX) :
    Disk where
  fopen p := if p = path then some file else none
  noNul h := by
    split at h
    · next heq => exact heq ▸ hnul
    · cases h
  short h := by
    split at h
    · next heq => exact heq ▸ hshort
    · cases h

def trickyFile : File := ⟨ascii "\n\x007\n", by decide⟩

def trickySetup : Setup :=
  ⟨oneFile (ascii "a/b") trickyFile (by decide) (by decide), ascii "a/b", 0⟩

theorem trickySetup_fopen : trickySetup.disk.fopen trickySetup.srcPath = some trickyFile := by
  simp [trickySetup, oneFile]

/-- The response arrives byte by byte, the rest of the stream in one piece. -/
def trickyRun : List Op :=
  [.client 0 0, .server (some 8), .server (some 4), .client 1 0, .client 1 0, .client 1 0,
    .client 1 0, .server (some 3), .server (some 2), .server none, .server (some 4), .server none,
    .client 7 0, .client 0 0, .client 0 0, .client 0 0]

theorem transfer_exact_tricky :
    trickySetup.disk.fopen trickySetup.srcPath = some trickyFile ∧
      Ends (step trickySetup) Smooth (Delivered trickyFile) (start none) ∧
      Along (step trickySetup) Smooth (start none) trickyRun ∧
      (run (step trickySetup) (start none) trickyRun).map (fun s => s.client) =
        some ⟨.returned none, [], [], 4, some trickyFile.bytes, [⟨0, 1, false⟩, ⟨0, 1, true⟩]⟩ :=
  ⟨trickySetup_fopen, transfer_exact trickySetup trickyFile trickySetup_fopen (by decide),
    by decide +kernel, by decide +kernel⟩

end LinuxWorkouts.Tcp
