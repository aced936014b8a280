import LinuxWorkouts.Tcp.Exchange

/-!
The server's steps keep the flow of an exchange.

One lemma for each call of the server on an open connection: `Flow.readRequest`,
`Flow.sendOk`, `Flow.recvResp`, `Flow.sendSize`, `Flow.copyLoop` and `Flow.sendChunk`.
What goes out is appended to what the client still has to read; once the connection has
ended the client sees nothing of the server any more (`Flow.serverEnded`).
-/

namespace LinuxWorkouts.Tcp

open Ascii Transition List Option

section Server

variable {disk : Disk} {srcPath : Bytes} {file : File}

theorem request_length (h : srcPath.length < PATH_MAX) : (request srcPath).length < BUFSIZE := by
  have : (request srcPath).length = 4 + srcPath.length + 1 := by
    simp [request, ascii]
    omega
  unfold PATH_MAX BUFSIZE at *
  omega

theorem serveConnection_request (hopen : disk.fopen srcPath = some file)
    (hcolon : colon ∉ srcPath) : serveConnection disk (request srcPath) = .sendOk file.info := by
  have hlt := request_length (disk.short hopen)
  have hbuf : inBuffer BUFSIZE (request srcPath) =
      ascii "GET:" ++ srcPath ++ [newline] ++
        0 :: replicate (BUFSIZE - (request srcPath).length - 1) 0 := by
    rw [inBuffer, ← replicate_succ, Nat.sub_add_cancel (by omega), request]
  have hparse : parseRequest (ascii "GET:" ++ srcPath ++ [newline] ++
        0 :: replicate (BUFSIZE - (request srcPath).length - 1) 0) =
      some [ascii "GET" ++ [0], srcPath ++ [0, 0]] :=
    parseRequest_get hcolon (disk.noNul hopen)
  have hpath : cString (srcPath ++ [0, 0]) = srcPath := cString_append (disk.noNul hopen)
  simp only [serveConnection, hbuf, hparse]
  rw [if_neg (by simp)]
  simp only [headD_cons, show getOpType (ascii "GET" ++ [0]) = .get from by decide,
    getElem?_cons_succ, getElem?_cons_zero, hpath, openFile, hopen, map_some]
  rfl

end Server

/-! ### What the client sees of the server's steps -/

section Reads

variable {file : File} {old sent coming out : Bytes} {header header' : Header} {c : Client}

theorem Client.Reads.ended {e e' : Option End} (h : c.Reads file old header sent coming e)
    (he : e' ≠ none) : c.Reads file old header sent coming e' := by
  unfold Client.Reads at *
  split at h
  case h_1 | h_2 => exact h
  case h_3 => exact h
  case h_4 => exact h
  case h_5 => exact ⟨he, h.2⟩
  case h_6 => exact he

theorem Client.Reads.not_returned (h : c.Reads file old header sent coming none)
    (err : Option ClientError) : c.stage ≠ .returned err := by
  intro hstage
  unfold Client.Reads at h
  rw [hstage] at h
  cases err with
  | none => exact h.1 rfl
  | some err => exact h rfl

theorem Client.Within.append {stream : Bytes} (h : c.Within old coming stream) (out : Bytes) :
    c.Within old (coming ++ out) (stream ++ out) := by
  refine ⟨?_, h.2⟩
  rw [← append_assoc, h.1]

theorem Client.Reads.headerSent (h : c.Reads file old header [] coming none)
    (hheader : header ≠ .complete) (hout : header'.bytes file = header.bytes file ++ out) :
    c.Reads file old header' [] (coming ++ out) none := by
  unfold Client.Reads at *
  rw [append_nil] at *
  split at h
  case h_1 | h_2 =>
    rw [hout]
    exact h.append out
  case h_3 =>
    obtain ⟨stream, hstream, hw⟩ := h
    refine ⟨stream ++ out, ?_, hw.append out⟩
    rw [hout, hstream, append_assoc]
  case h_4 => exact absurd h.1 hheader
  case h_5 => exact absurd rfl h.1
  case h_6 => exact absurd rfl h

theorem Client.Reads.fileSent (h : c.Reads file old header sent coming none) (out : Bytes) :
    c.Reads file old header (sent ++ out) (coming ++ out) none := by
  unfold Client.Reads at *
  rw [← append_assoc]
  split at h
  case h_1 | h_2 => exact h.append out
  case h_3 =>
    obtain ⟨stream, hstream, hw⟩ := h
    refine ⟨stream ++ out, ?_, hw.append out⟩
    rw [hstream, append_assoc]
  case h_4 =>
    obtain ⟨hheader, hsize, got, hsent, hgot⟩ := h
    refine ⟨hheader, hsize, got, ?_, hgot⟩
    rw [hsent, append_assoc]
  case h_5 => exact absurd rfl h.1
  case h_6 => exact absurd rfl h

end Reads

/-! ### Steps of the server -/

variable {s' : State} {l : Link}

section ServerStep

variable {setup : Setup} {file : File} {old sent unsent lost : Bytes} {header : Header} {s : State}
  {res : Option Nat}

theorem Link.close_ended (hopen : l.ended = none) : l.close.ended = some .eof := by
  rw [Link.close, hopen]
  rfl

theorem Flow.close {srv : Server} {c : Client} (hfront : header ≠ .complete → sent = [])
    (hreads : c.Reads file old header sent l.down none) (hopen : l.ended = none) :
    Flow setup file old ⟨srv, c, l.close⟩ header sent [] [] where
  front := hfront
  server h := by
    rw [Link.close_ended hopen] at h
    cases h
  drained _ := rfl
  kept _ := rfl
  client := by
    rw [append_nil]
    exact hreads.ended (by simp [Link.close_ended hopen])

theorem Flow.live_of_open (hf : Flow setup file old s header sent unsent lost)
    (hopen : s.link.ended = none) : Live s header := by
  refine .inr ⟨fun err => ?_, .inl hopen⟩
  have hreads := hf.client
  rw [hopen] at hreads
  exact hreads.not_returned (some err)

theorem Carried.same {op : Op} {header' : Header} (hlive : Live s' header' ↔ Live s header)
    (hkeeps : NoLoss s op) : Carried s op header sent unsent s' header' sent unsent :=
  ⟨hlive.mp, fun _ => hlive.mpr, fun _ _ => rfl, Nat.le_refl _, fun h => absurd hkeeps h⟩

theorem Flow.stays {op : Op} {header' : Header}
    (hf : Flow setup file old s header sent unsent lost) (hopen : s.link.ended = none)
    (hkeeps : NoLoss s op) (hf' : Flow setup file old s' header' sent unsent [])
    (hopen' : s'.link.ended = none) : GoesOn setup file old s op header sent unsent s' := by
  refine ⟨header', sent, unsent, [], hf', Carried.same ?_ hkeeps⟩
  exact iff_of_true (hf'.live_of_open hopen') (hf.live_of_open hopen)

theorem Flow.serverEnded {srv' : Server} {l' : Link}
    (hf : Flow setup file old s header sent unsent lost) (hended : s.link.ended ≠ none)
    (hstep : s.server.step setup.disk s.link res = some (srv', l')) :
    Flow setup file old { s with server := srv', link := l' } header sent unsent lost ∧
      Carried s (.server res) header sent unsent { s with server := srv', link := l' } header
        sent unsent := by
  obtain ⟨hdown, hend⟩ := Server.step_ended hended hstep
  refine ⟨⟨hf.front, fun h => absurd (hend ▸ h) hended, fun _ => hf.drained hended, ?_, ?_⟩,
    Carried.same ?_ fun h => absurd h hended⟩
  · exact fun h => hf.kept (hend ▸ h)
  · rw [hdown, hend]
    exact hf.client
  · simp only [Live, hend]

theorem afterRecv_short {info : FileInfo} {data : Bytes} (h0 : 0 ∉ data) (hlen : data.length < 4) :
    afterRecv info data = .sendSize info := by
  have hbuf : cString (inBuffer PAGESIZE data) = data := by
    have hpos : 1 ≤ PAGESIZE - data.length := by
      unfold PAGESIZE
      omega
    rw [inBuffer, ← Nat.sub_add_cancel hpos, replicate_succ, cString_append h0]
  have hne : data.take 4 ≠ (cString (ascii "STOP\n")).take 4 := by
    intro h
    have := congrArg length h
    rw [take_of_length_le (Nat.le_of_lt hlen)] at this
    exact absurd this (Nat.ne_of_lt hlen)
  rw [afterRecv, strncmpEq, hbuf, decide_eq_false hne]
  rfl

theorem Flow.mkOpen {srv : Server} {c : Client} (hopen : l.ended = none)
    (hfront : header ≠ .complete → sent = []) (hat : srv.At file header unsent)
    (hhand : Handshake setup.srcPath c.stage l.up srv) (hup : l.upClosed = false)
    (hreads : c.Reads file old header sent l.down none) :
    Flow setup file old ⟨srv, c, l⟩ header sent unsent [] where
  front := hfront
  server _ := ⟨hat, hhand, hup⟩
  drained h := absurd hopen h
  kept _ := rfl
  client := by
    rw [append_nil]
    exact hopen ▸ hreads

section Open

variable {c : Client} {info : FileInfo} {f : Stream} {fileBuf : Bytes} {totalCnt : Nat}

theorem Link.send_open {data : Bytes} {l' : Link} {n : Nat} (hopen : l.ended = none)
    (h : l.send data (some n) = some l') :
    n ≤ data.length ∧ l' = { l with down := l.down ++ data.take n } := by
  simp only [Link.send, isNone_iff_eq_none, if_pos hopen] at h
  split at h
  · next hn => exact ⟨hn, (Option.some.inj h).symm⟩
  · cases h

theorem step_send {srv : Server} {n : Nat}
    (hsend : srv.step setup.disk l (some n) =
      (l.send srv.output (some n)).map fun l => (srv.afterSend (some n)).release l)
    (hopen : l.ended = none) (hstep : step setup ⟨srv, c, l⟩ (.server (some n)) = some s') :
    n ≤ srv.output.length ∧ ∃ r, r = (srv.afterSend (some n)).release
      { l with down := l.down ++ srv.output.take n } ∧ s' = ⟨r.1, c, r.2⟩ := by
  simp only [step, hsend, Option.map_map, map_eq_some_iff] at hstep
  obtain ⟨l', hl', rfl⟩ := hstep
  obtain ⟨hn, rfl⟩ := Link.send_open hopen hl'
  exact ⟨hn, _, rfl, rfl⟩

theorem Flow.giveUp {srv srv' : Server} {op : Op}
    (hf : Flow setup file old ⟨srv, c, l⟩ header sent unsent []) (hopen : l.ended = none)
    (hsmooth : Smooth ⟨srv, c, l⟩ op → header = .complete)
    (hleft : header = .complete → NoLoss ⟨srv, c, l⟩ op → unsent = [])
    (hloss : ¬ NoLoss ⟨srv, c, l⟩ op → unsent ≠ []) :
    GoesOn setup file old ⟨srv, c, l⟩ op header sent unsent ⟨srv', c, l.close⟩ := by
  have hreads : c.Reads file old header sent l.down none := by
    have := hf.client
    rwa [append_nil, hopen] at this
  refine ⟨header, sent, [], [], Flow.close hf.front hreads hopen,
    fun _ => hf.live_of_open hopen, ?_, ?_, ?_, ?_⟩
  · intro h _
    exact .inr ⟨fun err => hreads.not_returned (some err), .inr ⟨Link.close_ended hopen, hsmooth h⟩⟩
  · intro hlive hkeeps
    have hheader : header = .complete := by
      rcases hlive with h | ⟨-, h | h⟩
      · exact absurd h (hreads.not_returned none)
      · rw [Link.close_ended hopen] at h
        cases h
      · exact h.2
    rw [hleft hheader hkeeps]
  · simp
  · intro h
    have := length_pos_iff.mpr (hloss h)
    simpa using this

theorem readRequest_eq (hfile : setup.disk.fopen setup.srcPath = some file)
    (hcolon : colon ∉ setup.srcPath) (hhand : Handshake setup.srcPath c.stage l.up .readRequest)
    (hup : l.upClosed = false)
    (hstep : step setup ⟨.readRequest, c, l⟩ (.server (some l.up.length)) = some s') :
    c.stage = .response ∧ s' = ⟨.sendOk file.info, c, { l with up := [] }⟩ := by
  rcases hhand with ⟨-, hempty⟩ | ⟨hstage, hrequest⟩
  · simp [step, Server.step, Link.recv, hempty, hup] at hstep
  · have hlen : (request setup.srcPath).length ≤ BUFSIZE :=
      Nat.le_of_lt (request_length (setup.disk.short hfile))
    have hpos : (request setup.srcPath).length ≠ 0 := by simp [request]
    simp only [step, Server.step, Link.recv, hrequest, hlen, Nat.le_refl, hpos, false_imp_iff,
      true_and, if_true, take_length, drop_length, map_some,
      serveConnection_request hfile hcolon, Server.release, Option.some.injEq] at hstep
    exact ⟨hstage, hstep.symm⟩

theorem Flow.readRequest (hf : Flow setup file old ⟨.readRequest, c, l⟩ header sent unsent [])
    (hfile : setup.disk.fopen setup.srcPath = some file) (hcolon : colon ∉ setup.srcPath)
    (hopen : l.ended = none) (hwhole : HeaderWhole ⟨.readRequest, c, l⟩ (.server res))
    (hstep : step setup ⟨.readRequest, c, l⟩ (.server res) = some s') :
    GoesOn setup file old ⟨.readRequest, c, l⟩ (.server res) header sent unsent s' := by
  obtain ⟨hat, hhand, hup⟩ := hf.server hopen
  obtain rfl : res = some l.up.length := hwhole hopen
  obtain ⟨hstage, rfl⟩ := readRequest_eq hfile hcolon hhand hup hstep
  have hreads := hf.client
  rw [append_nil, hopen] at hreads
  exact hf.stays hopen (fun _ => trivial)
    (Flow.mkOpen hopen hf.front ⟨rfl, hat⟩ ⟨hstage, rfl⟩ hup hreads) hopen

theorem Flow.sendOk (hf : Flow setup file old ⟨.sendOk info, c, l⟩ header sent unsent [])
    (hopen : l.ended = none) (hwhole : HeaderWhole ⟨.sendOk info, c, l⟩ (.server res))
    (hstep : step setup ⟨.sendOk info, c, l⟩ (.server res) = some s') :
    GoesOn setup file old ⟨.sendOk info, c, l⟩ (.server res) header sent unsent s' := by
  obtain ⟨⟨hinfo, rfl, hunsent⟩, ⟨hstage, hempty⟩, hup⟩ := hf.server hopen
  obtain rfl : sent = [] := hf.front (by decide)
  have hreads := hf.client
  rcases hwhole hopen with rfl | rfl
  · cases hstep
    exact hf.giveUp hopen (fun h => by cases h) (fun h => by cases h)
      fun h => absurd (fun _ => trivial) h
  · obtain ⟨-, _, rfl, rfl⟩ := step_send rfl hopen hstep
    rw [append_nil, hopen] at hreads
    refine hf.stays hopen (fun _ => trivial) (Flow.mkOpen hopen (fun _ => rfl)
      (⟨hinfo, rfl, hunsent⟩ : Server.At file .status _ (.recvResp info))
      (.inl ⟨hstage, hempty⟩) hup ?_) hopen
    rw [take_length]
    exact hreads.headerSent (by decide) rfl

theorem Flow.recvResp (hf : Flow setup file old ⟨.recvResp info, c, l⟩ header sent unsent [])
    (hopen : l.ended = none) (hstep : step setup ⟨.recvResp info, c, l⟩ (.server res) = some s') :
    GoesOn setup file old ⟨.recvResp info, c, l⟩ (.server res) header sent unsent s' := by
  obtain ⟨hat, hhand, hup⟩ := hf.server hopen
  have hreads := hf.client
  rw [append_nil, hopen] at hreads
  simp only [step, Server.step, Option.map_map, map_eq_some_iff] at hstep
  obtain ⟨r, hr, rfl⟩ := hstep
  obtain ⟨hpre, hdown, hend, hclosed⟩ := Link.recv_frame hr
  have hshort : 0 ∉ l.up ∧ l.up.length < 4 ∧ c.stage ≠ .request := by
    dsimp only [Handshake] at hhand
    rcases hhand with ⟨hstage, hup⟩ | ⟨hstage, hup⟩
    · rw [hup, hstage]
      decide
    · rw [hup, hstage]
      decide
  have hanswer : afterRecv info r.1 = .sendSize info :=
    afterRecv_short (fun h => hshort.1 (hpre.subset h))
      (Nat.lt_of_le_of_lt hpre.length_le hshort.2.1)
  simp only [Function.comp_apply, hanswer, Server.release]
  refine hf.stays hopen (fun _ => trivial) (Flow.mkOpen (hend.trans hopen) hf.front hat hshort.2.2
    (hclosed.trans hup) ?_) (hend.trans hopen)
  rw [hdown]
  exact hreads

theorem Flow.sendSize (hf : Flow setup file old ⟨.sendSize info, c, l⟩ header sent unsent [])
    (hopen : l.ended = none) (hwhole : HeaderWhole ⟨.sendSize info, c, l⟩ (.server res))
    (hstep : step setup ⟨.sendSize info, c, l⟩ (.server res) = some s') :
    GoesOn setup file old ⟨.sendSize info, c, l⟩ (.server res) header sent unsent s' := by
  obtain ⟨⟨rfl, rfl, hunsent⟩, hstage, hup⟩ := hf.server hopen
  obtain rfl : sent = [] := hf.front (by decide)
  have hreads := hf.client
  rcases hwhole hopen with rfl | rfl
  · cases hstep
    exact hf.giveUp hopen (fun h => by cases h) (fun h => by cases h)
      fun h => absurd (fun _ => trivial) h
  · obtain ⟨-, _, rfl, rfl⟩ := step_send rfl hopen hstep
    rw [append_nil, hopen] at hreads
    refine hf.stays hopen (fun _ => trivial) (Flow.mkOpen hopen (fun _ => rfl)
      (⟨rfl, hunsent, rfl, fun h => by cases h⟩ : Server.At file .complete _ (.copyLoop _ 0))
      hstage hup ?_) hopen
    rw [take_length]
    exact hreads.headerSent (by decide) rfl

theorem Flow.copyLoop (hf : Flow setup file old ⟨.copyLoop f totalCnt, c, l⟩ header sent unsent [])
    (hopen : l.ended = none)
    (hstep : step setup ⟨.copyLoop f totalCnt, c, l⟩ (.server res) = some s') :
    GoesOn setup file old ⟨.copyLoop f totalCnt, c, l⟩ (.server res) header sent unsent s' := by
  obtain ⟨⟨hheader, rfl, herror, heof⟩, hstage, hup⟩ := hf.server hopen
  have hreads := hf.client
  rw [append_nil, hopen] at hreads
  simp only [step, Server.step, copyRound, map_some, Option.some.injEq] at hstep
  subst hstep
  by_cases hend : f.eof
  · rw [if_pos hend]
    exact hf.giveUp hopen (fun _ => hheader) (fun _ _ => heof hend)
      fun h => absurd (fun _ => trivial) h
  · rw [if_neg hend, herror, if_neg (by decide)]
    refine hf.stays hopen (fun _ => trivial) (Flow.mkOpen hopen hf.front
      ⟨hheader, ?_, herror, ?_, ?_⟩ hstage hup hreads) hopen
    · exact (take_append_drop _ _).symm
    · intro h
      simp only [fread, hend, Bool.false_or, decide_eq_true_eq] at h
      exact drop_eq_nil_of_le (Nat.le_of_lt h)
    · intro h
      simp only [fread, hend, Bool.false_or, decide_eq_true_eq, Nat.not_lt] at h
      exact length_take_of_le h

theorem Flow.sendChunk
    (hf : Flow setup file old ⟨.sendChunk fileBuf f totalCnt, c, l⟩ header sent unsent [])
    (hopen : l.ended = none)
    (hstep : step setup ⟨.sendChunk fileBuf f totalCnt, c, l⟩ (.server res) = some s') :
    GoesOn setup file old ⟨.sendChunk fileBuf f totalCnt, c, l⟩ (.server res) header sent unsent
      s' := by
  obtain ⟨⟨hheader, rfl, herror, heof, hfull⟩, hstage, hup⟩ := hf.server hopen
  have hreads := hf.client
  rw [append_nil, hopen] at hreads
  cases res with
  | none =>
    cases hstep
    refine hf.giveUp hopen (fun _ => hheader) (fun _ hkeeps => ?_) fun h hnil => h fun _ => ?_
    · obtain rfl : fileBuf = [] := eq_nil_of_length_eq_zero (hkeeps hopen).symm
      -- an empty chunk is the last one
      have hlast : f.eof := by
        by_contra h
        exact absurd (hfull h) (by decide)
      rw [heof hlast]
      rfl
    · exact (congrArg length (append_eq_nil_iff.mp hnil).1).symm
  | some n =>
    obtain ⟨hn, _, rfl, rfl⟩ := step_send rfl hopen hstep
    change n ≤ fileBuf.length at hn
    have hf' : Flow setup file old ⟨.copyLoop f (totalCnt + n), c,
        { l with down := l.down ++ fileBuf.take n }⟩ header (sent ++ fileBuf.take n) f.rest [] :=
      Flow.mkOpen hopen (fun h => absurd hheader h) ⟨hheader, rfl, herror, heof⟩ hstage hup
        (hreads.fileSent _)
    refine ⟨header, sent ++ fileBuf.take n, f.rest, [], hf', fun _ => hf.live_of_open hopen,
      fun _ _ => hf'.live_of_open hopen, ?_, ?_, ?_⟩
    · intro _ hkeeps
      obtain rfl : n = fileBuf.length := hkeeps hopen
      rw [take_length, append_assoc]
    · simp only [length_append, length_take]
      omega
    · intro h
      have hne : n ≠ fileBuf.length := fun heq => h fun _ => heq
      simp only [length_append, length_take]
      omega

end Open

end ServerStep

end LinuxWorkouts.Tcp
