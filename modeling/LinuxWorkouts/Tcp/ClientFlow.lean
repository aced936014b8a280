import LinuxWorkouts.Tcp.ServerFlow

/-!
The client's steps, and those of the network, keep the flow of an exchange.

`Client.Within.readString` follows `ReadString` through a stream that arrives in pieces of
any length; with it the client finds the two lines of the header and, behind them, the
file. `Flow.next` is the step lemma of the whole exchange.
-/

namespace LinuxWorkouts.Tcp

open Ascii Transition List Option

/-! ### Steps of the client -/

variable {total : Nat} {v : VisualizationArgs}

section ClientStep

variable {setup : Setup} {file : File} {old sent unsent lost : Bytes} {header : Header}
  {srv : Server} {c c' : Client} {l l' : Link} {n : Nat} {totalOffset : Int}

theorem Flow.clientStep (hf : Flow setup file old ⟨srv, c, l⟩ header sent unsent lost)
    (hend : l'.ended = l.ended) (hret : ∀ err, c.stage ≠ .returned err)
    (hhand : l.ended = none → Handshake setup.srcPath c'.stage l'.up srv ∧ l'.upClosed = false)
    (hreads : c'.Reads file old header sent (l'.down ++ lost) l.ended)
    (hlive : c'.stage = .returned none → l.ended = some .eof ∧ header = .complete)
    (herr : (l.ended = none ∨ (l.ended = some .eof ∧ header = .complete)) →
      ∀ err, c'.stage ≠ .returned (some err)) :
    GoesOn setup file old ⟨srv, c, l⟩ (.client n totalOffset) header sent unsent ⟨srv, c', l'⟩ := by
  refine ⟨header, sent, unsent, lost, ⟨hf.front, ?_, ?_, ?_, ?_⟩, Carried.same ?_ fun _ => trivial⟩
  · intro h
    have hopen : l.ended = none := hend ▸ h
    exact ⟨(hf.server hopen).1, hhand hopen⟩
  · exact fun h => hf.drained (hend ▸ h)
  · exact fun h => hf.kept (hend ▸ h)
  · exact hend ▸ hreads
  · constructor
    · rintro (h | ⟨-, h⟩)
      · exact .inr ⟨fun err => hret (some err), .inr (hlive h)⟩
      · exact .inr ⟨fun err => hret (some err), hend ▸ h⟩
    · rintro (h | ⟨-, h⟩)
      · exact absurd h (hret none)
      · exact .inr ⟨herr h, (congrArg (fun e => e = none ∨ e = some End.eof ∧ header = .complete)
          hend).mpr h⟩

theorem Client.Within.readString {stream : Bytes} {r : LineResult}
    (h : c.Within old (l.down ++ lost) stream) (hr : c.readString l n = some (r, c', l')) :
    c'.stage = c.stage ∧ c'.destFile = c.destFile ∧ l' = { l with down := l'.down } ∧
      match r with
      | .line bytes => newline ∈ stream ∧
          ∀ line rest, newline ∉ line → stream = line ++ newline :: rest →
            bytes = line ++ [newline] ∧ c'.fragments = [] ∧ c'.buf ++ (l'.down ++ lost) = rest
      | .pending => c'.Within old (l'.down ++ lost) stream
      | .failed _ => l.ended ≠ none ∧ (lost = [] → newline ∉ stream) := by
  obtain ⟨heq, hfrag, hold⟩ := h
  rcases Client.readString_cases hr with ⟨hbuf, rfl, rfl, rfl⟩ | ⟨hbuf, ⟨-, rfl, rfl, rfl⟩ |
    ⟨bytes, -, rfl, rfl, rfl⟩ | ⟨err, rfl, rfl, rfl, hdown, hended⟩⟩
  · refine ⟨rfl, rfl, rfl, ?_, ?_⟩
    · rw [← heq]
      simp [hbuf]
    · intro line rest hline hstream
      obtain ⟨hbytes, hrest⟩ := splitLine_of_append hfrag hbuf hline (heq.trans hstream)
      exact ⟨hbytes, rfl, hrest⟩
  · refine ⟨rfl, rfl, rfl, ?_, ?_, hold⟩
    · rw [append_nil]
      exact heq
    · simp [hfrag, hbuf]
  · refine ⟨rfl, rfl, rfl, ?_, hfrag, hold⟩
    rw [← heq]
    simp
  · refine ⟨rfl, rfl, rfl, hended, fun hlost => ?_⟩
    rw [← heq, hdown, hlost]
    simp [hfrag, hbuf]

theorem Header.bytes_of_newline (hfront : header ≠ .complete → sent = [])
    (h : newline ∈ header.bytes file ++ sent) :
    header ≠ .nothing ∧ ∃ stream, header.bytes file ++ sent = OK_MSG ++ stream := by
  cases header with
  | nothing =>
    rw [hfront (by decide)] at h
    cases h
  | status => exact ⟨by decide, [0] ++ sent, by simp [Header.bytes]⟩
  | complete => exact ⟨by decide, [0] ++ file.info.fileSizeStr ++ sent, by simp [Header.bytes]⟩

theorem Header.complete_of_newline {stream : Bytes} (hfront : header ≠ .complete → sent = [])
    (hstream : header.bytes file ++ sent = OK_MSG ++ stream) (h : newline ∈ stream) :
    header = .complete ∧ stream = 0 :: decimal file.bytes.length ++ newline :: sent := by
  cases header with
  | nothing =>
    rw [hfront (by decide)] at hstream
    cases hstream
  | status =>
    rw [hfront (by decide), append_nil, Header.bytes] at hstream
    rw [← append_cancel_left hstream] at h
    exact absurd h (by decide)
  | complete =>
    refine ⟨rfl, ?_⟩
    rw [Header.bytes, append_assoc, append_assoc] at hstream
    rw [← append_cancel_left hstream]
    simp [File.info]

theorem Flow.exit (hf : Flow setup file old ⟨srv, c, l⟩ header sent unsent lost)
    (hl : l' = { l with down := l'.down }) (hret : ∀ err, c.stage ≠ .returned err)
    (hended : l.ended ≠ none) (hearly : l.ended = some .eof → header ≠ .complete)
    (err : ClientError) :
    GoesOn setup file old ⟨srv, c, l⟩ (.client n totalOffset) header sent unsent
      ⟨srv, (c'.exit (some err) l').1, (c'.exit (some err) l').2⟩ := by
  refine hf.clientStep ?_ hret (fun h => absurd h hended) hended (fun h => by cases h) ?_
  · rw [hl]
    rfl
  · rintro (h | h)
    · exact absurd h hended
    · exact absurd h.2 (hearly h.1)

theorem Flow.goOn (hf : Flow setup file old ⟨srv, c, l⟩ header sent unsent lost)
    (hl : l' = { l with down := l'.down }) (hret : ∀ err, c.stage ≠ .returned err)
    (hstage : c'.stage = c.stage)
    (hreads : c'.Reads file old header sent (l'.down ++ lost) l.ended) :
    GoesOn setup file old ⟨srv, c, l⟩ (.client n totalOffset) header sent unsent ⟨srv, c', l'⟩ := by
  refine hf.clientStep ?_ hret ?_ hreads (fun h => absurd (hstage ▸ h) (hret none))
    fun _ err => hstage ▸ hret (some err)
  · rw [hl]
  · intro hopen
    rw [hl, hstage]
    exact (hf.server hopen).2

theorem Header.newline_mem_complete : newline ∈ [0] ++ file.info.fileSizeStr ++ sent := by
  simp [File.info]

theorem Flow.response {s' : State} (hf : Flow setup file old ⟨srv, c, l⟩ header sent unsent lost)
    (hstage : c.stage = .response)
    (hstep : step setup ⟨srv, c, l⟩ (.client n totalOffset) = some s') :
    GoesOn setup file old ⟨srv, c, l⟩ (.client n totalOffset) header sent unsent s' := by
  have hw : c.Within old (l.down ++ lost) (header.bytes file ++ sent) := by
    have := hf.client
    simpa only [Client.Reads, hstage] using this
  have hret : ∀ err, c.stage ≠ .returned err := by
    intro err
    rw [hstage]
    exact fun h => by cases h
  simp only [step, Client.step, hstage, Option.map_map, map_eq_some_iff] at hstep
  obtain ⟨⟨r, c₁, l₁⟩, hr, rfl⟩ := hstep
  obtain ⟨hst, hdest, hl, hres⟩ := hw.readString hr
  cases r with
  | line bytes =>
    obtain ⟨hmem, hline⟩ := hres
    obtain ⟨hheader, stream, hstream⟩ := Header.bytes_of_newline hf.front hmem
    obtain ⟨rfl, hfrag, hbuf⟩ := hline (ascii "OK") stream (by decide) hstream
    have hok : ascii "OK" ++ [newline] = ascii "OK\n" := by decide
    simp only [Function.comp_apply, Client.onResponse, hok, ne_eq, not_true_eq_false, if_false]
    refine hf.clientStep ?_ hret ?_ ⟨stream, hstream, ?_, ?_, ?_⟩ (fun h => by cases h)
      fun _ _ h => by cases h
    · rw [hl]
      rfl
    · intro hopen
      obtain ⟨hat, hhand, hup⟩ := hf.server hopen
      rw [hl]
      refine ⟨?_, hup⟩
      -- the line shows that the server has passed its first `send`
      dsimp only at hat hhand
      cases srv with
      | readRequest => exact absurd hat.1 hheader
      | sendOk info => exact absurd hat.2.1 hheader
      | recvResp info =>
        rcases hhand with ⟨-, hempty⟩ | ⟨hsize, -⟩
        · refine .inr ⟨rfl, ?_⟩
          simp [Link.write, hempty]
        · rw [hstage] at hsize
          cases hsize
      | sendErr | closed | fault => cases hat
      | sendSize info => exact fun h => by cases h
      | copyLoop f totalCnt => exact fun h => by cases h
      | sendChunk fileBuf f totalCnt => exact fun h => by cases h
    · dsimp only
      rw [hfrag, nil_append]
      exact hbuf
    · dsimp only
      rw [hfrag]
      exact not_mem_nil
    · dsimp only
      rw [hdest]
      exact hw.2.2
  | pending =>
    refine hf.goOn hl hret hst ?_
    simpa only [Client.Reads, hst, hstage] using hres
  | failed err =>
    refine hf.exit hl hret hres.1 ?_ err
    rintro hended rfl
    refine hres.2 (hf.kept (by simp [hended])) ?_
    rw [Header.bytes, append_assoc OK_MSG, append_assoc OK_MSG]
    exact mem_append_right _ Header.newline_mem_complete

theorem Flow.size {s' : State} (hf : Flow setup file old ⟨srv, c, l⟩ header sent unsent lost)
    (hstage : c.stage = .size)
    (hstep : step setup ⟨srv, c, l⟩ (.client n totalOffset) = some s') :
    GoesOn setup file old ⟨srv, c, l⟩ (.client n totalOffset) header sent unsent s' := by
  obtain ⟨stream, hstream, hw⟩ : ∃ stream, header.bytes file ++ sent = OK_MSG ++ stream ∧
      c.Within old (l.down ++ lost) stream := by
    have := hf.client
    simpa only [Client.Reads, hstage] using this
  have hret : ∀ err, c.stage ≠ .returned err := by
    intro err
    rw [hstage]
    exact fun h => by cases h
  simp only [step, Client.step, hstage, Option.map_map, map_eq_some_iff] at hstep
  obtain ⟨⟨r, c₁, l₁⟩, hr, rfl⟩ := hstep
  obtain ⟨hst, hdest, hl, hres⟩ := hw.readString hr
  cases r with
  | line bytes =>
    obtain ⟨hmem, hline⟩ := hres
    obtain ⟨rfl, hsplit⟩ := Header.complete_of_newline hf.front hstream hmem
    have hnot : newline ∉ 0 :: decimal file.bytes.length := by
      rw [mem_cons, not_or]
      exact ⟨by decide, newline_not_mem_decimal⟩
    obtain ⟨rfl, hfrag, hbuf⟩ := hline _ sent hnot hsplit
    refine hf.clientStep (by rw [hl]) hret ?_ ⟨rfl, ?_, [], ?_, rfl, ?_⟩ (fun h => by cases h)
      fun _ _ h => by cases h
    · intro hopen
      obtain ⟨hat, hhand, hup⟩ := hf.server hopen
      rw [hl]
      refine ⟨?_, hup⟩
      -- the line shows that the server has passed the header
      dsimp only at hat hhand
      cases srv with
      | readRequest => cases hat.1
      | sendOk info => cases hat.2.1
      | recvResp info => cases hat.2.1
      | sendSize info => cases hat.2.1
      | sendErr | closed | fault => cases hat
      | copyLoop f totalCnt => exact fun h => by cases h
      | sendChunk fileBuf f totalCnt => exact fun h => by cases h
    · dsimp only [Client.onSize]
      rw [cons_append, tail_cons, trimSpace_decimal, parseInt_decimal file.size_lt]
    · dsimp only [Client.onSize]
      rw [nil_append, hbuf]
    · dsimp only [Client.onSize]
      rw [hdest, hw.2.2]
      rfl
  | pending =>
    refine hf.goOn hl hret hst ?_
    simpa only [Client.Reads, hst, hstage] using ⟨stream, hstream, hres⟩
  | failed err =>
    refine hf.exit hl hret hres.1 ?_ err
    rintro hended rfl
    refine hres.2 (hf.kept (by simp [hended])) ?_
    rw [Header.bytes, append_assoc OK_MSG, append_assoc OK_MSG] at hstream
    rw [← append_cancel_left hstream]
    exact Header.newline_mem_complete

theorem writeAt_append (got bytes : Bytes) :
    writeAt (got ++ old.drop got.length) got.length bytes =
      got ++ bytes ++ old.drop (got.length + bytes.length) := by
  rw [writeAt, take_left, drop_append, drop_eq_nil_of_le (Nat.le_add_right _ _),
    nil_append, Nat.add_sub_cancel_left, drop_drop]

theorem Client.onData_spec (c : Client) (total : Nat) (visualization : VisualizationArgs)
    (totalOffset : Int) (bytes : Bytes) :
    let c' := c.onData total visualization totalOffset bytes
    (∃ v, c'.stage = .download (total + bytes.length) v) ∧ c'.buf = c.buf ∧
      c'.fileSize = c.fileSize ∧ c'.destFile = c.destFile.map fun f => writeAt f total bytes := by
  dsimp only [Client.onData]
  split
  · exact ⟨⟨_, rfl⟩, rfl, rfl, rfl⟩
  · exact ⟨⟨_, rfl⟩, rfl, rfl, rfl⟩

theorem Handshake.download {srcPath up : Bytes} {total' : Nat} {v' : VisualizationArgs}
    (h : Handshake srcPath (.download total v) up srv) :
    Handshake srcPath (.download total' v') up srv := by
  cases srv with
  | readRequest =>
    rcases h with h | h
    · cases h.1
    · cases h.1
  | sendOk info => cases h.1
  | recvResp info =>
    rcases h with h | h
    · cases h.1
    · cases h.1
  | sendErr | sendSize | copyLoop | sendChunk | closed | fault => exact fun h => by cases h

section

variable (hf : Flow setup file old ⟨srv, c, l⟩ header sent unsent lost)
include hf

theorem Flow.data {bytes : Bytes} (hstage : c.stage = .download total v)
    (hl : l' = { l with down := l'.down })
    (hfields : c'.fileSize = c.fileSize ∧ c'.destFile = c.destFile)
    (hbuf : c.buf ++ l.down = bytes ++ (c'.buf ++ l'.down)) :
    GoesOn setup file old ⟨srv, c, l⟩ (.client n totalOffset) header sent unsent
      ⟨srv, c'.onData total v totalOffset bytes, l'⟩ := by
  have hreads := hf.client
  simp only [Client.Reads, hstage] at hreads
  obtain ⟨hheader, hsize, got, hsent, rfl, hdest⟩ := hreads
  obtain ⟨⟨v', hstage'⟩, hbuf', hsize', hdest'⟩ :=
    Client.onData_spec c' got.length v totalOffset bytes
  refine hf.clientStep (by rw [hl]) (fun _ h => by rw [hstage] at h; cases h) ?_ ?_
    (fun h => by rw [hstage'] at h; cases h) fun _ _ h => by rw [hstage'] at h; cases h
  · intro hopen
    obtain ⟨-, hhand, hup⟩ := hf.server hopen
    dsimp only at hhand hup
    rw [hstage] at hhand
    rw [hl, hstage']
    exact ⟨hhand.download, hup⟩
  · simp only [Client.Reads, hstage']
    refine ⟨hheader, ?_, got ++ bytes, ?_, ?_, ?_⟩
    · rw [hsize', hfields.1, hsize]
    · rw [hsent, hbuf', append_assoc got, ← append_assoc c.buf, hbuf]
      simp
    · rw [length_append]
    · rw [hdest', hfields.2, hdest, map_some, writeAt_append]

theorem Flow.theEnd (hstage : c.stage = .download total v) (hbuf : c.buf = []) (hdown : l.down = [])
    (hended : l.ended = some .eof) :
    GoesOn setup file old ⟨srv, c, l⟩ (.client n totalOffset) header sent unsent
      ⟨srv, (c.onEnd v l).1, (c.onEnd v l).2⟩ := by
  have hreads := hf.client
  simp only [Client.Reads, hstage] at hreads
  obtain ⟨hheader, hsize, got, hsent, rfl, hdest⟩ := hreads
  obtain rfl : sent = got := by
    rw [hsent, hbuf, hdown, hf.kept (by simp [hended])]
    simp
  have hnil : ∀ a b, sizeCheck a b = none := by
    intro a b
    unfold sizeCheck
    split <;> rfl
  refine hf.clientStep rfl (fun _ h => by rw [hstage] at h; cases h)
    (fun h => by rw [hended] at h; cases h) ?_ (fun _ => ⟨hended, hheader⟩) ?_
  · simp only [Client.onEnd, Client.exit, hnil, Client.Reads]
    exact ⟨by simp [hended], hheader, hsize, hdest⟩
  · intro _ err
    simp [Client.onEnd, Client.exit, hnil]

theorem Flow.download {s' : State} (hstage : c.stage = .download total v)
    (hstep : step setup ⟨srv, c, l⟩ (.client n totalOffset) = some s') :
    GoesOn setup file old ⟨srv, c, l⟩ (.client n totalOffset) header sent unsent s' := by
  simp only [step, Client.step, hstage, Client.readData, Option.map_map, map_eq_some_iff] at hstep
  obtain ⟨⟨r, c₁, l₁⟩, hr, rfl⟩ := hstep
  split at hr
  · next hbuf =>
    obtain ⟨⟨q, l₂⟩, hq, hres⟩ := map_eq_some_iff.mp hr
    rcases Link.read_cases hq with
      ⟨bytes, rfl, -, rfl⟩ | ⟨rfl, rfl, hdown, hended⟩ | ⟨rfl, rfl, -, hended⟩
    · cases hres
      refine hf.data hstage rfl ⟨rfl, rfl⟩ ?_
      rw [hbuf]
      simp
    · cases hres
      exact hf.theEnd hstage hbuf hdown hended
    · cases hres
      exact hf.exit rfl (fun _ h => by rw [hstage] at h; cases h) (by simp [hended])
        (fun h => by rw [hended] at h; cases h) .connection
  · cases hr
    refine hf.data hstage rfl ⟨rfl, rfl⟩ ?_
    rw [← append_assoc, take_append_drop]

end

theorem Flow.clientNext {s s' : State} (hf : Flow setup file old s header sent unsent lost)
    (hstep : step setup s (.client n totalOffset) = some s') :
    GoesOn setup file old s (.client n totalOffset) header sent unsent s' := by
  obtain ⟨srv, c, l⟩ := s
  cases hstage : c.stage with
  | request =>
    simp only [step, Client.step, hstage, map_some, Option.some.injEq] at hstep
    subst hstep
    have hreads := hf.client
    simp only [Client.Reads, hstage] at hreads
    refine hf.clientStep rfl (fun _ h => by rw [hstage] at h; cases h) ?_ hreads
      (fun h => by cases h) fun _ _ h => by cases h
    intro hopen
    obtain ⟨-, hhand, hup⟩ := hf.server hopen
    dsimp only at hhand
    rw [hstage] at hhand
    refine ⟨?_, hup⟩
    cases srv with
    | readRequest =>
      rcases hhand with ⟨-, hempty⟩ | h
      · refine .inr ⟨rfl, ?_⟩
        simp [Link.write, hempty, request]
      · cases h.1
    | sendOk info => cases hhand.1
    | recvResp info =>
      rcases hhand with h | h
      · cases h.1
      · cases h.1
    | sendErr | sendSize | copyLoop | sendChunk | closed | fault => exact absurd rfl hhand
  | response => exact hf.response hstage hstep
  | size => exact hf.size hstage hstep
  | download total v => exact hf.download hstage hstep
  | returned err => simp [step, Client.step, hstage] at hstep

end ClientStep

/-! ### Steps of the exchange -/

section Next

variable {setup : Setup} {file : File} {old sent unsent lost : Bytes} {header : Header}
  {s s' : State} {op : Op}

section

variable (hf : Flow setup file old s header sent unsent lost)
include hf

theorem Flow.serverNext {res : Option Nat} (hfile : setup.disk.fopen setup.srcPath = some file)
    (hcolon : colon ∉ setup.srcPath) (hwhole : HeaderWhole s (.server res))
    (hstep : step setup s (.server res) = some s') :
    GoesOn setup file old s (.server res) header sent unsent s' := by
  by_cases hopen : s.link.ended = none
  · obtain rfl : lost = [] := hf.kept (by simp [hopen])
    obtain ⟨srv, c, l⟩ := s
    have hat := (hf.server hopen).1
    cases srv with
    | readRequest => exact hf.readRequest hfile hcolon hopen hwhole hstep
    | sendOk info => exact hf.sendOk hopen hwhole hstep
    | recvResp info => exact hf.recvResp hopen hstep
    | sendSize info => exact hf.sendSize hopen hwhole hstep
    | copyLoop f totalCnt => exact hf.copyLoop hopen hstep
    | sendChunk fileBuf f totalCnt => exact hf.sendChunk hopen hstep
    | sendErr | closed | fault => cases hat
  · obtain ⟨⟨srv', l'⟩, hr, rfl⟩ := map_eq_some_iff.mp hstep
    exact ⟨header, sent, unsent, lost, hf.serverEnded hopen hr⟩

theorem Flow.disconnect :
    GoesOn setup file old s .disconnect header sent unsent { s with link := s.link.close } := by
  obtain ⟨srv, c, l⟩ := s
  cases hended : l.ended with
  | none =>
    obtain rfl : lost = [] := hf.kept (by simp [hended])
    have hat := (hf.server hended).1
    refine hf.giveUp hended (fun h => by cases h) (fun hheader hkeeps => ?_)
      fun hloss hnil => hloss fun _ => ?_
    · subst hheader
      cases srv with
      | readRequest => cases hat.1
      | sendOk info => cases hat.2.1
      | recvResp info => cases hat.2.1
      | sendSize info => cases hat.2.1
      | copyLoop f totalCnt => exact hat.2.1.trans (hkeeps hended)
      | sendChunk fileBuf f totalCnt => exact hat.2.1.trans (hkeeps hended)
      | sendErr | closed | fault => cases hat
    · cases srv with
      | copyLoop f totalCnt => exact hat.2.1.symm.trans hnil
      | sendChunk fileBuf f totalCnt => exact hat.2.1.symm.trans hnil
      | readRequest | sendErr | sendOk | recvResp | sendSize | closed | fault => trivial
  | some e =>
    have hclose : l.close = l := by
      cases l
      cases hended
      rfl
    dsimp only
    rw [hclose]
    exact ⟨header, sent, unsent, lost, hf, Carried.same Iff.rfl fun h => by simp [hended] at h⟩

theorem Flow.reset :
    GoesOn setup file old s .reset header sent unsent { s with link := s.link.reset } := by
  -- the client is live afterwards only if it has returned
  have hdead : ∀ {header : Header}, Live { s with link := s.link.reset } header →
      s.client.stage = .returned none := by
    rintro header (h | ⟨-, h | h⟩)
    · exact h
    · cases h
    · cases h.1
  refine ⟨header, sent, [], s.link.down ++ lost, ⟨hf.front, ?_, fun _ => rfl, ?_, ?_⟩,
    fun h => .inl (hdead h), fun h => h.elim, ?_, ?_, fun h => absurd (fun _ => trivial) h⟩
  · intro h
    cases h
  · intro h
    exact absurd rfl h
  · exact hf.client.ended (by simp [Link.reset])
  · intro h _
    have hreads := hf.client
    simp only [Client.Reads, hdead h] at hreads
    rw [hf.drained hreads.1]
  · simp

theorem Flow.next (hfile : setup.disk.fopen setup.srcPath = some file)
    (hcolon : colon ∉ setup.srcPath) (hwhole : HeaderWhole s op)
    (hstep : step setup s op = some s') :
    GoesOn setup file old s op header sent unsent s' := by
  cases op with
  | server res => exact hf.serverNext hfile hcolon hwhole hstep
  | client n totalOffset => exact hf.clientNext hstep
  | disconnect =>
    cases hstep
    exact hf.disconnect
  | reset =>
    cases hstep
    exact hf.reset

end

theorem Flow.start (destFile : Option Bytes) :
    Flow setup file (destFile.getD []) (start destFile) .nothing [] file.bytes [] :=
  Flow.mkOpen rfl (fun _ => rfl) ⟨rfl, rfl⟩ (.inl ⟨rfl, rfl⟩) rfl ⟨rfl, not_mem_nil, rfl⟩

end Next

end LinuxWorkouts.Tcp
