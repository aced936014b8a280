import LinuxWorkouts.UrlChecker.Model

/-!
What a turn of the URL checker can do.

`Move` lists the turns that go on, one constructor for each place in the source, with what holds
before it and the state behind it. `move_of_goes` reads it off the code once, and every invariant
is proved over `Move`. `hazard_of_panics` is the same for the turns that end the process: it says
what the state must look like for one of them to panic.
-/

namespace LinuxWorkouts.UrlChecker

open Goroutines Function

variable {W : Nat}

/-- The turns that go on. -/
inductive Move (s : Checker W) : Turn W → Checker W → Prop
  | feed {url : Url} {urls : List Url} {k : Fin 3} (hfeeder : s.feeder = .sending (url :: urls))
      (hlane : laneOf url = some k) :
      Move s .feed { s with
        chansInput := update s.chansInput k
          ((s.chansInput k).withBuffer ((s.chansInput k).buffer ++ [url]))
        feeder := .sending urls }
  | fed (hfeeder : s.feeder = .sending []) : Move s .feed { s with feeder := .closing priorities }
  | closeInput {k : Fin 3} {lanes : List (Fin 3)} (hfeeder : s.feeder = .closing (k :: lanes)) :
      Move s .feed { s with
        chansInput := update s.chansInput k (s.chansInput k).asClosed
        feeder := .closing lanes }
  | feederLeaves {count : Nat} (hfeeder : s.feeder = .closing [])
      (hcount : s.poolWait = count + 1) :
      Move s .feed { s with poolWait := count, feeder := .left }
  | receive {w : Fin W} {url : Url} {rest : List Url} (hphase : (s.workers w).phase = .receiving)
      (hbuffer : (s.chansInput (lane w)).buffer = url :: rest) :
      Move s (.receive w) { s with
        chansInput := update s.chansInput (lane w) ((s.chansInput (lane w)).withBuffer rest)
        workers := update s.workers w
          ⟨.selecting url, (s.workers w).requests ++ [.sleeping url]⟩ }
  | workerLeaves {w : Fin W} {count : Nat} (hphase : (s.workers w).phase = .receiving)
      (hbuffer : (s.chansInput (lane w)).buffer = [])
      (hclosed : (s.chansInput (lane w)).closed = true) (hcount : s.poolWait = count + 1) :
      Move s (.receive w) { s with
        workers := update s.workers w ⟨.left, (s.workers w).requests⟩, poolWait := count }
  | wake {w : Fin W} {request : Nat} {url : Url} {resp : Response} {randInt : Fin 4}
      {randTime : Fin 1000} {now : Nat}
      (hrequest : (s.workers w).requests[request]? = some (.sleeping url))
      (hresp : resp.url = url) :
      Move s (.wake w request randInt randTime now) { s with
        workers := update s.workers w
          ⟨(s.workers w).phase, (s.workers w).requests.set request (.sending resp)⟩ }
  | timeout {w : Fin W} {url : Url} {resp : Response}
      (hphase : (s.workers w).phase = .selecting url)
      (hresp : resp.url = url) :
      Move s (.timeout w) { s with
        workers := update s.workers w ⟨.answering resp, (s.workers w).requests⟩ }
  | accept {w : Fin W} {request : Nat} {url : Url} {resp : Response}
      (hphase : (s.workers w).phase = .selecting url)
      (hrequest : (s.workers w).requests[request]? = some (.sending resp)) :
      Move s (.accept w request) { s with
        workers := update s.workers w
          ⟨.answering resp, (s.workers w).requests.eraseIdx request⟩ }
  | answer {w : Fin W} {resp : Response} (hphase : (s.workers w).phase = .answering resp)
      (hreader : s.readerLeft (lane w) = false) :
      Move s (.answer w) { s with
        workers := update s.workers w ⟨.receiving, (s.workers w).requests⟩
        responses := update s.responses (lane w) (s.responses (lane w) ++ [resp]) }
  | expire : Move s .expire { s with ctxDone := true }
  | poolDone (hcloser : s.closer = .waiting) (hwait : s.poolWait = 0) :
      Move s .closePool { s with closer := .closing priorities }
  | closeOutput {k : Fin 3} {lanes : List (Fin 3)} (hcloser : s.closer = .closing (k :: lanes)) :
      Move s .closePool { s with
        chansOutput := update s.chansOutput k (s.chansOutput k).asClosed
        closer := .closing lanes }
  | cancel (hcloser : s.closer = .closing []) :
      Move s .closePool { s with ctxDone := true, closer := .left }
  | readerLeaves {k : Fin 3} {count : Nat} (hreader : s.readerLeft k = false)
      (hclosed : (s.chansOutput k).closed = true) (hcount : s.mergeWait = count + 1) :
      Move s (.readerLeave k) { s with
        mergeWait := count, readerLeft := update s.readerLeft k true }
  | mergeDone (hfinisher : s.finisher = .waiting) (hwait : s.mergeWait = 0) :
      Move s .finish { s with finisher := .filling (merged s) }
  | handOut {resp : Response} {rest : List Response}
      (hfinisher : s.finisher = .filling (resp :: rest)) (hcapacity : s.out.capacity = 0) :
      Move s .finish { s with printed := s.printed ++ [resp], finisher := .filling rest }
  | fill {resp : Response} {rest : List Response}
      (hfinisher : s.finisher = .filling (resp :: rest))
      (hroom : s.out.buffer.length < s.out.capacity) :
      Move s .finish { s with
        out := s.out.withBuffer (s.out.buffer ++ [resp]), finisher := .filling rest }
  | closeOut (hfinisher : s.finisher = .filling []) :
      Move s .finish { s with out := s.out.asClosed, finisher := .left }
  | print {resp : Response} {rest : List Response} (hbuffer : s.out.buffer = resp :: rest) :
      Move s .print { s with
        out := s.out.withBuffer rest, printed := s.printed ++ [resp] }
  | printed (hbuffer : s.out.buffer = []) (hclosed : s.out.closed = true) :
      Move s .print { s with finished := true }

/-! ### Reading the moves off the code -/

variable {s s' : Checker W} {w : Fin W} {turn : Turn W} {p : Panic}

theorem move_of_feed (h : feed s = .goes s') : Move s .feed s' := by
  unfold feed at h
  split at h
  case h_1 url urls hfeeder =>
    split at h
    case h_1 => cases h
    case h_2 k hlane =>
      obtain ⟨c, hsend, rfl⟩ := Attempt.map_eq_goes.mp h
      obtain ⟨-, -, rfl⟩ := Chan.send_eq_goes.mp hsend
      exact .feed hfeeder hlane
  case h_2 hfeeder =>
    cases h
    exact .fed hfeeder
  case h_3 k lanes hfeeder =>
    obtain ⟨c, hclose, rfl⟩ := Attempt.map_eq_goes.mp h
    obtain ⟨-, rfl⟩ := Chan.close_eq_goes.mp hclose
    exact .closeInput hfeeder
  case h_4 hfeeder =>
    obtain ⟨count, hdone, rfl⟩ := Attempt.map_eq_goes.mp h
    exact .feederLeaves hfeeder (waitGroupDone_eq_goes.mp hdone)
  case h_5 => cases h

theorem move_of_receiveUrl (h : receiveUrl s w = .goes s') : Move s (.receive w) s' := by
  unfold receiveUrl at h
  split at h
  case h_1 hphase =>
    obtain ⟨⟨x, c⟩, hreceive, h⟩ := Attempt.bind_eq_goes.mp h
    rcases Chan.receive_eq_goes.mp hreceive with ⟨url, rest, hbuffer, rfl, rfl⟩ |
      ⟨hbuffer, hclosed, rfl, rfl⟩
    · cases h
      exact .receive hphase hbuffer
    · obtain ⟨count, hdone, rfl⟩ := Attempt.map_eq_goes.mp h
      exact .workerLeaves hphase hbuffer hclosed (waitGroupDone_eq_goes.mp hdone)
  case h_2 => cases h

theorem move_of_getRespAsync {request : Nat} {randInt : Fin 4} {randTime : Fin 1000} {now : Nat}
    (h : getRespAsync s w request randInt randTime now = .goes s') :
    Move s (.wake w request randInt randTime now) s' := by
  unfold getRespAsync at h
  split at h
  case h_1 url hrequest =>
    cases h
    exact .wake hrequest rfl
  case h_2 => cases h

theorem move_of_selectDone (h : selectDone s w = .goes s') : Move s (.timeout w) s' := by
  unfold selectDone at h
  split at h
  case h_1 url hphase =>
    split at h
    · cases h
      exact .timeout hphase rfl
    · cases h
  case h_2 => cases h

theorem move_of_selectResp {request : Nat} (h : selectResp s w request = .goes s') :
    Move s (.accept w request) s' := by
  unfold selectResp at h
  split at h
  case h_1 url resp hphase hrequest =>
    cases h
    exact .accept hphase hrequest
  case h_2 => cases h

theorem move_of_sendAnswer (h : sendAnswer s w = .goes s') : Move s (.answer w) s' := by
  unfold sendAnswer at h
  split at h
  case h_1 resp hphase =>
    obtain ⟨_, hhand, rfl⟩ := Attempt.map_eq_goes.mp h
    obtain ⟨-, hreader⟩ := Chan.handOver_eq_goes.mp hhand
    exact .answer hphase (by simpa using hreader)
  case h_2 => cases h

theorem move_of_closePool (h : closePool s = .goes s') : Move s .closePool s' := by
  unfold closePool at h
  split at h
  case h_1 hcloser =>
    split at h
    case isTrue hwait =>
      cases h
      exact .poolDone hcloser hwait
    case isFalse => cases h
  case h_2 k lanes hcloser =>
    obtain ⟨c, hclose, rfl⟩ := Attempt.map_eq_goes.mp h
    obtain ⟨-, rfl⟩ := Chan.close_eq_goes.mp hclose
    exact .closeOutput hcloser
  case h_3 hcloser =>
    cases h
    exact .cancel hcloser
  case h_4 => cases h

theorem move_of_readerLeave {k : Fin 3} (h : readerLeave s k = .goes s') :
    Move s (.readerLeave k) s' := by
  unfold readerLeave at h
  split at h
  case isTrue => cases h
  case isFalse hreader =>
    split at h
    case isTrue hclosed =>
      obtain ⟨count, hdone, rfl⟩ := Attempt.map_eq_goes.mp h
      exact .readerLeaves (by simpa using hreader) hclosed (waitGroupDone_eq_goes.mp hdone)
    case isFalse => cases h

theorem move_of_fillOutputChannel (h : fillOutputChannel s = .goes s') : Move s .finish s' := by
  unfold fillOutputChannel at h
  split at h
  case h_1 hfinisher =>
    split at h
    case isTrue hwait =>
      cases h
      exact .mergeDone hfinisher hwait
    case isFalse => cases h
  case h_2 resp rest hfinisher =>
    split at h
    case isTrue hcapacity =>
      obtain ⟨_, -, rfl⟩ := Attempt.map_eq_goes.mp h
      exact .handOut hfinisher hcapacity
    case isFalse =>
      obtain ⟨c, hsend, rfl⟩ := Attempt.map_eq_goes.mp h
      obtain ⟨-, hroom, rfl⟩ := Chan.send_eq_goes.mp hsend
      exact .fill hfinisher hroom
  case h_3 hfinisher =>
    obtain ⟨c, hclose, rfl⟩ := Attempt.map_eq_goes.mp h
    obtain ⟨-, rfl⟩ := Chan.close_eq_goes.mp hclose
    exact .closeOut hfinisher
  case h_4 => cases h

theorem move_of_printResult (h : printResult s = .goes s') : Move s .print s' := by
  obtain ⟨⟨x, c⟩, hreceive, h⟩ := Attempt.bind_eq_goes.mp h
  rcases Chan.receive_eq_goes.mp hreceive with ⟨resp, rest, hbuffer, rfl, rfl⟩ |
    ⟨hbuffer, hclosed, rfl, rfl⟩
  · cases h
    exact .print hbuffer
  · cases h
    exact .printed hbuffer hclosed

theorem move_of_goes (h : takeTurn s turn = .goes s') : Move s turn s' := by
  cases turn with
  | feed => exact move_of_feed h
  | receive w => exact move_of_receiveUrl h
  | wake w request randInt randTime now => exact move_of_getRespAsync h
  | timeout w => exact move_of_selectDone h
  | accept w request => exact move_of_selectResp h
  | answer w => exact move_of_sendAnswer h
  | expire =>
    cases h
    exact .expire
  | closePool => exact move_of_closePool h
  | readerLeave k => exact move_of_readerLeave h
  | finish => exact move_of_fillOutputChannel h
  | print => exact move_of_printResult h

/-! ### Where a turn panics -/

/-- What the state must look like for a turn to panic. -/
inductive Hazard (s : Checker W) : Prop
  | badPriority {url : Url} {urls : List Url} (hfeeder : s.feeder = .sending (url :: urls))
      (hlane : laneOf url = none)
  | inputClosed {url : Url} {urls : List Url} {k : Fin 3}
      (hfeeder : s.feeder = .sending (url :: urls)) (hclosed : (s.chansInput k).closed = true)
  | inputClosedTwice {k : Fin 3} {lanes : List (Fin 3)} (hfeeder : s.feeder = .closing (k :: lanes))
      (hclosed : (s.chansInput k).closed = true)
  | feederUncounted (hfeeder : s.feeder = .closing []) (hcount : s.poolWait = 0)
  | workerUncounted {w : Fin W} (hphase : (s.workers w).phase = .receiving)
      (hcount : s.poolWait = 0)
  | outputClosed {w : Fin W} {resp : Response} (hphase : (s.workers w).phase = .answering resp)
      (hclosed : (s.chansOutput (lane w)).closed = true)
  | outputClosedTwice {k : Fin 3} {lanes : List (Fin 3)}
      (hcloser : s.closer = .closing (k :: lanes))
      (hclosed : (s.chansOutput k).closed = true)
  | readerUncounted {k : Fin 3} (hreader : s.readerLeft k = false) (hcount : s.mergeWait = 0)
  | outClosed {rest : List Response} (hfinisher : s.finisher = .filling rest)
      (hclosed : s.out.closed = true)

theorem hazard_of_feed (h : feed s = .panics p) : Hazard s := by
  unfold feed at h
  split at h
  case h_1 url urls hfeeder =>
    split at h
    case h_1 hlane => exact .badPriority hfeeder hlane
    case h_2 k hlane =>
      obtain ⟨hclosed, -⟩ := Chan.send_eq_panics.mp (Attempt.map_eq_panics.mp h)
      exact .inputClosed hfeeder hclosed
  case h_2 => cases h
  case h_3 k lanes hfeeder =>
    obtain ⟨hclosed, -⟩ := Chan.close_eq_panics.mp (Attempt.map_eq_panics.mp h)
    exact .inputClosedTwice hfeeder hclosed
  case h_4 hfeeder =>
    obtain ⟨hcount, -⟩ := waitGroupDone_eq_panics.mp (Attempt.map_eq_panics.mp h)
    exact .feederUncounted hfeeder hcount
  case h_5 => cases h

theorem hazard_of_receiveUrl (h : receiveUrl s w = .panics p) : Hazard s := by
  unfold receiveUrl at h
  split at h
  case h_1 hphase =>
    rcases Attempt.bind_eq_panics.mp h with hreceive | ⟨⟨x, c⟩, -, h⟩
    · exact absurd hreceive Chan.receive_ne_panics
    · cases x with
      | some url => cases h
      | none =>
        obtain ⟨hcount, -⟩ := waitGroupDone_eq_panics.mp (Attempt.map_eq_panics.mp h)
        exact .workerUncounted hphase hcount
  case h_2 => cases h

theorem hazard_of_sendAnswer (h : sendAnswer s w = .panics p) : Hazard s := by
  unfold sendAnswer at h
  split at h
  case h_1 resp hphase =>
    obtain ⟨hclosed, -⟩ := Chan.handOver_eq_panics.mp (Attempt.map_eq_panics.mp h)
    exact .outputClosed hphase hclosed
  case h_2 => cases h

theorem hazard_of_closePool (h : closePool s = .panics p) : Hazard s := by
  unfold closePool at h
  split at h
  case h_1 => split at h <;> cases h
  case h_2 k lanes hcloser =>
    obtain ⟨hclosed, -⟩ := Chan.close_eq_panics.mp (Attempt.map_eq_panics.mp h)
    exact .outputClosedTwice hcloser hclosed
  case h_3 => cases h
  case h_4 => cases h

theorem hazard_of_readerLeave {k : Fin 3} (h : readerLeave s k = .panics p) : Hazard s := by
  unfold readerLeave at h
  split at h
  case isTrue => cases h
  case isFalse hreader =>
    split at h
    case isTrue =>
      obtain ⟨hcount, -⟩ := waitGroupDone_eq_panics.mp (Attempt.map_eq_panics.mp h)
      exact .readerUncounted (by simpa using hreader) hcount
    case isFalse => cases h

theorem hazard_of_fillOutputChannel (h : fillOutputChannel s = .panics p) : Hazard s := by
  unfold fillOutputChannel at h
  split at h
  case h_1 => split at h <;> cases h
  case h_2 resp rest hfinisher =>
    split at h
    case isTrue =>
      obtain ⟨hclosed, -⟩ := Chan.handOver_eq_panics.mp (Attempt.map_eq_panics.mp h)
      exact .outClosed hfinisher hclosed
    case isFalse =>
      obtain ⟨hclosed, -⟩ := Chan.send_eq_panics.mp (Attempt.map_eq_panics.mp h)
      exact .outClosed hfinisher hclosed
  case h_3 hfinisher =>
    obtain ⟨hclosed, -⟩ := Chan.close_eq_panics.mp (Attempt.map_eq_panics.mp h)
    exact .outClosed hfinisher hclosed
  case h_4 => cases h

theorem hazard_of_panics (h : takeTurn s turn = .panics p) : Hazard s := by
  cases turn with
  | feed => exact hazard_of_feed h
  | receive w => exact hazard_of_receiveUrl h
  | wake w request randInt randTime now =>
    simp only [takeTurn, getRespAsync] at h
    split at h <;> cases h
  | timeout w =>
    simp only [takeTurn, selectDone] at h
    split at h
    · split at h <;> cases h
    · cases h
  | accept w request =>
    simp only [takeTurn, selectResp] at h
    split at h <;> cases h
  | answer w => exact hazard_of_sendAnswer h
  | expire => cases h
  | closePool => exact hazard_of_closePool h
  | readerLeave k => exact hazard_of_readerLeave h
  | finish => exact hazard_of_fillOutputChannel h
  | print =>
    rcases Attempt.bind_eq_panics.mp h with hreceive | ⟨⟨x, c⟩, -, h⟩
    · exact absurd hreceive Chan.receive_ne_panics
    · cases x <;> cases h

theorem move_of_step (hcalm : ¬ Hazard s) (h : step s turn = some s') : Move s turn s' := by
  unfold step at h
  split at h
  case isTrue => cases h
  case isFalse =>
    split at h
    case h_1 t hgoes =>
      cases h
      exact move_of_goes hgoes
    case h_2 => cases h
    case h_3 p hpanics => exact absurd (hazard_of_panics hpanics) hcalm

end LinuxWorkouts.UrlChecker
