import LinuxWorkouts.Lib.Goroutines
import LinuxWorkouts.Lib.Transition

/-!
`Merge` of `golang/channels/simpleMerge.go`.

`Merge` forwards the values of two channels to one that it returns. A goroutine per input forwards
its values, and a third one waits for both and closes the output. The model has these three, the
reader of the output, and the senders of the inputs, each of which sends its values and then
closes its channel; any number of them may be in the buffers when `Merge` is called. The capacity
of the output is the number of values that were.

A turn of the scheduler takes one goroutine to its next channel or wait group operation. A channel
without a buffer hands a value from its sender to a receiver that is waiting.

`Move` lists what a turn can do, `MergeInv` is the invariant, and `merge_interleaves` is what it is
for: no run panics, and a reader that sees the output closed has received both sequences,
interleaved. `merge_ends` says that every run gets there.
-/

namespace LinuxWorkouts.Channels

open Goroutines Transition Function List

/-! ### The code -/

/-- The two inputs of `Merge`. -/
inductive Side
  | a
  | b
  deriving DecidableEq, Repr

instance : Fintype Side := ⟨{.a, .b}, fun side => by cases side <;> simp⟩

/-- The sender of an input, with the values it still has to send before it closes the channel. -/
inductive Sender (α : Type)
  | sending (values : List α)
  | left

/-- The goroutine that forwards one input: at the head of its loop, in `out <- v`, or behind the
loop, in front of `wg.Done()`. -/
inductive Forwarder (α : Type)
  | receiving
  | sending (v : α)
  | leaving
  | left

/-- The goroutine that closes the output. -/
inductive Closer
  | waiting
  | closing
  | left
  deriving DecidableEq, Repr

structure State (α : Type) where
  senders : Side → Sender α
  inputs : Side → Chan α
  forwarders : Side → Forwarder α
  wg : Nat
  closer : Closer
  out : Chan α
  /-- What the reader of the output has received. -/
  received : List α
  /-- The loop of the reader is over: it has seen the output closed. -/
  readerLeft : Bool
  panicked : Option Panic

/-- What the scheduler does next. -/
inductive Turn
  | send (side : Side)
  | forward (side : Side)
  | close
  | read
  deriving DecidableEq, Repr

variable {α : Type}

def Forwarder.isReceiving : Forwarder α → Bool
  | .receiving => true
  | _ => false

/-- A sender of an input. -/
def sendInput (s : State α) (side : Side) : Attempt (State α) :=
  match s.senders side with
  | .sending (v :: rest) =>
    if (s.inputs side).capacity = 0 then
      ((s.inputs side).handOver (s.forwarders side).isReceiving).map fun _ =>
        { s with
          senders := update s.senders side (.sending rest)
          forwarders := update s.forwarders side (.sending v) }
    else
      ((s.inputs side).send v).map fun c =>
        { s with
          senders := update s.senders side (.sending rest)
          inputs := update s.inputs side c }
  | .sending [] =>
    (s.inputs side).close.map fun c =>
      { s with
        senders := update s.senders side .left
        inputs := update s.inputs side c }
  | .left => .blocked

/-- The loop `for v := range a { out <- v }` and the `wg.Done()` behind it. -/
def forward (s : State α) (side : Side) : Attempt (State α) :=
  match s.forwarders side with
  | .receiving =>
    (s.inputs side).receive.map fun
      | (some v, c) =>
        { s with
          inputs := update s.inputs side c
          forwarders := update s.forwarders side (.sending v) }
      | (none, _) => { s with forwarders := update s.forwarders side .leaving }
  | .sending v =>
    if s.out.capacity = 0 then
      (s.out.handOver !s.readerLeft).map fun _ =>
        { s with
          received := s.received ++ [v]
          forwarders := update s.forwarders side .receiving }
    else
      (s.out.send v).map fun c =>
        { s with
          out := c
          forwarders := update s.forwarders side .receiving }
  | .leaving =>
    (waitGroupDone s.wg).map fun count =>
      { s with
        wg := count
        forwarders := update s.forwarders side .left }
  | .left => .blocked

/-- `wg.Wait()` and `close(out)`. -/
def closeOut (s : State α) : Attempt (State α) :=
  match s.closer with
  | .waiting => if s.wg = 0 then .goes { s with closer := .closing } else .blocked
  | .closing => s.out.close.map fun c => { s with out := c, closer := .left }
  | .left => .blocked

/-- The loop over the output in `main`. -/
def readOut (s : State α) : Attempt (State α) :=
  if s.readerLeft then .blocked
  else
    s.out.receive.map fun
      | (some v, c) => { s with out := c, received := s.received ++ [v] }
      | (none, _) => { s with readerLeft := true }

def takeTurn (s : State α) : Turn → Attempt (State α)
  | .send side => sendInput s side
  | .forward side => forward s side
  | .close => closeOut s
  | .read => readOut s

/-- A turn of a process that still runs. -/
def step (s : State α) (turn : Turn) : Option (State α) :=
  if s.panicked.isSome then none
  else
    match takeTurn s turn with
    | .goes s' => some s'
    | .blocked => none
    | .panics p => some { s with panicked := some p }

/-- An input when `Merge` is called: the channel, and the values that its sender has not sent
yet. -/
structure Input (α : Type) where
  chan : Chan α
  rest : List α
  fits : chan.buffer.length ≤ chan.capacity
  all_sent : chan.closed = true → rest = []

def Input.values (i : Input α) : List α := i.chan.buffer ++ i.rest

/-- `Merge`, with its goroutines started. -/
def merge (inputs : Side → Input α) : State α where
  senders := fun side =>
    if (inputs side).chan.closed then .left else .sending (inputs side).rest
  inputs := fun side => (inputs side).chan
  forwarders := fun _ => .receiving
  wg := 2
  closer := .waiting
  out := .make ((inputs .a).chan.buffer.length + (inputs .b).chan.buffer.length)
  received := []
  readerLeft := false
  panicked := none

/-! ### What a turn can do -/

/-- The turns that go on. -/
inductive Move (s : State α) : Turn → State α → Prop
  | handIn {side : Side} {v : α} {rest : List α} (hsender : s.senders side = .sending (v :: rest))
      (hcapacity : (s.inputs side).capacity = 0) (hforwarder : s.forwarders side = .receiving) :
      Move s (.send side) { s with
        senders := update s.senders side (.sending rest)
        forwarders := update s.forwarders side (.sending v) }
  | sendIn {side : Side} {v : α} {rest : List α} (hsender : s.senders side = .sending (v :: rest))
      (hroom : (s.inputs side).buffer.length < (s.inputs side).capacity) :
      Move s (.send side) { s with
        senders := update s.senders side (.sending rest)
        inputs := update s.inputs side
          ((s.inputs side).withBuffer ((s.inputs side).buffer ++ [v])) }
  | closeIn {side : Side} (hsender : s.senders side = .sending []) :
      Move s (.send side) { s with
        senders := update s.senders side .left
        inputs := update s.inputs side (s.inputs side).asClosed }
  | take {side : Side} {v : α} {rest : List α} (hforwarder : s.forwarders side = .receiving)
      (hbuffer : (s.inputs side).buffer = v :: rest) :
      Move s (.forward side) { s with
        inputs := update s.inputs side ((s.inputs side).withBuffer rest)
        forwarders := update s.forwarders side (.sending v) }
  | inputEnds {side : Side} (hforwarder : s.forwarders side = .receiving)
      (hbuffer : (s.inputs side).buffer = []) (hclosed : (s.inputs side).closed = true) :
      Move s (.forward side) { s with
        forwarders := update s.forwarders side .leaving }
  | handOut {side : Side} {v : α} (hforwarder : s.forwarders side = .sending v)
      (hcapacity : s.out.capacity = 0) (hreader : s.readerLeft = false) :
      Move s (.forward side) { s with
        received := s.received ++ [v]
        forwarders := update s.forwarders side .receiving }
  | sendOut {side : Side} {v : α} (hforwarder : s.forwarders side = .sending v)
      (hroom : s.out.buffer.length < s.out.capacity) :
      Move s (.forward side) { s with
        out := s.out.withBuffer (s.out.buffer ++ [v])
        forwarders := update s.forwarders side .receiving }
  | done {side : Side} {count : Nat} (hforwarder : s.forwarders side = .leaving)
      (hcount : s.wg = count + 1) :
      Move s (.forward side) { s with
        wg := count
        forwarders := update s.forwarders side .left }
  | waitOver (hcloser : s.closer = .waiting) (hwg : s.wg = 0) :
      Move s .close { s with closer := .closing }
  | closeOut (hcloser : s.closer = .closing) :
      Move s .close { s with out := s.out.asClosed, closer := .left }
  | readOut {v : α} {rest : List α} (hreader : s.readerLeft = false)
      (hbuffer : s.out.buffer = v :: rest) :
      Move s .read { s with out := s.out.withBuffer rest, received := s.received ++ [v] }
  | outputEnds (hreader : s.readerLeft = false) (hbuffer : s.out.buffer = [])
      (hclosed : s.out.closed = true) : Move s .read { s with readerLeft := true }

section Moves

variable {s s' : State α} {side : Side} {turn : Turn} {p : Panic}

theorem Forwarder.isReceiving_iff {f : Forwarder α} : f.isReceiving = true ↔ f = .receiving := by
  cases f <;> simp [isReceiving]

theorem move_of_sendInput (h : sendInput s side = .goes s') : Move s (.send side) s' := by
  unfold sendInput at h
  split at h
  case h_1 v rest hsender =>
    split at h
    case isTrue hcapacity =>
      obtain ⟨u, hhand, rfl⟩ := Attempt.map_eq_goes.mp h
      obtain ⟨-, hwaiting⟩ := Chan.handOver_eq_goes.mp hhand
      exact .handIn hsender hcapacity (Forwarder.isReceiving_iff.mp hwaiting)
    case isFalse =>
      obtain ⟨c, hsend, rfl⟩ := Attempt.map_eq_goes.mp h
      obtain ⟨-, hroom, rfl⟩ := Chan.send_eq_goes.mp hsend
      exact .sendIn hsender hroom
  case h_2 hsender =>
    obtain ⟨c, hclose, rfl⟩ := Attempt.map_eq_goes.mp h
    obtain ⟨-, rfl⟩ := Chan.close_eq_goes.mp hclose
    exact .closeIn hsender
  case h_3 => cases h

theorem move_of_forward (h : forward s side = .goes s') : Move s (.forward side) s' := by
  unfold forward at h
  split at h
  case h_1 hforwarder =>
    obtain ⟨⟨x, c⟩, hreceive, rfl⟩ := Attempt.map_eq_goes.mp h
    rcases Chan.receive_eq_goes.mp hreceive with ⟨v, rest, hbuffer, rfl, rfl⟩ |
      ⟨hbuffer, hclosed, rfl, -⟩
    · exact .take hforwarder hbuffer
    · exact .inputEnds hforwarder hbuffer hclosed
  case h_2 v hforwarder =>
    split at h
    case isTrue hcapacity =>
      obtain ⟨u, hhand, rfl⟩ := Attempt.map_eq_goes.mp h
      obtain ⟨-, hreader⟩ := Chan.handOver_eq_goes.mp hhand
      exact .handOut hforwarder hcapacity (by simpa using hreader)
    case isFalse =>
      obtain ⟨c, hsend, rfl⟩ := Attempt.map_eq_goes.mp h
      obtain ⟨-, hroom, rfl⟩ := Chan.send_eq_goes.mp hsend
      exact .sendOut hforwarder hroom
  case h_3 hforwarder =>
    obtain ⟨count, hdone, rfl⟩ := Attempt.map_eq_goes.mp h
    exact .done hforwarder (waitGroupDone_eq_goes.mp hdone)
  case h_4 => cases h

theorem move_of_closeOut (h : closeOut s = .goes s') : Move s .close s' := by
  unfold closeOut at h
  split at h
  case h_1 hcloser =>
    split at h
    case isTrue hwg =>
      cases h
      exact .waitOver hcloser hwg
    case isFalse => cases h
  case h_2 hcloser =>
    obtain ⟨c, hclose, rfl⟩ := Attempt.map_eq_goes.mp h
    obtain ⟨-, rfl⟩ := Chan.close_eq_goes.mp hclose
    exact .closeOut hcloser
  case h_3 => cases h

theorem move_of_readOut (h : readOut s = .goes s') : Move s .read s' := by
  unfold readOut at h
  split at h
  case isTrue => cases h
  case isFalse hreader =>
    have hreader : s.readerLeft = false := by simpa using hreader
    obtain ⟨⟨x, c⟩, hreceive, rfl⟩ := Attempt.map_eq_goes.mp h
    rcases Chan.receive_eq_goes.mp hreceive with ⟨v, rest, hbuffer, rfl, rfl⟩ |
      ⟨hbuffer, hclosed, rfl, -⟩
    · exact .readOut hreader hbuffer
    · exact .outputEnds hreader hbuffer hclosed

theorem move_of_goes (h : takeTurn s turn = .goes s') : Move s turn s' := by
  cases turn with
  | send side => exact move_of_sendInput h
  | forward side => exact move_of_forward h
  | close => exact move_of_closeOut h
  | read => exact move_of_readOut h

/-- What the state must look like for a turn to panic. -/
inductive Hazard (s : State α) : Prop
  | closedInput {side : Side} {values : List α} : s.senders side = .sending values →
      (s.inputs side).closed = true → Hazard s
  | closedOutput {side : Side} {v : α} :
      s.forwarders side = .sending v → s.out.closed = true → Hazard s
  | noCount {side : Side} : s.forwarders side = .leaving → s.wg = 0 → Hazard s
  | closedTwice : s.closer = .closing → s.out.closed = true → Hazard s

theorem hazard_of_panics (h : takeTurn s turn = .panics p) : Hazard s := by
  cases turn with
  | send side =>
    simp only [takeTurn, sendInput] at h
    split at h
    case h_1 v rest hsender =>
      split at h
      · exact .closedInput hsender (Chan.handOver_eq_panics.mp (Attempt.map_eq_panics.mp h)).1
      · exact .closedInput hsender (Chan.send_eq_panics.mp (Attempt.map_eq_panics.mp h)).1
    case h_2 hsender =>
      exact .closedInput hsender (Chan.close_eq_panics.mp (Attempt.map_eq_panics.mp h)).1
    case h_3 => cases h
  | forward side =>
    simp only [takeTurn, forward] at h
    split at h
    case h_1 => exact absurd (Attempt.map_eq_panics.mp h) Chan.receive_ne_panics
    case h_2 v hforwarder =>
      split at h
      · exact .closedOutput hforwarder (Chan.handOver_eq_panics.mp (Attempt.map_eq_panics.mp h)).1
      · exact .closedOutput hforwarder (Chan.send_eq_panics.mp (Attempt.map_eq_panics.mp h)).1
    case h_3 hforwarder =>
      exact .noCount hforwarder (waitGroupDone_eq_panics.mp (Attempt.map_eq_panics.mp h)).1
    case h_4 => cases h
  | close =>
    simp only [takeTurn, Channels.closeOut] at h
    split at h
    case h_1 =>
      split at h
      · cases h
      · cases h
    case h_2 hcloser =>
      exact .closedTwice hcloser (Chan.close_eq_panics.mp (Attempt.map_eq_panics.mp h)).1
    case h_3 => cases h
  | read =>
    simp only [takeTurn, Channels.readOut] at h
    split at h
    · cases h
    · exact absurd (Attempt.map_eq_panics.mp h) Chan.receive_ne_panics

theorem step_cases (h : step s turn = some s') :
    s.panicked = none ∧ (Move s turn s' ∨ Hazard s ∧ ∃ p, s' = { s with panicked := some p }) := by
  unfold step at h
  split at h
  case isTrue => cases h
  case isFalse hrun =>
    refine ⟨by simpa using hrun, ?_⟩
    split at h
    case h_1 s₁ hgoes =>
      cases h
      exact .inl (move_of_goes hgoes)
    case h_2 => cases h
    case h_3 p hpanics =>
      cases h
      exact .inr ⟨hazard_of_panics hpanics, p, rfl⟩

end Moves

/-! ### The invariant -/

def Forwarder.inHand : Forwarder α → List α
  | .sending v => [v]
  | _ => []

def Forwarder.running : Forwarder α → Nat
  | .left => 0
  | _ => 1

def Sender.values : Sender α → List α
  | .sending values => values
  | .left => []

/-- One input: `sent` are the values that its forwarder has passed on, and the others are on their
way. A forwarder behind its loop has seen the channel closed and empty. -/
structure LaneOk (values : List α) (sender : Sender α) (c : Chan α) (forwarder : Forwarder α)
    (sent : List α) : Prop where
  values : sent ++ forwarder.inHand ++ c.buffer ++ sender.values = values
  fits : c.buffer.length ≤ c.capacity
  closed : c.closed = true ↔ sender = .left
  ended : forwarder = .leaving ∨ forwarder = .left → c.closed = true ∧ c.buffer = []

/-- The invariant of `Merge`, with the sequences of both inputs and what was passed on of them. -/
structure MergeInv (values : Side → List α) (s : State α) (sent : Side → List α) : Prop where
  lanes : ∀ side, LaneOk (values side) (s.senders side) (s.inputs side) (s.forwarders side)
    (sent side)
  merged : Interleaving sent (s.received ++ s.out.buffer)
  outFits : s.out.buffer.length ≤ s.out.capacity
  count : s.wg = ∑ side, (s.forwarders side).running
  waits : s.closer ≠ .waiting → s.wg = 0
  outClosed : s.out.closed = true ↔ s.closer = .left
  reader : s.readerLeft = true → s.out.closed = true ∧ s.out.buffer = []
  panicked : s.panicked = none

section Lane

variable {values sent rest : List α} {sender : Sender α} {c : Chan α} {forwarder : Forwarder α}
  {v : α}

theorem LaneOk.open {xs : List α} (h : LaneOk values (.sending xs) c forwarder sent) :
    c.closed = false := by
  by_contra hclosed
  cases h.closed.mp (by simpa using hclosed)

theorem LaneOk.handIn (h : LaneOk values (.sending (v :: rest)) c .receiving sent)
    (hcapacity : c.capacity = 0) : LaneOk values (.sending rest) c (.sending v) sent where
  values := by
    have hempty : c.buffer = [] := length_eq_zero_iff.mp (by have := h.fits; omega)
    simpa [Forwarder.inHand, Sender.values, hempty] using h.values
  fits := h.fits
  closed := by simp [h.open]
  ended := by simp

theorem LaneOk.sendIn (h : LaneOk values (.sending (v :: rest)) c forwarder sent)
    (hroom : c.buffer.length < c.capacity) :
    LaneOk values (.sending rest) (c.withBuffer (c.buffer ++ [v])) forwarder sent where
  values := by simpa [Sender.values] using h.values
  fits := by simpa using hroom
  closed := by simp [h.open]
  ended hforwarder := by
    have hclosed := (h.ended hforwarder).1
    simp [h.open] at hclosed

theorem LaneOk.closeIn (h : LaneOk values (.sending []) c forwarder sent) :
    LaneOk values .left c.asClosed forwarder sent where
  values := by simpa [Sender.values] using h.values
  fits := h.fits
  closed := by simp
  ended hforwarder := ⟨rfl, (h.ended hforwarder).2⟩

theorem LaneOk.take (h : LaneOk values sender c .receiving sent) (hbuffer : c.buffer = v :: rest) :
    LaneOk values sender (c.withBuffer rest) (.sending v) sent where
  values := by simpa [Forwarder.inHand, hbuffer] using h.values
  fits := by
    have hfits := h.fits
    rw [hbuffer, length_cons] at hfits
    simp only [Chan.withBuffer_buffer, Chan.withBuffer_capacity]
    omega
  closed := h.closed
  ended := by simp

theorem LaneOk.inputEnds (h : LaneOk values sender c .receiving sent) (hbuffer : c.buffer = [])
    (hclosed : c.closed = true) : LaneOk values sender c .leaving sent where
  values := h.values
  fits := h.fits
  closed := h.closed
  ended _ := ⟨hclosed, hbuffer⟩

theorem LaneOk.pass (h : LaneOk values sender c (.sending v) sent) :
    LaneOk values sender c .receiving (sent ++ [v]) where
  values := by simpa [Forwarder.inHand] using h.values
  fits := h.fits
  closed := h.closed
  ended := by simp

theorem LaneOk.done (h : LaneOk values sender c .leaving sent) :
    LaneOk values sender c .left sent where
  values := h.values
  fits := h.fits
  closed := h.closed
  ended _ := h.ended (.inl rfl)

theorem LaneOk.complete (h : LaneOk values sender c .left sent) : sent = values := by
  obtain ⟨hclosed, hbuffer⟩ := h.ended (.inr rfl)
  have hvalues := h.values
  rw [h.closed.mp hclosed, hbuffer] at hvalues
  simpa [Forwarder.inHand, Sender.values] using hvalues

end Lane

section Invariant

variable {values sent : Side → List α} {s s' : State α} {side : Side} {turn : Turn}

section

variable (hi : MergeInv values s sent)
include hi

theorem MergeInv.open_of_running (side : Side) (hrun : (s.forwarders side).running = 1) :
    0 < s.wg ∧ s.closer = .waiting ∧ s.out.closed = false := by
  have hle : (s.forwarders side).running ≤ ∑ j, (s.forwarders j).running :=
    Finset.single_le_sum (f := fun j => (s.forwarders j).running) (fun _ _ => Nat.zero_le _)
      (Finset.mem_univ side)
  have hpos : 0 < s.wg := by
    rw [hi.count]
    omega
  have hwaiting : s.closer = .waiting := by
    by_contra hne
    exact absurd (hi.waits hne) (by omega)
  refine ⟨hpos, hwaiting, ?_⟩
  by_contra hclosed
  have hleft := hi.outClosed.mp (by simpa using hclosed)
  rw [hwaiting] at hleft
  cases hleft

theorem MergeInv.no_hazard : ¬ Hazard s := by
  rintro (⟨hsender, hclosed⟩ | ⟨hforwarder, hclosed⟩ | ⟨hforwarder, hzero⟩ | ⟨hcloser, hclosed⟩)
  · rw [(hi.lanes _).closed, hsender] at hclosed
    cases hclosed
  · have hopen := (hi.open_of_running _ (by rw [hforwarder]; rfl)).2.2
    rw [hopen] at hclosed
    cases hclosed
  · have hpos := (hi.open_of_running _ (by rw [hforwarder]; rfl)).1
    omega
  · rw [hi.outClosed, hcloser] at hclosed
    cases hclosed

theorem MergeInv.count_same {f : Forwarder α} (h : f.running = (s.forwarders side).running) :
    s.wg = ∑ j, (update s.forwarders side f j).running :=
  hi.count.trans (sum_update_same (g := Forwarder.running) h).symm

theorem MergeInv.lanes_update {sender : Sender α} {c : Chan α} {forwarder : Forwarder α}
    {xs : List α} (hnew : LaneOk (values side) sender c forwarder xs) (j : Side) :
    LaneOk (values j) (update s.senders side sender j) (update s.inputs side c j)
      (update s.forwarders side forwarder j) (update sent side xs j) := by
  by_cases hj : j = side
  · subst hj
    simpa using hnew
  · simpa [hj] using hi.lanes j

theorem MergeInv.inLane {sender : Sender α} {c : Chan α} {forwarder : Forwarder α}
    (hnew : LaneOk (values side) sender c forwarder (sent side))
    (hrun : forwarder.running = (s.forwarders side).running) :
    MergeInv values { s with
      senders := update s.senders side sender
      inputs := update s.inputs side c
      forwarders := update s.forwarders side forwarder } sent where
  lanes j := by
    have hlanes := hi.lanes_update hnew j
    rwa [update_eq_self] at hlanes
  merged := hi.merged
  outFits := hi.outFits
  count := hi.count_same hrun
  waits := hi.waits
  outClosed := hi.outClosed
  reader := hi.reader
  panicked := hi.panicked

theorem MergeInv.pass {v : α} (hforwarder : s.forwarders side = .sending v) :
    (∀ j, LaneOk (values j) (s.senders j) (s.inputs j)
        (update s.forwarders side .receiving j)
        (update sent side (sent side ++ [v]) j)) ∧
      Interleaving (update sent side (sent side ++ [v]))
        (s.received ++ s.out.buffer ++ [v]) ∧
      s.wg = ∑ j, (update s.forwarders side .receiving j).running := by
  refine ⟨fun j => ?_, hi.merged.concat side v, hi.count_same (by rw [hforwarder]; rfl)⟩
  have hlane := hi.lanes side
  rw [hforwarder] at hlane
  have hlanes := hi.lanes_update hlane.pass j
  rwa [update_eq_self, update_eq_self] at hlanes

theorem MergeInv.move (h : Move s turn s') : ∃ sent', MergeInv values s' sent' := by
  cases h with
  | @handIn side v rest hsender hcapacity hforwarder =>
    have hlane := hi.lanes side
    rw [hsender, hforwarder] at hlane
    have hnew := hi.inLane (hlane.handIn hcapacity) (by rw [hforwarder]; rfl)
    rw [update_eq_self] at hnew
    exact ⟨sent, hnew⟩
  | @sendIn side v rest hsender hroom =>
    have hlane := hi.lanes side
    rw [hsender] at hlane
    have hnew := hi.inLane (hlane.sendIn hroom) rfl
    rw [update_eq_self] at hnew
    exact ⟨sent, hnew⟩
  | @closeIn side hsender =>
    have hlane := hi.lanes side
    rw [hsender] at hlane
    have hnew := hi.inLane hlane.closeIn rfl
    rw [update_eq_self] at hnew
    exact ⟨sent, hnew⟩
  | @take side v rest hforwarder hbuffer =>
    have hlane := hi.lanes side
    rw [hforwarder] at hlane
    have hnew := hi.inLane (hlane.take hbuffer) (by rw [hforwarder]; rfl)
    rw [update_eq_self] at hnew
    exact ⟨sent, hnew⟩
  | @inputEnds side hforwarder hbuffer hclosed =>
    have hlane := hi.lanes side
    rw [hforwarder] at hlane
    have hnew := hi.inLane (hlane.inputEnds hbuffer hclosed) (by rw [hforwarder]; rfl)
    rw [update_eq_self, update_eq_self] at hnew
    exact ⟨sent, hnew⟩
  | @handOut side v hforwarder hcapacity hreader =>
    -- without a buffer nothing is on its way to the reader
    have hempty : s.out.buffer = [] := length_eq_zero_iff.mp (by have := hi.outFits; omega)
    obtain ⟨hlanes, hmerged, hcount⟩ := hi.pass hforwarder
    refine ⟨_, hlanes, ?_, hi.outFits, hcount, hi.waits, hi.outClosed, hi.reader, hi.panicked⟩
    simpa [hempty] using hmerged
  | @sendOut side v hforwarder hroom =>
    obtain ⟨hlanes, hmerged, hcount⟩ := hi.pass hforwarder
    have hopen := (hi.open_of_running side (by rw [hforwarder]; rfl)).2.2
    refine ⟨_, hlanes, ?_, ?_, hcount, hi.waits, hi.outClosed, fun hleft => ?_, hi.panicked⟩
    · rw [append_assoc] at hmerged
      exact hmerged
    · simpa using hroom
    · have hclosed := (hi.reader hleft).1
      rw [hopen] at hclosed
      cases hclosed
  | @done side count hforwarder hcount =>
    have hlane := hi.lanes side
    rw [hforwarder] at hlane
    have hwaiting := (hi.open_of_running side (by rw [hforwarder]; rfl)).2.1
    refine ⟨sent, fun j => ?_, hi.merged, hi.outFits, ?_, fun hne => absurd hwaiting hne,
      hi.outClosed, hi.reader, hi.panicked⟩
    · have hlanes := hi.lanes_update hlane.done j
      rwa [update_eq_self, update_eq_self, update_eq_self] at hlanes
    · have hsum := sum_update_sub (g := Forwarder.running) (f := s.forwarders) (i := side)
        (b := .left) (m := 1) (by rw [hforwarder]; rfl)
      rw [← hi.count, hcount] at hsum
      exact Nat.add_right_cancel hsum
  | waitOver hcloser hwg =>
    exact ⟨sent, hi.lanes, hi.merged, hi.outFits, hi.count, fun _ => hwg,
      by simp [hi.outClosed, hcloser], hi.reader, hi.panicked⟩
  | closeOut hcloser =>
    have hwg : s.wg = 0 := hi.waits (by simp [hcloser])
    exact ⟨sent, hi.lanes, hi.merged, hi.outFits, hi.count, fun _ => hwg, by simp,
      fun hleft => ⟨rfl, (hi.reader hleft).2⟩, hi.panicked⟩
  | @readOut v rest hreader hbuffer =>
    refine ⟨sent, hi.lanes, ?_, ?_, hi.count, hi.waits, hi.outClosed, fun hleft => ?_, hi.panicked⟩
    · have hmerged := hi.merged
      rw [hbuffer] at hmerged
      simpa using hmerged
    · have hfits := hi.outFits
      rw [hbuffer, length_cons] at hfits
      simp only [Chan.withBuffer_buffer, Chan.withBuffer_capacity]
      omega
    · simp [hreader] at hleft
  | outputEnds hreader hbuffer hclosed =>
    exact ⟨sent, hi.lanes, hi.merged, hi.outFits, hi.count, hi.waits, hi.outClosed,
      fun _ => ⟨hclosed, hbuffer⟩, hi.panicked⟩

theorem MergeInv.step (h : step s turn = some s') : ∃ sent', MergeInv values s' sent' := by
  rcases (step_cases h).2 with hmove | ⟨hhazard, -⟩
  · exact hi.move hmove
  · exact absurd hhazard hi.no_hazard

end

theorem merge_inv (inputs : Side → Input α) :
    MergeInv (fun side => (inputs side).values) (merge inputs) fun _ => [] where
  lanes side := by
    refine ⟨?_, (inputs side).fits, ?_, by simp [merge]⟩
    · by_cases hclosed : (inputs side).chan.closed
      · simp [merge, hclosed, Forwarder.inHand, Sender.values, Input.values,
          (inputs side).all_sent hclosed]
      · simp [merge, hclosed, Forwarder.inHand, Sender.values, Input.values]
    · by_cases hclosed : (inputs side).chan.closed <;> simp [merge, hclosed]
  merged := .nil
  outFits := Nat.zero_le _
  count := rfl
  waits := by simp [merge]
  outClosed := by simp [merge, Chan.make]
  reader := by simp [merge]
  panicked := rfl

theorem MergeInv.left_of_closed (hi : MergeInv values s sent) (hclosed : s.out.closed = true)
    (side : Side) : s.forwarders side = .left := by
  have hopen := fun hrun => (hi.open_of_running side hrun).2.2
  rw [hclosed] at hopen
  cases hforwarder : s.forwarders side with
  | left => rfl
  | receiving => cases hopen (by rw [hforwarder]; rfl)
  | sending v => cases hopen (by rw [hforwarder]; rfl)
  | leaving => cases hopen (by rw [hforwarder]; rfl)

theorem MergeInv.complete (hi : MergeInv values s sent) (hleft : s.readerLeft = true) :
    Interleaving values s.received := by
  obtain ⟨hclosed, hbuffer⟩ := hi.reader hleft
  have hall : sent = values := by
    funext side
    have hlane := hi.lanes side
    rw [hi.left_of_closed hclosed side] at hlane
    exact hlane.complete
  have hmerged := hi.merged
  rwa [hall, hbuffer, append_nil] at hmerged

end Invariant

/-- **`Merge`, whatever the schedule.** For all inputs and in every state of every run: nothing has
panicked, in particular no value was sent on the closed output; no forwarder is left once the
output is closed; and when the reader has seen it closed, what it received is both sequences,
interleaved: each value once, those of an input in its order. -/
theorem merge_interleaves (inputs : Side → Input α) (turns : List Turn) :
    Always step (fun s => s.panicked = none ∧
      (s.out.closed = true → ∀ side, s.forwarders side = .left) ∧
      (s.readerLeft = true → Interleaving (fun side => (inputs side).values) s.received))
      (merge inputs) turns := by
  have hinv : Always step (fun s => ∃ sent, MergeInv (fun side => (inputs side).values) s sent)
      (merge inputs) turns :=
    always_of_step turns (fun s turn s' ⟨_, hi⟩ h => hi.step h) ⟨_, merge_inv inputs⟩
  exact hinv.imp fun s ⟨_, hi⟩ => ⟨hi.panicked, hi.left_of_closed, hi.complete⟩

/-! ### Every run ends -/

/-- The turns that a forwarder, a sender and the closer still take at most, not counting the
values. -/
def Forwarder.turns : Forwarder α → Nat
  | .receiving => 2
  | .sending _ => 4
  | .leaving => 1
  | .left => 0

def Sender.turns : Sender α → Nat
  | .sending values => 4 * values.length + 1
  | .left => 0

def Closer.turns : Closer → Nat
  | .waiting => 2
  | .closing => 1
  | .left => 0

/-- A bound on the turns that are left. A value counts less the further it has come. -/
def turnsLeft (s : State α) : Nat :=
  ∑ side, (s.senders side).turns + ∑ side, 3 * (s.inputs side).buffer.length +
    ∑ side, (s.forwarders side).turns + s.closer.turns + s.out.buffer.length +
    if s.readerLeft then 0 else 1

section Ends

variable {values sent : Side → List α} {s s' : State α} {side : Side} {turn : Turn}

theorem senders_turns (s : State α) (side : Side) (x : Sender α) (m : Nat)
    (h : (s.senders side).turns = x.turns + m) :
    ∑ j, (s.senders j).turns = ∑ j, (update s.senders side x j).turns + m :=
  sum_update_sub (g := Sender.turns) h

theorem forwarders_turns (s : State α) (side : Side) (f : Forwarder α) (m : Nat)
    (h : (s.forwarders side).turns = f.turns + m) :
    ∑ j, (s.forwarders j).turns = ∑ j, (update s.forwarders side f j).turns + m :=
  sum_update_sub (g := Forwarder.turns) h

theorem forwarders_turns_add (s : State α) (side : Side) (f : Forwarder α) (m : Nat)
    (h : f.turns = (s.forwarders side).turns + m) :
    ∑ j, (update s.forwarders side f j).turns = ∑ j, (s.forwarders j).turns + m :=
  sum_update_add (g := Forwarder.turns) h

theorem Move.turnsLeft_lt (h : Move s turn s') : turnsLeft s' < turnsLeft s := by
  cases h with
  | @handIn side v rest hsender _ hforwarder =>
    have h1 := senders_turns s side (.sending rest) 4
      (by simp [hsender, Sender.turns]; omega)
    have h2 := forwarders_turns_add s side (.sending v) 2
      (by simp [hforwarder, Forwarder.turns])
    simp only [turnsLeft]
    omega
  | @sendIn side v rest hsender _ =>
    have h1 := senders_turns s side (.sending rest) 4
      (by simp [hsender, Sender.turns]; omega)
    have h2 := sum_update_add (g := fun c : Chan α => 3 * c.buffer.length) (f := s.inputs)
      (i := side) (b := (s.inputs side).withBuffer ((s.inputs side).buffer ++ [v])) (m := 3)
      (by simp; omega)
    simp only [turnsLeft]
    omega
  | @closeIn side hsender =>
    have h1 := senders_turns s side .left 1
      (by simp [hsender, Sender.turns])
    have h2 := sum_update_same (g := fun c : Chan α => 3 * c.buffer.length) (f := s.inputs)
      (i := side) (b := (s.inputs side).asClosed) (by simp)
    simp only [turnsLeft]
    omega
  | @take side v rest hforwarder hbuffer =>
    have h1 := sum_update_sub (g := fun c : Chan α => 3 * c.buffer.length) (f := s.inputs)
      (i := side) (b := (s.inputs side).withBuffer rest) (m := 3) (by simp [hbuffer]; omega)
    have h2 := forwarders_turns_add s side (.sending v) 2
      (by simp [hforwarder, Forwarder.turns])
    simp only [turnsLeft]
    omega
  | @inputEnds side hforwarder _ _ =>
    have h1 := forwarders_turns s side .leaving 1
      (by simp [hforwarder, Forwarder.turns])
    simp only [turnsLeft]
    omega
  | @handOut side v hforwarder _ _ =>
    have h1 := forwarders_turns s side .receiving 2
      (by simp [hforwarder, Forwarder.turns])
    simp only [turnsLeft]
    omega
  | @sendOut side v hforwarder _ =>
    have h1 := forwarders_turns s side .receiving 2
      (by simp [hforwarder, Forwarder.turns])
    simp only [turnsLeft, Chan.withBuffer_buffer, length_append, length_singleton]
    omega
  | @done side count hforwarder _ =>
    have h1 := forwarders_turns s side .left 1
      (by simp [hforwarder, Forwarder.turns])
    simp only [turnsLeft]
    omega
  | waitOver hcloser _ =>
    simp only [turnsLeft, hcloser, Closer.turns]
    omega
  | closeOut hcloser =>
    simp only [turnsLeft, hcloser, Closer.turns, Chan.asClosed_buffer]
    omega
  | readOut hreader hbuffer =>
    simp only [turnsLeft, hbuffer, Chan.withBuffer_buffer, length_cons]
    omega
  | outputEnds hreader _ _ =>
    simp only [turnsLeft, hreader]
    simp

theorem LaneOk.goes_on (h : LaneOk (values side) (s.senders side) (s.inputs side)
    (s.forwarders side) (sent side)) (hforwarder : s.forwarders side = .receiving) :
    takeTurn s (.forward side) ≠ .blocked ∨ takeTurn s (.send side) ≠ .blocked := by
  cases hbuffer : (s.inputs side).buffer with
  | cons v rest =>
    left
    simp [takeTurn, forward, hforwarder, Chan.receive, hbuffer, Attempt.map, Attempt.bind]
  | nil =>
    by_cases hclosed : (s.inputs side).closed = true
    · left
      simp [takeTurn, forward, hforwarder, Chan.receive, hbuffer, hclosed, Attempt.map,
        Attempt.bind]
    · right
      cases hsender : s.senders side with
      | left => exact absurd (h.closed.mpr hsender) hclosed
      | sending xs =>
        cases xs with
        | nil =>
          simp [takeTurn, sendInput, hsender, Chan.close, hclosed, Attempt.map, Attempt.bind]
        | cons v rest =>
          by_cases hcapacity : (s.inputs side).capacity = 0
          · simp [takeTurn, sendInput, hsender, hcapacity, hforwarder, Forwarder.isReceiving,
              Chan.handOver, hclosed, Attempt.map, Attempt.bind]
          · have hroom : 0 < (s.inputs side).capacity := Nat.pos_of_ne_zero hcapacity
            simp [takeTurn, sendInput, hsender, hcapacity, Chan.send, hclosed, hbuffer, hroom,
              Attempt.map, Attempt.bind]

theorem MergeInv.goes_on (hi : MergeInv values s sent) (hreader : s.readerLeft = false) :
    ∃ turn, takeTurn s turn ≠ .blocked := by
  cases hbuffer : s.out.buffer with
  | cons v rest =>
    refine ⟨.read, ?_⟩
    simp [takeTurn, readOut, hreader, Chan.receive, hbuffer, Attempt.map, Attempt.bind]
  | nil =>
    by_cases hclosed : s.out.closed = true
    · refine ⟨.read, ?_⟩
      simp [takeTurn, readOut, hreader, Chan.receive, hbuffer, hclosed, Attempt.map, Attempt.bind]
    cases hcloser : s.closer with
    | left => exact absurd (hi.outClosed.mpr hcloser) hclosed
    | closing =>
      refine ⟨.close, ?_⟩
      simp [takeTurn, closeOut, hcloser, Chan.close, hclosed, Attempt.map, Attempt.bind]
    | waiting =>
      by_cases hwg : s.wg = 0
      · refine ⟨.close, ?_⟩
        simp [takeTurn, closeOut, hcloser, hwg]
      -- a forwarder is still running
      have hsum : ∑ side, (s.forwarders side).running ≠ 0 := hi.count ▸ hwg
      obtain ⟨side, -, hrun⟩ := Finset.exists_ne_zero_of_sum_ne_zero hsum
      cases hforwarder : s.forwarders side with
      | left => simp [hforwarder, Forwarder.running] at hrun
      | leaving =>
        refine ⟨.forward side, ?_⟩
        obtain ⟨count, hcount⟩ := Nat.exists_eq_succ_of_ne_zero hwg
        simp [takeTurn, forward, hforwarder, hcount, waitGroupDone, Attempt.map, Attempt.bind]
      | receiving =>
        rcases (hi.lanes side).goes_on hforwarder with h | h
        · exact ⟨_, h⟩
        · exact ⟨_, h⟩
      | sending v =>
        refine ⟨.forward side, ?_⟩
        by_cases hcapacity : s.out.capacity = 0
        · simp [takeTurn, forward, hforwarder, hcapacity, Chan.handOver, hclosed, hreader,
            Attempt.map, Attempt.bind]
        · have hroom : 0 < s.out.capacity := Nat.pos_of_ne_zero hcapacity
          simp [takeTurn, forward, hforwarder, hcapacity, Chan.send, hclosed, hbuffer, hroom,
            Attempt.map, Attempt.bind]

/-- **Every run ends.** However the goroutines are scheduled, there are only so many turns, and
when none is left the reader has seen the output closed. -/
theorem merge_ends (inputs : Side → Input α) :
    Ends step (fun _ _ => True) (fun s => s.readerLeft = true) (merge inputs) := by
  have hstep : ∀ s turn s', (∃ sent, MergeInv (fun side => (inputs side).values) s sent) → True →
      step s turn = some s' →
      (∃ sent, MergeInv (fun side => (inputs side).values) s' sent) ∧
        turnsLeft s' < turnsLeft s := by
    rintro s turn s' ⟨sent, hi⟩ - h
    refine ⟨hi.step h, ?_⟩
    rcases (step_cases h).2 with hmove | ⟨hhazard, -⟩
    · exact hmove.turnsLeft_lt
    · exact absurd hhazard hi.no_hazard
  refine ends_of_rank hstep ?_ ⟨_, merge_inv inputs⟩
  · rintro s ⟨sent, hi⟩ hstuck
    by_contra hreader
    obtain ⟨turn, hturn⟩ := hi.goes_on (by simpa using hreader)
    have hnone := hstuck turn trivial
    rw [step, hi.panicked] at hnone
    cases hgoes : takeTurn s turn with
    | goes s' => simp [hgoes] at hnone
    | blocked => exact hturn hgoes
    | panics p => simp [hgoes] at hnone

end Ends

end LinuxWorkouts.Channels
