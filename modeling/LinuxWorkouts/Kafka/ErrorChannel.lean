import LinuxWorkouts.Kafka.Consumer

/-!
The error channel of the consumer.

`mainLoop` closes `errCh` in its deferred function without waiting for the stores it started, and
`main` waits for the wait group only afterwards. A store that fails later sends on the closed
channel, which ends the process with a panic. `no_send_after_close_iff` says for which runs this
does not happen: those in which, when the channel is closed, no store has an error left to send,
and in which no store fails after that.
-/

namespace LinuxWorkouts.Kafka

open Goroutines Transition

def Store.isSending (store : Store) : Bool :=
  match store.phase with
  | .sending _ => true
  | _ => false

/-- No goroutine has sent on the closed channel, and none is about to: a store that stands at
its send when the channel is closed panics there. -/
def NoSendAfterClose (s : Consumer) : Prop :=
  s.panicked ≠ some .sendOnClosed ∧
    (s.errCh.closed = true → ∀ store ∈ s.stores, store.isSending = false)

/-- The condition on a turn: `errCh` is closed when no store is at its send, and
`StoreButtonEvents` succeeds in the stores that return later. -/
def ErrorsReported (s : Consumer) : Turn → Prop
  | .deferred => s.loop = .closingErrCh → ∀ store ∈ s.stores, store.isSending = false
  | .storeReturns i db =>
    s.errCh.closed = true → ∀ store ∈ s.stores[i]?, (storeButtonEvents db store.beBatch).2 = none
  | _ => True

instance decidableErrorsReported (s : Consumer) (turn : Turn) :
    Decidable (ErrorsReported s turn) := by
  unfold ErrorsReported
  split <;> infer_instance

/-- What holds at all times while the condition is met. -/
structure Reported (s : Consumer) : Prop where
  closed : s.errCh.closed = true → s.loop = .leaving ∨ s.loop = .left
  unwinding : s.unwinding ≠ some .sendOnClosed
  safe : NoSendAfterClose s

section Safety

variable {s s' : Consumer} {turn : Turn} {turns : List Turn} {batchSize : Nat}

theorem reported_start (batchSize : Nat) : Reported (start batchSize) :=
  ⟨fun h => (by cases h), fun h => (by cases h), fun h => (by cases h), fun h => (by cases h)⟩

theorem no_sending_set {i : Nat} {new : Store} (hnew : new.isSending = false)
    (h : ∀ store ∈ s.stores, store.isSending = false) :
    ∀ store ∈ s.stores.set i new, store.isSending = false := by
  intro store hstore
  rcases List.mem_or_eq_of_mem_set hstore with hold | rfl
  · exact h store hold
  · exact hnew

theorem Reported.select {r : Received} (h : Reported s) (hloop : s.loop = .selecting) :
    Reported (receive s r) := by
  obtain ⟨herrCh, hpanicked, hunwinding⟩ := receive_frame s r
  have hopen : s.errCh.closed = false := by
    cases hclosed : s.errCh.closed with
    | false => rfl
    | true => rcases h.closed hclosed with hl | hl <;> rw [hloop] at hl <;> cases hl
  refine ⟨?_, ?_, ?_, ?_⟩
  · intro hclosed
    rw [herrCh, hopen] at hclosed
    cases hclosed
  · rcases hunwinding with hsame | hpanic
    · exact hsame ▸ h.unwinding
    · rw [hpanic]
      decide
  · exact hpanicked ▸ h.safe.1
  · intro hclosed
    rw [herrCh, hopen] at hclosed
    cases hclosed

theorem Reported.step (h : Reported s) (hg : ErrorsReported s turn)
    (hstep : Kafka.step s turn = some s') : Reported s' := by
  obtain hgoes | ⟨p, hpanics, rfl⟩ := step_eq_some hstep
  · cases turn with
    | select r =>
      obtain ⟨hloop, rfl⟩ := select_eq_goes hgoes
      exact h.select hloop
    | deferred =>
      obtain ⟨hloop, rfl⟩ | ⟨c, hloop, rfl, rfl⟩ | ⟨count, hloop, -, rfl⟩ := deferred_eq_goes hgoes
      · refine ⟨fun hclosed => ?_, h.unwinding, h.safe⟩
        rcases h.closed hclosed with hl | hl <;> rw [hloop] at hl <;> cases hl
      · exact ⟨fun _ => .inl rfl, h.unwinding, h.safe.1, fun _ => hg hloop⟩
      · exact ⟨fun _ => .inr rfl, h.unwinding, h.unwinding, h.safe.2⟩
    | storeReturns i db =>
      obtain ⟨beBatch, hi, rfl⟩ := storeReturns_eq_goes hgoes
      refine ⟨h.closed, h.unwinding, h.safe.1, fun hclosed => ?_⟩
      refine no_sending_set ?_ (h.safe.2 hclosed)
      rw [hg hclosed _ hi]
      rfl
    | report i =>
      obtain ⟨beBatch, err, hi, hopen, rfl⟩ := report_eq_goes hgoes
      refine ⟨h.closed, h.unwinding, h.safe.1, fun hclosed => ?_⟩
      exact absurd (hclosed.symm.trans hopen) (by decide)
    | storeLeave i =>
      obtain ⟨beBatch, count, hi, -, rfl⟩ := storeLeave_eq_goes hgoes
      refine ⟨h.closed, h.unwinding, h.safe.1, fun hclosed => ?_⟩
      exact no_sending_set rfl (h.safe.2 hclosed)
    | handlerLeave =>
      obtain ⟨count, -, -, rfl⟩ := handlerLeave_eq_goes hgoes
      exact ⟨h.closed, h.unwinding, h.safe⟩
    | wait =>
      obtain ⟨-, rfl⟩ := wait_eq_goes hgoes
      exact ⟨h.closed, h.unwinding, h.safe⟩
  · refine ⟨h.closed, h.unwinding, fun hp => ?_, h.safe.2⟩
    cases hp
    obtain ⟨i, beBatch, err, -, hi, hclosed⟩ := takeTurn_sendOnClosed hpanics
    have hquiet := h.safe.2 hclosed _ (List.mem_of_getElem? hi)
    cases hquiet

theorem exposed_of_not_reported (h : Reported s) (hstep : step s turn = some s')
    (hg : ¬ ErrorsReported s turn) : ¬ NoSendAfterClose s' := by
  cases turn with
  | deferred =>
    simp only [ErrorsReported, Classical.not_imp] at hg
    obtain ⟨hloop, hsending⟩ := hg
    have hopen : s.errCh.closed = false := by
      cases hclosed : s.errCh.closed with
      | false => rfl
      | true => rcases h.closed hclosed with hl | hl <;> rw [hloop] at hl <;> cases hl
    have hgoes : takeTurn s .deferred =
        .goes { s with errCh := s.errCh.asClosed, loop := .leaving } := by
      simp [takeTurn, deferred, hloop, Chan.close, hopen, Attempt.map, Attempt.bind]
    obtain hgoes' | ⟨p, hpanics, -⟩ := step_eq_some hstep
    · rw [hgoes] at hgoes'
      cases hgoes'
      exact fun hsafe => hsending (hsafe.2 rfl)
    · rw [hgoes] at hpanics
      cases hpanics
  | storeReturns i db =>
    simp only [ErrorsReported, Classical.not_imp, not_forall] at hg
    obtain ⟨hclosed, store, hi, herr⟩ := hg
    obtain ⟨err, herr⟩ := Option.ne_none_iff_exists'.mp herr
    obtain hgoes | ⟨p, hpanics, -⟩ := step_eq_some hstep
    · obtain ⟨beBatch, hi', rfl⟩ := storeReturns_eq_goes hgoes
      rw [hi] at hi'
      cases hi'
      intro hsafe
      have hlt := (List.getElem?_eq_some_iff.mp hi).1
      have hquiet := hsafe.2 hclosed _ (List.mem_set hlt _)
      rw [herr] at hquiet
      cases hquiet
    · simp only [takeTurn, storeReturns] at hpanics
      split at hpanics <;> cases hpanics
  | select r => exact absurd trivial hg
  | report i => exact absurd trivial hg
  | storeLeave i => exact absurd trivial hg
  | handlerLeave => exact absurd trivial hg
  | wait => exact absurd trivial hg

/-- **When nobody sends on the closed channel.** Over every run of the process, with any number of
stores, and whatever the database answers. -/
theorem no_send_after_close_iff (hrun : run step (start batchSize) turns = some s) :
    Always step NoSendAfterClose (start batchSize) turns ↔
      Along step ErrorsReported (start batchSize) turns := by
  constructor
  · intro h
    refine along_of_always_of_run (fun s turn s' hI hG hs => hI.step hG hs) ?_
      (reported_start batchSize) hrun h
    exact fun s turn s' hI hs hG => exposed_of_not_reported hI hs hG
  · intro h
    exact always_of_along (fun s hI => hI.safe) (fun s turn s' _ hI hG hs => hI.step hG hs)
      (reported_start batchSize) h

def unreachable : Database where
  acquire := some "connection refused"
  scan := fun _ => none
  update := fun _ => none
  insert := fun _ => none

/-- The tick starts a store, which fails and reports its error before the end signal comes. -/
def failsInTime : List Turn :=
  [.select .tick, .storeReturns 0 unreachable, .report 0, .storeLeave 0,
    .select (.endSignal true), .deferred, .deferred, .deferred, .handlerLeave, .wait]

theorem no_send_after_close_failsInTime :
    (run step (start 16) failsInTime).isSome ∧
      Always step NoSendAfterClose (start 16) failsInTime := by
  have hrun : ∃ s, run step (start 16) failsInTime = some s := ⟨_, rfl⟩
  obtain ⟨s, hs⟩ := hrun
  refine ⟨by rw [hs]; rfl, (no_send_after_close_iff hs).mpr ?_⟩
  decide

/-- The store fails once `mainLoop` has closed the channel; `main` is still waiting for it. -/
def failsLate : List Turn :=
  [.select .tick, .select (.endSignal true), .deferred, .deferred, .deferred,
    .storeReturns 0 unreachable, .report 0]

theorem late_store_sends_on_closed :
    ∃ s, run step (start 16) failsLate = some s ∧ s.errCh.closed = true ∧ s.wg = 2 ∧
      s.panicked = some .sendOnClosed := by
  exact ⟨_, rfl, rfl, rfl, rfl⟩

end Safety

end LinuxWorkouts.Kafka
