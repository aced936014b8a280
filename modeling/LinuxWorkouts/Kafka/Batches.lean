import LinuxWorkouts.Kafka.Consumer

/-!
What `mainLoop` hands to the stores.

The batch is made with its full length, so the test `len(batch) == batchSize` is true at every
message: each message and each tick starts a store, and an event stays alone in its batch until
the next one. `handed_accounted` is the balance of a whole run: what was handed over together with
what is still in the batch is what was parsed, plus one batch of placeholders for every store,
less the placeholders that events took the place of. From it follows for which inputs the stores
get exactly the parsed events (`handed_eq_parsed_iff`).
-/

namespace LinuxWorkouts.Kafka

open Goroutines Transition List

/-! ### Inputs -/

def Received.flushes : Received → Bool
  | .message _ _ => true
  | .tick => true
  | _ => false

def Received.event : Received → Option ButtonEvents
  | .message key value =>
    match parseButtonEvents key value with
    | .goes (.ok be) => some be
    | _ => none
  | _ => none

/-- What the `select` received in a run. -/
def received (turns : List Turn) : List Received :=
  turns.filterMap fun
    | .select r => some r
    | _ => none

def parsedEvents (rs : List Received) : List ButtonEvents := rs.filterMap Received.event

def handed (s : Consumer) : List ButtonEvents := (s.stores.map Store.beBatch).flatten

def nextBatch (batchSize : Nat) (batch : List ButtonEvents) (r : Received) : List ButtonEvents :=
  if r.flushes then
    match r.event with
    | some be => (replicate batchSize noEvent).set 0 be
    | none => replicate batchSize noEvent
  else batch

theorem event_eq_none_of_not_flushes {r : Received} (h : r.flushes = false) : r.event = none := by
  cases r <;> first | rfl | cases h

/-! ### One round of the loop -/

section Round

variable {s s' : Consumer} {r : Received} {turn : Turn}

@[simp] theorem storeBatchAsync_batch (s : Consumer) :
    (storeBatchAsync s).batch = replicate s.batch.length noEvent := by
  simp [storeBatchAsync, map_const']

@[simp] theorem handed_storeBatchAsync (s : Consumer) :
    handed (storeBatchAsync s) = handed s ++ s.batch := by
  simp [storeBatchAsync, handed]

theorem receive_spec (hlen : s.batch.length = s.batchSize) (hun : (receive s r).unwinding = none) :
    (receive s r).batchSize = s.batchSize ∧
      (receive s r).batch = nextBatch s.batchSize s.batch r ∧
      handed (receive s r) = handed s ++ (if r.flushes then s.batch else []) ∧
      (r.event.isSome → 0 < s.batchSize) := by
  cases r with
  | endSignal value =>
    cases value <;> exact ⟨rfl, rfl, (append_nil _).symm, fun h => by cases h⟩
  | endClosed => exact ⟨rfl, rfl, (append_nil _).symm, fun h => by cases h⟩
  | messagesClosed => exact ⟨rfl, rfl, (append_nil _).symm, fun h => by cases h⟩
  | tick =>
    refine ⟨rfl, ?_, handed_storeBatchAsync s, fun h => by cases h⟩
    change (storeBatchAsync s).batch = _
    rw [storeBatchAsync_batch, hlen]
    rfl
  | message key value =>
    have hflush : (storeBatchAsync s).batch = replicate s.batchSize noEvent := by
      rw [storeBatchAsync_batch, hlen]
    simp only [receive, if_pos hlen, takeMessage] at hun ⊢
    simp only [nextBatch, Received.event, Received.flushes, if_true]
    cases hparse : parseButtonEvents key value with
    | blocked => exact ⟨rfl, hflush, handed_storeBatchAsync s, fun h => by cases h⟩
    | panics p => simp [hparse, unwind] at hun
    | goes result =>
      cases result with
      | error err => exact ⟨rfl, hflush, handed_storeBatchAsync s, fun h => by cases h⟩
      | ok be =>
        -- The index is the 0 that `storeBatchAsync` returned.
        have hidx : (storeBatchAsync s).batchIdx = 0 := rfl
        simp only [hparse, putEvent, hflush, hidx, length_replicate] at hun ⊢
        split at hun
        · next hpos =>
            rw [if_pos hpos]
            exact ⟨rfl, rfl, handed_storeBatchAsync s, fun _ => hpos⟩
        · simp [unwind] at hun

theorem handed_set {i : Nat} {old new : Store} (hi : s.stores[i]? = some old)
    (hbatch : new.beBatch = old.beBatch) :
    ((s.stores.set i new).map Store.beBatch).flatten = handed s := by
  obtain ⟨hlt, rfl⟩ := List.getElem?_eq_some_iff.mp hi
  have hsame : (s.stores.map Store.beBatch).set i new.beBatch = s.stores.map Store.beBatch := by
    rw [hbatch, ← map_set, set_getElem_self]
  rw [handed, map_set, hsame]

theorem step_frame (h : step s turn = some s') (hturn : ∀ r, turn ≠ .select r) :
    s'.batchSize = s.batchSize ∧ s'.batch = s.batch ∧ handed s' = handed s ∧
      s'.unwinding = s.unwinding := by
  obtain hgoes | ⟨p, -, rfl⟩ := step_eq_some h
  · cases turn with
    | select r => exact absurd rfl (hturn r)
    | deferred =>
      obtain ⟨-, rfl⟩ | ⟨c, -, -, rfl⟩ | ⟨count, -, -, rfl⟩ := deferred_eq_goes hgoes <;>
        exact ⟨rfl, rfl, rfl, rfl⟩
    | storeReturns i db =>
      obtain ⟨beBatch, hi, rfl⟩ := storeReturns_eq_goes hgoes
      exact ⟨rfl, rfl, handed_set hi rfl, rfl⟩
    | report i =>
      obtain ⟨beBatch, err, hi, -, rfl⟩ := report_eq_goes hgoes
      exact ⟨rfl, rfl, handed_set hi rfl, rfl⟩
    | storeLeave i =>
      obtain ⟨beBatch, count, hi, -, rfl⟩ := storeLeave_eq_goes hgoes
      exact ⟨rfl, rfl, handed_set hi rfl, rfl⟩
    | handlerLeave =>
      obtain ⟨count, -, -, rfl⟩ := handlerLeave_eq_goes hgoes
      exact ⟨rfl, rfl, rfl, rfl⟩
    | wait =>
      obtain ⟨-, rfl⟩ := wait_eq_goes hgoes
      exact ⟨rfl, rfl, rfl, rfl⟩
  · exact ⟨rfl, rfl, rfl, rfl⟩

theorem unwinding_of_takeMessage {key value : List UInt8}
    (h : (takeMessage s key value).unwinding = none) : s.unwinding = none := by
  unfold takeMessage at h
  split at h
  · unfold putEvent at h
    split at h
    · exact h
    · cases h
  · exact h
  · exact h
  · cases h

theorem unwinding_of_receive (h : (receive s r).unwinding = none) : s.unwinding = none := by
  cases r with
  | endSignal value => cases value <;> exact h
  | endClosed => exact h
  | messagesClosed => exact h
  | tick => exact h
  | message key value =>
    have hflush := unwinding_of_takeMessage h
    split at hflush <;> exact hflush

end Round

/-! ### Whole runs -/

theorem length_nextBatch {batchSize : Nat} {batch : List ButtonEvents} (r : Received)
    (h : batch.length = batchSize) : (nextBatch batchSize batch r).length = batchSize := by
  unfold nextBatch
  split
  · split <;> simp
  · exact h

theorem length_foldl_nextBatch {batchSize : Nat} {batch : List ButtonEvents} (rs : List Received)
    (h : batch.length = batchSize) :
    (rs.foldl (nextBatch batchSize) batch).length = batchSize := by
  induction rs generalizing batch with
  | nil => exact h
  | cons r rs ih => exact ih (length_nextBatch r h)

/-- The balance between two states of a run, `rs` received in between. -/
structure Accounted (s : Consumer) (rs : List Received) (s' : Consumer) : Prop where
  batchSize : s'.batchSize = s.batchSize
  batch : s'.batch = rs.foldl (nextBatch s.batchSize) s.batch
  length : (handed s').length = (handed s).length + s.batchSize * rs.countP Received.flushes
  room : parsedEvents rs ≠ [] → 0 < s.batchSize
  balance :
    (handed s' + s'.batch + Multiset.replicate (parsedEvents rs).length noEvent :
      Multiset ButtonEvents) =
    handed s + s.batch + Multiset.replicate (s.batchSize * rs.countP Received.flushes) noEvent +
      parsedEvents rs

theorem replicate_set {batchSize : Nat} (be : ButtonEvents) (h : 0 < batchSize) :
    ((replicate batchSize noEvent).set 0 be + {noEvent} : Multiset ButtonEvents) =
      Multiset.replicate batchSize noEvent + {be} := by
  obtain ⟨n, rfl⟩ := Nat.exists_eq_add_of_lt h
  rw [Nat.zero_add, replicate_succ, set_cons_zero, Multiset.replicate_succ,
    ← Multiset.cons_coe, Multiset.coe_replicate, ← Multiset.singleton_add,
    ← Multiset.singleton_add]
  abel

section Runs

variable {s s' : Consumer} {r : Received} {rs : List Received} {turns : List Turn}

theorem accounted_receive (hlen : s.batch.length = s.batchSize)
    (hun : (receive s r).unwinding = none) : Accounted s [r] (receive s r) := by
  obtain ⟨hsize, hbatch, hhanded, hroom⟩ := receive_spec hlen hun
  cases hflush : r.flushes with
  | false =>
    have hevent := event_eq_none_of_not_flushes hflush
    have hparsed : parsedEvents [r] = [] := by simp [parsedEvents, hevent]
    have hnext : nextBatch s.batchSize s.batch r = s.batch := by simp [nextBatch, hflush]
    have hsame : handed (receive s r) = handed s := by simpa [hflush] using hhanded
    exact
      { batchSize := hsize
        batch := hbatch
        length := by simp [hsame, hflush]
        room := fun h => absurd hparsed h
        balance := by simp [hsame, hbatch, hnext, hparsed, hflush] }
  | true =>
    have hgrown : handed (receive s r) = handed s ++ s.batch := by simpa [hflush] using hhanded
    have hlength : (handed (receive s r)).length =
        (handed s).length + s.batchSize * [r].countP Received.flushes := by
      simp [hgrown, hflush, hlen]
    cases hevent : r.event with
    | none =>
      have hparsed : parsedEvents [r] = [] := by simp [parsedEvents, hevent]
      have hnext : nextBatch s.batchSize s.batch r = replicate s.batchSize noEvent := by
        simp [nextBatch, hflush, hevent]
      refine ⟨hsize, hbatch, hlength, fun h => absurd hparsed h, ?_⟩
      rw [hgrown, hbatch, hnext, hparsed]
      simp [hflush, Multiset.coe_replicate, ← Multiset.coe_add]
    | some be =>
      have hpos : 0 < s.batchSize := hroom (by simp [hevent])
      have hparsed : parsedEvents [r] = [be] := by simp [parsedEvents, hevent]
      have hnext : nextBatch s.batchSize s.batch r = (replicate s.batchSize noEvent).set 0 be := by
        simp [nextBatch, hflush, hevent]
      refine ⟨hsize, hbatch, hlength, fun _ => hpos, ?_⟩
      rw [hgrown, hbatch, hnext, hparsed, ← Multiset.coe_add, length_singleton,
        Multiset.replicate_one, add_assoc, replicate_set be hpos]
      simp [hflush, add_assoc]

theorem accounted_refl (h : s'.batchSize = s.batchSize) (hb : s'.batch = s.batch)
    (hh : handed s' = handed s) : Accounted s [] s' :=
  { batchSize := h
    batch := hb
    length := by simp [hh]
    room := fun h => absurd rfl h
    balance := by simp [hh, hb, parsedEvents] }

theorem Accounted.append {s₁ : Consumer} {rs₁ rs₂ : List Received} (h₁ : Accounted s rs₁ s₁)
    (h₂ : Accounted s₁ rs₂ s') : Accounted s (rs₁ ++ rs₂) s' := by
  have hsize := h₁.batchSize
  have hparsed : parsedEvents (rs₁ ++ rs₂) = parsedEvents rs₁ ++ parsedEvents rs₂ :=
    filterMap_append
  refine ⟨h₂.batchSize.trans hsize, ?_, ?_, ?_, ?_⟩
  · rw [h₂.batch, h₁.batch, hsize, foldl_append]
  · rw [h₂.length, h₁.length, hsize, countP_append]
    ring
  · intro h
    rw [hparsed] at h
    by_cases h0 : parsedEvents rs₁ = []
    · exact hsize ▸ h₂.room (by simpa [h0] using h)
    · exact h₁.room h0
  · rw [hparsed, length_append, Multiset.replicate_add, countP_append, Nat.mul_add,
      Multiset.replicate_add, ← Multiset.coe_add]
    have hb₁ := h₁.balance
    have hb₂ := h₂.balance
    rw [hsize] at hb₂
    -- The second balance starts where the first one ends.
    calc _ = (handed s' + s'.batch + Multiset.replicate (parsedEvents rs₂).length noEvent :
              Multiset ButtonEvents) +
            Multiset.replicate (parsedEvents rs₁).length noEvent := by abel
      _ = (handed s₁ + s₁.batch + Multiset.replicate (parsedEvents rs₁).length noEvent :
              Multiset ButtonEvents) +
            Multiset.replicate (s.batchSize * rs₂.countP Received.flushes) noEvent +
            parsedEvents rs₂ := by
          rw [hb₂]
          abel
      _ = _ := by
          rw [hb₁]
          abel

theorem accounted_step {turn : Turn} (hlen : s.batch.length = s.batchSize)
    (hstep : step s turn = some s') (hun : s'.unwinding = none) :
    s.unwinding = none ∧ Accounted s (received [turn]) s' := by
  by_cases hturn : ∃ r, turn = .select r
  · obtain ⟨r, rfl⟩ := hturn
    obtain hgoes | ⟨p, hpanics, -⟩ := step_eq_some hstep
    · obtain ⟨-, rfl⟩ := select_eq_goes hgoes
      exact ⟨unwinding_of_receive hun, accounted_receive hlen hun⟩
    · simp only [takeTurn] at hpanics
      split at hpanics <;> cases hpanics
  · have hother : ∀ r, turn ≠ .select r := fun r h => hturn ⟨r, h⟩
    obtain ⟨hsize, hbatch, hhanded, hunwinding⟩ := step_frame hstep hother
    refine ⟨hunwinding ▸ hun, ?_⟩
    have hnone : received [turn] = [] := by
      cases turn with
      | select r => exact absurd rfl (hother r)
      | _ => rfl
    rw [hnone]
    exact accounted_refl hsize hbatch hhanded

theorem Accounted.length_batch (h : Accounted s rs s') (hlen : s.batch.length = s.batchSize) :
    s'.batch.length = s'.batchSize := by
  rw [h.batch, h.batchSize, length_foldl_nextBatch rs hlen]

theorem unwinding_of_run (hrun : run step s turns = some s') (hun : s'.unwinding = none) :
    s.unwinding = none := by
  induction turns generalizing s with
  | nil =>
    cases hrun
    exact hun
  | cons turn turns ih =>
    obtain ⟨s₁, hstep, hrun⟩ := Option.bind_eq_some_iff.mp hrun
    have hun₁ := ih hrun
    by_cases hturn : ∃ r, turn = .select r
    · obtain ⟨r, rfl⟩ := hturn
      obtain hgoes | ⟨p, -, rfl⟩ := step_eq_some hstep
      · obtain ⟨-, rfl⟩ := select_eq_goes hgoes
        exact unwinding_of_receive hun₁
      · exact hun₁
    · exact (step_frame hstep fun r h => hturn ⟨r, h⟩).2.2.2 ▸ hun₁

theorem handed_accounted (hlen : s.batch.length = s.batchSize)
    (hrun : run step s turns = some s') (hun : s'.unwinding = none) :
    Accounted s (received turns) s' := by
  induction turns generalizing s with
  | nil =>
    cases hrun
    exact accounted_refl rfl rfl rfl
  | cons turn turns ih =>
    obtain ⟨s₁, hstep, hrun⟩ := Option.bind_eq_some_iff.mp hrun
    obtain ⟨-, h₁⟩ := accounted_step hlen hstep (unwinding_of_run hrun hun)
    have hcons : received (turn :: turns) = received [turn] ++ received turns :=
      (filterMap_append : filterMap _ ([turn] ++ turns) = _)
    rw [hcons]
    exact h₁.append (ih (h₁.length_batch hlen) hrun)

end Runs

/-! ### When the stores get the parsed events -/

section Exact

variable {s : Consumer} {rs : List Received} {turns : List Turn} {batchSize : Nat}

theorem length_parsedEvents_le (rs : List Received) :
    (parsedEvents rs).length ≤ rs.countP Received.flushes := by
  rw [parsedEvents, length_filterMap_eq_countP]
  refine countP_mono_left fun r _ hevent => ?_
  by_contra hflush
  rw [event_eq_none_of_not_flushes (Bool.eq_false_of_not_eq_true hflush)] at hevent
  cases hevent

theorem length_parsedEvents_eq_iff :
    (parsedEvents rs).length = rs.countP Received.flushes ↔
      ∀ r ∈ rs, r.flushes → r.event.isSome := by
  induction rs with
  | nil => simp [parsedEvents]
  | cons r rs ih =>
    have hle := length_parsedEvents_le rs
    rw [forall_mem_cons, ← ih]
    cases hflush : r.flushes with
    | false =>
      have hevent := event_eq_none_of_not_flushes hflush
      simp [parsedEvents, hevent, hflush]
    | true =>
      cases hevent : r.event with
      | none =>
        simp only [parsedEvents, filterMap_cons_none hevent, countP_cons, hflush]
          at hle ⊢
        simp
        omega
      | some be => simp [parsedEvents, hevent, hflush]

theorem foldl_nextBatch (hall : ∀ r ∈ rs, r.flushes → r.event.isSome) (batch : List ButtonEvents) :
    rs.foldl (nextBatch batchSize) batch =
      match (parsedEvents rs).getLast? with
      | some be => (replicate batchSize noEvent).set 0 be
      | none => batch := by
  induction rs generalizing batch with
  | nil => rfl
  | cons r rs ih =>
    obtain ⟨hr, hrs⟩ := forall_mem_cons.mp hall
    rw [foldl_cons, ih hrs]
    cases hflush : r.flushes with
    | false =>
      have hevent := event_eq_none_of_not_flushes hflush
      simp [parsedEvents, hevent, nextBatch, hflush]
    | true =>
      obtain ⟨be, hevent⟩ := Option.isSome_iff_exists.mp (hr hflush)
      have hcons : parsedEvents (r :: rs) = be :: parsedEvents rs := filterMap_cons_some hevent
      rw [hcons, getLast?_cons]
      cases (parsedEvents rs).getLast? <;> simp [nextBatch, hflush, hevent]

/-- No store was started; or the batches are empty; or they have room for one event, each store
had a message that parsed, and the event that stays in the batch at the end is the zero value, like
the placeholder that was stored first. -/
def HandsOver (batchSize : Nat) (rs : List Received) : Prop :=
  (∀ r ∈ rs, r.flushes = false) ∨ batchSize = 0 ∨
    batchSize = 1 ∧ (∀ r ∈ rs, r.flushes → r.event.isSome) ∧
      (parsedEvents rs).getLast? = some noEvent

theorem parsedEvents_eq_nil (h : ∀ r ∈ rs, r.flushes = false) : parsedEvents rs = [] := by
  rw [parsedEvents, filterMap_eq_nil_iff]
  exact fun r hr => event_eq_none_of_not_flushes (h r hr)

theorem handed_eq_parsed_iff_of_one (hacc : Accounted (start 1) rs s)
    (hall : ∀ r ∈ rs, r.flushes → r.event.isSome) (hne : parsedEvents rs ≠ []) :
    (handed s : Multiset ButtonEvents) = parsedEvents rs ↔
      (parsedEvents rs).getLast? = some noEvent := by
  obtain ⟨be, hlast⟩ : ∃ be, (parsedEvents rs).getLast? = some be :=
    Option.isSome_iff_exists.mp (by simpa using hne)
  have hbatch : s.batch = [be] := by
    rw [hacc.batch, foldl_nextBatch hall, hlast]
    rfl
  have hcount : (start 1).batchSize * rs.countP Received.flushes = (parsedEvents rs).length := by
    rw [length_parsedEvents_eq_iff.mpr hall]
    exact Nat.one_mul _
  have hbalance : (handed s + {be} : Multiset ButtonEvents) = parsedEvents rs + {noEvent} := by
    have h := hacc.balance
    rw [hcount, hbatch] at h
    refine add_right_cancel (h.trans ?_)
    change (([] : List ButtonEvents) + {noEvent} + _ + _ : Multiset ButtonEvents) = _
    rw [Multiset.coe_nil]
    abel
  rw [hlast, Option.some_inj]
  constructor
  · intro h
    rw [h] at hbalance
    exact Multiset.singleton_inj.mp (add_left_cancel hbalance)
  · intro h
    rw [h] at hbalance
    exact add_right_cancel hbalance

/-- **Exactly when the stores get the parsed events.** In every run, at every time, in whatever
order messages, ticks and end signals come. -/
theorem handed_eq_parsed_iff (hrun : run step (start batchSize) turns = some s)
    (hun : s.unwinding = none) :
    (handed s : Multiset ButtonEvents) = parsedEvents (received turns) ↔
      HandsOver batchSize (received turns) := by
  have hacc := handed_accounted (by simp [start]) hrun hun
  have hlength : (handed s).length = batchSize * (received turns).countP Received.flushes := by
    rw [hacc.length]
    exact Nat.zero_add _
  generalize received turns = rs at hacc hlength
  have hle := length_parsedEvents_le rs
  unfold HandsOver
  constructor
  · intro h
    have hcard : (handed s).length = (parsedEvents rs).length := by
      simpa using congrArg Multiset.card h
    rcases Nat.eq_zero_or_pos (rs.countP Received.flushes) with h0 | hpos
    · left
      simpa [countP_eq_zero] using h0
    · right
      rcases Nat.eq_zero_or_pos batchSize with hzero | hsize
      · exact .inl hzero
      · right
        -- `batchSize` events for each store are at most one for each store.
        have hone : batchSize = 1 := by
          by_contra hne
          have htwo : 2 * rs.countP Received.flushes ≤ batchSize * rs.countP Received.flushes :=
            Nat.mul_le_mul_right _ (by omega)
          omega
        subst hone
        rw [Nat.one_mul] at hlength
        have hall := length_parsedEvents_eq_iff.mp (hcard.symm.trans hlength)
        have hne : parsedEvents rs ≠ [] := ne_nil_of_length_pos (by omega)
        exact ⟨rfl, hall, (handed_eq_parsed_iff_of_one hacc hall hne).mp h⟩
  · rintro (hnone | rfl | ⟨rfl, hall, hlast⟩)
    · have h0 : rs.countP Received.flushes = 0 := by simpa [countP_eq_zero] using hnone
      rw [h0, Nat.mul_zero] at hlength
      rw [parsedEvents_eq_nil hnone, eq_nil_of_length_eq_zero hlength]
    · rw [Nat.zero_mul] at hlength
      have hparsed : parsedEvents rs = [] := by
        by_contra hne
        exact absurd (hacc.room hne) (Nat.lt_irrefl 0)
      rw [hparsed, eq_nil_of_length_eq_zero hlength]
    · have hne : parsedEvents rs ≠ [] := by
        intro h
        simp [h] at hlast
      exact (handed_eq_parsed_iff_of_one hacc hall hne).mpr hlast

/-- The messages `7:Buy` with 3 clicks and `0:` with none, then the end signal. -/
def zeroMessageLast : List Turn :=
  [.select (.message [55, 58, 66, 117, 121] [51]), .select (.message [48, 58] [48]),
    .select (.endSignal true)]

/-- With batches of one event the last message may be the one that is not stored, if it cannot be
told from the placeholder that was. -/
theorem handed_eq_parsed_zeroMessageLast :
    ∃ s, run step (start 1) zeroMessageLast = some s ∧ s.unwinding = none ∧
      handed s = [noEvent, ⟨7, [66, 117, 121], 3⟩] ∧
      (handed s : Multiset ButtonEvents) = parsedEvents (received zeroMessageLast) := by
  refine ⟨_, rfl, rfl, by decide, ?_⟩
  exact (handed_eq_parsed_iff rfl rfl).mpr (.inr (.inr ⟨rfl, by decide, by decide⟩))

def oneMessage : List Turn :=
  [.select (.message [55, 58, 66, 117, 121] [51]), .select (.endSignal true)]

/-- The event is lost and sixteen placeholders are stored. -/
theorem message_is_not_stored :
    ∃ s, run step (start 16) oneMessage = some s ∧ s.loop = .stoppingTicker ∧
      s.unwinding = none ∧ handed s = replicate 16 noEvent ∧
      parsedEvents (received oneMessage) = [⟨7, [66, 117, 121], 3⟩] ∧
      (handed s : Multiset ButtonEvents) ≠ parsedEvents (received oneMessage) := by
  refine ⟨_, rfl, rfl, rfl, rfl, by decide, ?_⟩
  decide

end Exact

end LinuxWorkouts.Kafka
