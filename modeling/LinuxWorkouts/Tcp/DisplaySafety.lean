import LinuxWorkouts.Tcp.Visualization

/-!
Whether the progress display survives the failures of the downloads.

A routine that fails sends no end message. The display then waits on, and once the channel is closed
it receives the zero value, whose `TotalOffset` is nil. `display_survives_iff` says that this is the
only way to a nil dereference and that nothing prevents it.
-/

namespace LinuxWorkouts.Tcp.Visualization

open Ascii Goroutines Transition Function List

/-! ### The invariant -/

section Invariant

variable {n : Nat} {get : Bool} {downloads : Fin n → Download} {s s' : State n}
variable {toSend : List (Message n)}

def Main.passed (n : Nat) : Main → Nat
  | .starting routineId => routineId
  | _ => n

def Routine.live : Routine n → Nat
  | .running _ => 1
  | _ => 0

/-- `told` is the routine's entry in `routinesStatus`: the display knows of the end exactly if the
end message is among those sent. -/
def Routine.Ok (d : Download) (i : Fin n) (told : Bool) : Routine n → Prop
  | .idle => told = false
  | .running toSend =>
    ∃ sent, sent ++ toSend = d.messages i ∧
      (told = true ↔ ∃ m ∈ sent, m.args.endFlag = true)
  | .finished => told = true ↔ d.succeeds = true

/-- What holds as long as nothing has failed. -/
structure Inv (get : Bool) (downloads : Fin n → Download) (s : State n) : Prop where
  alive : s.failure = none
  passed_le : s.main.passed n ≤ n
  idle_iff : ∀ i, s.routines i = .idle ↔ get = false ∨ s.main.passed n ≤ i
  routine : ∀ i, (s.routines i).Ok (downloads i) i (s.routinesStatus i)
  wg : s.wg = ∑ i, (s.routines i).live
  buffer : s.visualizationChannel.buffer = []
  closed_iff : s.visualizationChannel.closed = true ↔ s.main = .closed ∨ s.main = .returned
  drained : s.visualizationChannel.closed = true → s.wg = 0

theorem Inv.start (get : Bool) (downloads : Fin n → Download) : Inv get downloads (start n) where
  alive := rfl
  passed_le := Nat.zero_le n
  idle_iff := fun i => ⟨fun _ => .inr (Nat.zero_le i), fun _ => rfl⟩
  routine := fun _ => rfl
  wg := (Finset.sum_eq_zero fun _ _ => rfl).symm
  buffer := rfl
  closed_iff := by simp [Visualization.start, Chan.make]
  drained := fun _ => rfl

theorem allRoutineDone_iff {routinesStatus : Fin n → Bool} :
    allRoutineDone routinesStatus = true ↔ ∀ i, routinesStatus i = true := by
  simp [allRoutineDone]

section

variable (h : Inv get downloads s)
include h

theorem Inv.wg_pos {i : Fin n} (hi : s.routines i = .running toSend) : 0 < s.wg := by
  rw [h.wg]
  refine Finset.sum_pos' (fun j _ => Nat.zero_le _) ⟨i, Finset.mem_univ i, ?_⟩
  rw [hi]
  exact Nat.zero_lt_one

theorem Inv.not_running (hclosed : s.visualizationChannel.closed = true) (i : Fin n)
    (toSend : List (Message n)) : s.routines i ≠ .running toSend :=
  fun hi => (h.wg_pos hi).ne' (h.drained hclosed)

theorem Inv.channel_open (hclosed : s.main ≠ .closed) (hreturned : s.main ≠ .returned) :
    s.visualizationChannel.closed = false := by
  rw [← Bool.not_eq_true, h.closed_iff]
  exact fun hmain => hmain.elim hclosed hreturned

theorem Inv.allRoutineDone_of_closed (hclosed : s.visualizationChannel.closed = true)
    (hget : get = true) (hsucceed : ∀ i, (downloads i).succeeds = true) :
    allRoutineDone s.routinesStatus = true := by
  refine allRoutineDone_iff.mpr fun i => ?_
  have hpassed : s.main.passed n = n := by
    rcases h.closed_iff.mp hclosed with hmain | hmain <;> rw [hmain] <;> rfl
  have hidle : s.routines i ≠ .idle := by
    rw [Ne, h.idle_iff, hpassed, hget]
    simp
  have hok := h.routine i
  cases hi : s.routines i with
  | idle => exact absurd hi hidle
  | running toSend => exact absurd hi (h.not_running hclosed i toSend)
  | finished =>
    rw [hi] at hok
    exact hok.mpr (hsucceed i)

theorem Inv.not_allRoutineDone {j : Fin n} (hj : get = false ∨ (downloads j).succeeds = false) :
    allRoutineDone s.routinesStatus = false := by
  suffices htold : s.routinesStatus j = false by
    rw [← Bool.not_eq_true, allRoutineDone_iff]
    intro hall
    cases (hall j).symm.trans htold
  have hok := h.routine j
  have hidle := h.idle_iff j
  cases hr : s.routines j with
  | idle =>
    rw [hr] at hok
    exact hok
  | running toSend =>
    obtain hget | hfails := hj
    · cases hr.symm.trans (hidle.mpr (.inl hget))
    · rw [hr] at hok
      obtain ⟨sent, hsent, htold⟩ := hok
      rw [← Bool.not_eq_true, htold]
      rintro ⟨m, hm, hend⟩
      have hmem : m ∈ (downloads j).messages j := hsent ▸ mem_append_left _ hm
      have := ((downloads j).endFlag_iff j).mp ⟨m, hmem, hend⟩
      simp [hfails] at this
  | finished =>
    obtain hget | hfails := hj
    · cases hr.symm.trans (hidle.mpr (.inl hget))
    · rw [hr, Routine.Ok, hfails] at hok
      simpa using hok

theorem Inv.moved {i : Fin n} (hi : s.routines i = .running toSend) {r : Routine n} (hr : r ≠ .idle)
    {told : Bool} (hok : r.Ok (downloads i) i told) (wg : Nat)
    (hwg : wg = ∑ j, (update s.routines i r j).live) (totalOffset : Fin n → Nat) :
    Inv get downloads
      { s with
        wg := wg
        routines := update s.routines i r
        routinesStatus := update s.routinesStatus i told
        totalOffset := totalOffset } where
  alive := h.alive
  passed_le := h.passed_le
  idle_iff := by
    intro j
    rw [← h.idle_iff]
    by_cases hj : j = i
    · subst hj
      simp [hr, hi]
    · simp [update_of_ne hj]
  routine := by
    intro j
    by_cases hj : j = i
    · subst hj
      simpa using hok
    · simpa [update_of_ne hj] using h.routine j
  wg := hwg
  buffer := h.buffer
  closed_iff := h.closed_iff
  drained := fun hclosed => absurd hi (h.not_running hclosed i toSend)

end

end Invariant

/-! ### Steps -/

section Steps

variable {n : Nat} {get : Bool} {downloads : Fin n → Download} {s s' : State n} {i : Fin n}

def Main.rank (n : Nat) : Main → Nat
  | .starting routineId => n - routineId + 3
  | .waiting => 2
  | .closed => 1
  | .returned => 0

def Routine.rank (d : Download) (i : Fin n) : Routine n → Nat
  | .idle => (d.messages i).length + 2
  | .running toSend => toSend.length + 1
  | .finished => 0

def State.rank (downloads : Fin n → Download) (s : State n) : Nat :=
  s.main.rank n + ∑ i, (s.routines i).rank (downloads i) i

theorem State.received_of_mem (t : State n) {d : Download} {m : Message n} (hm : m ∈ d.messages i) :
    ∃ totalOffset : Fin n → Nat, t.received m =
      { t with
        routinesStatus := update t.routinesStatus i (t.routinesStatus i || m.args.endFlag)
        totalOffset := totalOffset } := by
  obtain ⟨hid, hpointer⟩ := Download.of_mem_messages hm
  unfold State.received
  cases hend : m.args.endFlag with
  | false =>
    rw [if_pos rfl, hpointer, Bool.or_false, update_eq_self]
    exact ⟨_, rfl⟩
  | true =>
    have hlt : m.args.routineId < n := hid ▸ i.isLt
    have hi : (⟨m.args.routineId, hlt⟩ : Fin n) = i := Fin.ext hid
    rw [if_neg (by simp), dif_pos hlt, Bool.or_true, hi]
    exact ⟨t.totalOffset, rfl⟩

section

variable (h : Inv get downloads s)
include h

theorem Inv.send_eq (hsend : s.send i = some s') :
    ∃ m rest totalOffset, s.routines i = .running (m :: rest) ∧
      s' = { s with
        routines := update s.routines i (.running rest)
        routinesStatus := update s.routinesStatus i (s.routinesStatus i || m.args.endFlag)
        totalOffset := totalOffset } := by
  unfold State.send at hsend
  split at hsend
  · next m rest hi =>
    have hok := h.routine i
    rw [hi] at hok
    obtain ⟨sent, hsent, _⟩ := hok
    have hm : m ∈ (downloads i).messages i := hsent ▸ mem_append_right _ mem_cons_self
    split at hsend
    · obtain ⟨totalOffset, heq⟩ := State.received_of_mem
        { s with routines := update s.routines i (.running rest) } hm
      rw [heq] at hsend
      exact ⟨m, rest, totalOffset, hi, (Option.some.inj hsend).symm⟩
    · cases hsend
    · next p hpanics =>
      obtain ⟨hclosed, _⟩ := Chan.handOver_eq_panics.mp hpanics
      exact absurd hi (h.not_running hclosed i _)
  · cases hsend

theorem Inv.send (hsend : s.send i = some s') :
    Inv get downloads s' ∧ s'.rank downloads < s.rank downloads := by
  obtain ⟨m, rest, totalOffset, hi, rfl⟩ := h.send_eq hsend
  have hok := h.routine i
  rw [hi] at hok
  obtain ⟨sent, hsent, htold⟩ := hok
  refine ⟨h.moved hi (r := .running rest) (by simp) ⟨sent ++ [m], ?_, ?_⟩ _ ?_ _, ?_⟩
  · rw [append_assoc, singleton_append, hsent]
  · rw [Bool.or_eq_true, htold]
    simp [or_and_right, exists_or]
  · rw [h.wg]
    refine (sum_update_same ?_).symm
    rw [hi]
    rfl
  · refine Nat.add_lt_add_left (sum_update_lt (g := fun j => Routine.rank (downloads j) j) ?_) _
    simp [hi, Routine.rank]

theorem Inv.done_eq (hdone : s.done i = some s') :
    ∃ wg, s.routines i = .running [] ∧ s.wg = wg + 1 ∧
      s' = { s with wg := wg, routines := update s.routines i .finished } := by
  unfold State.done at hdone
  split at hdone
  · next hi =>
    split at hdone
    · next wg hwg =>
      exact ⟨wg, hi, waitGroupDone_eq_goes.mp hwg, (Option.some.inj hdone).symm⟩
    · cases hdone
    · next p hpanics =>
      exact absurd (waitGroupDone_eq_panics.mp hpanics).1 (h.wg_pos hi).ne'
  · cases hdone

theorem Inv.done (hdone : s.done i = some s') :
    Inv get downloads s' ∧ s'.rank downloads < s.rank downloads := by
  obtain ⟨wg, hi, hwg, rfl⟩ := h.done_eq hdone
  have hok := h.routine i
  rw [hi] at hok
  obtain ⟨sent, hsent, htold⟩ := hok
  rw [append_nil] at hsent
  have hfinished : (Routine.finished : Routine n).Ok (downloads i) i (s.routinesStatus i) := by
    rw [Routine.Ok, htold, hsent, Download.endFlag_iff]
  have hsum : s.wg = ∑ j, (update s.routines i .finished j).live + 1 := by
    rw [h.wg]
    refine sum_update_sub ?_
    rw [hi]
    rfl
  refine ⟨?_, ?_⟩
  · have hmoved := h.moved hi (r := .finished) (by simp) hfinished wg (by omega) s.totalOffset
    rwa [update_eq_self] at hmoved
  · refine Nat.add_lt_add_left (sum_update_lt (g := fun j => Routine.rank (downloads j) j) ?_) _
    simp [hi, Routine.rank]

end

theorem Inv.started (h : Inv true downloads s) {k : Nat} (hmain : s.main = .starting k)
    (hk : k < n) :
    Inv true downloads
      { s with
        main := .starting (k + 1)
        wg := s.wg + 1
        routines := update s.routines ⟨k, hk⟩
          (.running ((downloads ⟨k, hk⟩).messages ⟨k, hk⟩)) } := by
  have hpassed : s.main.passed n = k := by rw [hmain]; rfl
  have hidle : s.routines ⟨k, hk⟩ = .idle := (h.idle_iff _).mpr (.inr hpassed.le)
  have hopen := h.channel_open (by simp [hmain]) (by simp [hmain])
  have htold : s.routinesStatus ⟨k, hk⟩ = false := by
    have hok := h.routine ⟨k, hk⟩
    rwa [hidle] at hok
  refine ⟨h.alive, hk, fun j => ?_, fun j => ?_, ?_, h.buffer, ?_, ?_⟩
  · by_cases hj : j = ⟨k, hk⟩
    · subst hj
      simp [Main.passed]
    · have hne : (j : Nat) ≠ k := fun heq => hj (Fin.ext heq)
      have hold := h.idle_iff j
      rw [hpassed] at hold
      simp only [update_of_ne hj, hold, Main.passed, Bool.true_eq_false, false_or]
      omega
  · by_cases hj : j = ⟨k, hk⟩
    · subst hj
      simp only [update_self]
      exact ⟨[], rfl, by simp [htold]⟩
    · simpa [update_of_ne hj] using h.routine j
  · rw [h.wg]
    refine (sum_update_add ?_).symm
    rw [hidle]
    rfl
  · simp [hopen]
  · simp [hopen]

section

variable (h : Inv get downloads s)
include h

theorem Inv.goesTo (main : Main) (hrank : main.rank n < s.main.rank n) (hle : main.passed n ≤ n)
    (hpassed : get = false ∨ main.passed n = s.main.passed n) {channel : Chan (Message n)}
    (hbuffer : channel.buffer = [])
    (hclosed : channel.closed = true ↔ main = .closed ∨ main = .returned)
    (hdrained : channel.closed = true → s.wg = 0) :
    Inv get downloads { s with main := main, visualizationChannel := channel } ∧
      State.rank downloads { s with main := main, visualizationChannel := channel } <
        s.rank downloads := by
  refine ⟨⟨h.alive, hle, fun j => ?_, h.routine, h.wg, hbuffer, hclosed, hdrained⟩, ?_⟩
  · rw [h.idle_iff]
    rcases hpassed with hget | hpassed
    · simp [hget]
    · rw [hpassed]
  · exact Nat.add_lt_add_right hrank _

theorem Inv.loopStep {k : Nat} (hmain : s.main = .starting k)
    (hstep : s.mainStep get downloads = some s') :
    Inv get downloads s' ∧ s'.rank downloads < s.rank downloads := by
  have hchannel := h.closed_iff
  have hle := h.passed_le
  rw [hmain] at hchannel hle
  have hrank : ∀ main : Main, main.rank n < n - k + 3 → main.rank n < s.main.rank n := by
    intro main hlt
    rw [hmain]
    exact hlt
  simp only [State.mainStep, hmain] at hstep
  split at hstep
  · next hk =>
    have hnext : Main.rank n (.starting (k + 1)) < s.main.rank n := by
      apply hrank
      simp only [Main.rank]
      omega
    split at hstep
    · next hget =>
      subst hget
      cases hstep
      have hidle : s.routines ⟨k, hk⟩ = .idle :=
        (h.idle_iff _).mpr (.inr (by rw [hmain]; exact le_rfl))
      refine ⟨h.started hmain hk, Nat.add_lt_add hnext ?_⟩
      refine sum_update_lt (g := fun j => Routine.rank (downloads j) j) ?_
      simp [hidle, Routine.rank]
    · next hget =>
      cases hstep
      refine h.goesTo _ hnext hk (.inl (by simpa using hget)) h.buffer ?_ h.drained
      simpa using hchannel
  · next hk =>
    cases hstep
    have hkn : n = k := le_antisymm (not_lt.mp hk) hle
    refine h.goesTo _ (hrank _ ?_) le_rfl (.inr (by rw [hmain]; exact hkn)) h.buffer ?_ h.drained
    · simp only [Main.rank]
      omega
    · simpa using hchannel

theorem Inv.closeStep (hmain : s.main = .waiting) (hstep : s.mainStep get downloads = some s') :
    Inv get downloads s' ∧ s'.rank downloads < s.rank downloads := by
  have hchannel := h.closed_iff
  rw [hmain] at hchannel
  simp only [State.mainStep, hmain] at hstep
  split at hstep
  · next hwg =>
    split at hstep
    · next channel hclose =>
      obtain ⟨_, rfl⟩ := Chan.close_eq_goes.mp hclose
      cases hstep
      refine h.goesTo _ ?_ le_rfl (.inr (by rw [hmain]; rfl)) h.buffer (by simp) fun _ => hwg
      rw [hmain]
      exact Nat.one_lt_two
    · cases hstep
    · next p hpanics =>
      obtain ⟨hclosed, _⟩ := Chan.close_eq_panics.mp hpanics
      simp [hchannel] at hclosed
  · cases hstep

theorem Inv.mainStep (hstep : s.mainStep get downloads = some s') :
    Inv get downloads s' ∧ s'.rank downloads < s.rank downloads := by
  cases hmain : s.main with
  | starting k => exact h.loopStep hmain hstep
  | waiting => exact h.closeStep hmain hstep
  | closed =>
    have hchannel := h.closed_iff
    rw [hmain] at hchannel
    simp only [State.mainStep, hmain] at hstep
    cases hstep
    refine h.goesTo _ ?_ le_rfl (.inr (by rw [hmain]; rfl)) h.buffer ?_ h.drained
    · rw [hmain]
      exact Nat.zero_lt_one
    · simpa using hchannel
  | returned =>
    simp only [State.mainStep, hmain] at hstep
    cases hstep

theorem Inv.receiveClosed_iff :
    s.receiveClosed = some s' ↔
      allRoutineDone s.routinesStatus = false ∧ s.visualizationChannel.closed = true ∧
        s' = s.fail .nilDereference := by
  unfold State.receiveClosed Chan.receive
  rw [h.buffer]
  cases hdone : allRoutineDone s.routinesStatus <;>
    cases hclosed : s.visualizationChannel.closed <;>
    simp [State.received, Message.zero, State.fail, eq_comm]

theorem Inv.next {e : Event n} (hstep : step get downloads s e = some s') :
    (e = .receiveClosed ∧ s.receiveClosed = some s') ∨
      Inv get downloads s' ∧ s'.rank downloads < s.rank downloads := by
  unfold step at hstep
  split at hstep
  · cases e with
    | main => exact .inr (h.mainStep hstep)
    | send i => exact .inr (h.send hstep)
    | done i => exact .inr (h.done hstep)
    | receiveClosed => exact .inl ⟨rfl, hstep⟩
  · cases hstep

end

end Steps

/-! ### Schedules -/

section Schedules

variable {n : Nat} {get : Bool} {downloads : Fin n → Download} {s : State n}

theorem always_alive (downloads : Fin n → Download) (hsucceed : ∀ i, (downloads i).succeeds = true)
    (events : List (Event n)) :
    Always (step true downloads) (Inv true downloads) (start n) events := by
  refine always_of_step events (fun s e s' h hstep => ?_) (Inv.start true downloads)
  rcases h.next hstep with ⟨_, hreceive⟩ | ⟨h', _⟩
  · obtain ⟨hwaits, hclosed, _⟩ := h.receiveClosed_iff.mp hreceive
    have hdone := h.allRoutineDone_of_closed hclosed rfl hsucceed
    rw [hwaits] at hdone
    cases hdone
  · exact h'

theorem Inv.step_eq (h : Inv get downloads s) (hmain : s.main ≠ .returned) (e : Event n) :
    step get downloads s e =
      match e with
      | .main => s.mainStep get downloads
      | .send i => s.send i
      | .done i => s.done i
      | .receiveClosed => s.receiveClosed :=
  if_pos ⟨h.alive, hmain⟩

theorem Inv.routine_goes (h : Inv get downloads s) (hmain : s.main = .waiting)
    (hwaits : allRoutineDone s.routinesStatus = false) {i : Fin n}
    (hi : s.routines i = .running toSend) :
    ∃ e s', step get downloads s e = some s' ∧ s'.main = .waiting := by
  have hgo : s.main ≠ .returned := by simp [hmain]
  cases toSend with
  | nil =>
    obtain ⟨wg, hwg⟩ := Nat.exists_eq_add_of_lt (h.wg_pos hi)
    have hdone : s.done i =
        some { s with wg := wg, routines := update s.routines i .finished } := by
      simp [State.done, hi, hwg, waitGroupDone]
    exact ⟨.done i, _, (h.step_eq hgo _).trans hdone, hmain⟩
  | cons m rest =>
    have hopen := h.channel_open (by simp [hmain]) (by simp [hmain])
    have hsend : ∃ s', s.send i = some s' := by
      simp [State.send, hi, Chan.handOver, hopen, hwaits]
    obtain ⟨s', hsend⟩ := hsend
    obtain ⟨_, _, _, _, rfl⟩ := h.send_eq hsend
    exact ⟨.send i, _, (h.step_eq hgo _).trans hsend, hmain⟩

theorem Inv.goes (h : Inv get downloads s) (hmain : s.main ≠ .returned)
    (hwaits : allRoutineDone s.routinesStatus = false) :
    ∃ e s', step get downloads s e = some s' ∧ (e = .receiveClosed ∨ s'.main ≠ .returned) := by
  cases hplace : s.main with
  | starting k =>
    have hstep : ∃ s', s.mainStep get downloads = some s' ∧ s'.main ≠ .returned := by
      unfold State.mainStep
      rw [hplace]
      by_cases hk : k < n
      · cases get <;> simp [hk]
      · simp [hk]
    obtain ⟨s', hstep, hgo⟩ := hstep
    exact ⟨.main, s', (h.step_eq hmain _).trans hstep, .inr hgo⟩
  | waiting =>
    by_cases hrunning : ∃ i toSend, s.routines i = .running toSend
    · obtain ⟨i, toSend, hi⟩ := hrunning
      obtain ⟨e, s', hstep, hwaiting⟩ := h.routine_goes hplace hwaits hi
      exact ⟨e, s', hstep, .inr (by simp [hwaiting])⟩
    · have hwg : s.wg = 0 := by
        rw [h.wg]
        refine Finset.sum_eq_zero fun i _ => ?_
        cases hi : s.routines i with
        | running toSend => exact absurd ⟨i, toSend, hi⟩ hrunning
        | idle => rfl
        | finished => rfl
      have hopen := h.channel_open (by simp [hplace]) (by simp [hplace])
      have hstep : s.mainStep get downloads = some { s with
          main := .closed
          visualizationChannel := s.visualizationChannel.asClosed } := by
        simp [State.mainStep, hplace, hwg, Chan.close, hopen]
      exact ⟨.main, _, (h.step_eq hmain _).trans hstep, .inr (by simp)⟩
  | closed =>
    have hclosed := h.closed_iff.mpr (.inl hplace)
    refine ⟨.receiveClosed, s.fail .nilDereference, ?_, .inl rfl⟩
    exact (h.step_eq hmain _).trans (h.receiveClosed_iff.mpr ⟨hwaits, hclosed, rfl⟩)
  | returned => exact absurd hplace hmain

theorem exists_nilDereference {j : Fin n} (hj : get = false ∨ (downloads j).succeeds = false) :
    ∃ events s, run (step get downloads) (start n) events = some s ∧
      s.failure = some .nilDereference := by
  refine exists_run_of_rank (I := fun s => Inv get downloads s ∧ s.main ≠ .returned)
    (State.rank downloads) ?_ ⟨Inv.start get downloads, by simp [start]⟩
  rintro s ⟨h, hmain⟩
  obtain ⟨e, s', hstep, rfl | hgo⟩ := h.goes hmain (h.not_allRoutineDone hj)
  · have hreceive := (h.step_eq hmain _).symm.trans hstep
    obtain ⟨_, _, rfl⟩ := h.receiveClosed_iff.mp hreceive
    exact ⟨_, _, hstep, .inl rfl⟩
  · refine ⟨e, s', hstep, ?_⟩
    rcases h.next hstep with ⟨_, hreceive⟩ | ⟨h', hrank⟩
    · obtain ⟨_, _, rfl⟩ := h.receiveClosed_iff.mp hreceive
      exact .inl rfl
    · exact .inr ⟨⟨h', hgo⟩, hrank⟩

end Schedules

theorem pathTokens_length_pos (srcPathes : Bytes) : 0 < (pathTokens srcPathes).length :=
  length_pos_iff.mpr (splitOn_ne_nil _ _)

/-- **The display and failures.** The display is safe in every schedule exactly if the operation is
a download and every routine succeeds. -/
theorem display_survives_iff (get : Bool) (srcPathes : Bytes)
    (downloads : Fin (pathTokens srcPathes).length → Download) :
    Survives get downloads ↔ get = true ∧ ∀ i, (downloads i).succeeds = true := by
  constructor
  · intro hsurvives
    by_contra hfails
    have hj : ∃ j, get = false ∨ (downloads j).succeeds = false := by
      by_cases hget : get = true
      · have hnot : ¬ ∀ i, (downloads i).succeeds = true := fun hall => hfails ⟨hget, hall⟩
        obtain ⟨j, hj⟩ := not_forall.mp hnot
        exact ⟨j, .inr (by simpa using hj)⟩
      · exact ⟨⟨0, pathTokens_length_pos srcPathes⟩, .inl (by simpa using hget)⟩
    obtain ⟨j, hj⟩ := hj
    obtain ⟨events, s, hrun, hfailure⟩ := exists_nilDereference hj
    exact (hsurvives events).run hrun hfailure
  · rintro ⟨rfl, hsucceed⟩ events
    refine (always_alive downloads hsucceed events).imp fun s h => ?_
    simp [h.alive]

/-- Two paths; the first download goes through, the server refuses the second one. The first end
message arrives, both routines finish, the channel is closed and the display receives once more. -/
theorem refused_download_crashes :
    (pathTokens (ascii "a:b")).length = 2 ∧
      (run (step true ![⟨[1], 1, true⟩, ⟨[], 0, false⟩]) (start 2)
        [.main, .main, .main, .send 0, .done 1, .send 0, .done 0, .main, .receiveClosed]).map
          State.failure = some (some .nilDereference) :=
  ⟨by decide, rfl⟩

end LinuxWorkouts.Tcp.Visualization
