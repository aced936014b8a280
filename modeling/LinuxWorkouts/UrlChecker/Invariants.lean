import LinuxWorkouts.UrlChecker.Moves

/-!
The invariants of the URL checker.

`PoolOk` ties the counter of the pool and the closed input channels to where the feeder and the
workers stand, and `MergeOk` does the same for the closer, the readers and the finisher. None of
the hazards fits both, so no turn panics. `LaneOk` keeps every URL on the channels of its priority,
and `OutputOk` says what has been printed.
-/

namespace LinuxWorkouts.UrlChecker

open Goroutines Function List

variable {W : Nat}

/-! ### The pool -/

def Feeder.running : Feeder → Nat
  | .left => 0
  | _ => 1

def Phase.running : Phase → Nat
  | .left => 0
  | _ => 1

def Feeder.hasClosed (feeder : Feeder) (k : Fin 3) : Bool :=
  match feeder with
  | .sending _ => false
  | .closing lanes => k ∉ lanes
  | .left => true

/-- Counter, input channels and goroutines of the pool fit together. -/
structure PoolOk (s : Checker W) : Prop where
  count : s.poolWait = s.feeder.running + ∑ w, (s.workers w).phase.running
  inputClosed : ∀ k, (s.chansInput k).closed = s.feeder.hasClosed k
  closingOnce : ∀ lanes, s.feeder = .closing lanes → lanes.Nodup
  drained : ∀ w, (s.workers w).phase = .left →
    (s.chansInput (lane w)).closed = true ∧ (s.chansInput (lane w)).buffer = []

theorem mem_priorities (k : Fin 3) : k ∈ priorities := by
  revert k
  decide

theorem priorities_nodup : priorities.Nodup := by decide

theorem Phase.running_eq_zero {phase : Phase} : phase.running = 0 ↔ phase = .left := by
  cases phase <;> simp [Phase.running]

variable {s s' : Checker W} {w : Fin W} {k : Fin 3} {count : Nat} {turn : Turn W}

section

variable (h : PoolOk s)
include h

theorem PoolOk.advance {worker : Worker}
    (hrun : worker.phase.running = (s.workers w).phase.running) :
    PoolOk { s with workers := update s.workers w worker } := by
  refine { h with count := ?_, drained := ?_ }
  · have hsum : ∑ j, (update s.workers w worker j).phase.running =
        ∑ j, (s.workers j).phase.running :=
      sum_update_same (g := fun worker : Worker => worker.phase.running) hrun
    rw [hsum]
    exact h.count
  · intro j hleft
    apply h.drained j
    by_cases hj : j = w
    · subst hj
      simp only [update_self] at hleft
      rw [← Phase.running_eq_zero, ← hrun, hleft, Phase.running]
    · simpa only [update_of_ne hj] using hleft

theorem PoolOk.feed {url : Url} {urls : List Url} (hfeeder : s.feeder = .sending (url :: urls))
    {c : Chan Url} (hc : c.closed = (s.chansInput k).closed) :
    PoolOk { s with chansInput := update s.chansInput k c, feeder := .sending urls } := by
  have hopen : ∀ j, (s.chansInput j).closed = false := by
    intro j
    rw [h.inputClosed, hfeeder, Feeder.hasClosed]
  constructor
  case count =>
    rw [h.count, hfeeder]
    rfl
  case inputClosed =>
    intro j
    by_cases hj : j = k
    · subst hj
      simpa [Feeder.hasClosed, hc] using hopen j
    · simpa [Feeder.hasClosed, hj] using hopen j
  case closingOnce => simp
  case drained =>
    -- nobody has left while the channels are open
    intro w hleft
    have hclosed := (h.drained w hleft).1
    rw [hopen] at hclosed
    cases hclosed

theorem PoolOk.closeInput {lanes : List (Fin 3)} (hfeeder : s.feeder = .closing (k :: lanes)) :
    PoolOk { s with
      chansInput := update s.chansInput k (s.chansInput k).asClosed
      feeder := .closing lanes } := by
  obtain ⟨hk, hnodup⟩ := nodup_cons.mp (h.closingOnce _ hfeeder)
  constructor
  case count =>
    rw [h.count, hfeeder]
    rfl
  case inputClosed =>
    intro j
    by_cases hj : j = k
    · subst hj
      simp [Feeder.hasClosed, hk]
    · have hclosed := h.inputClosed j
      rw [hfeeder] at hclosed
      simpa [hj, Feeder.hasClosed] using hclosed
  case closingOnce =>
    rintro _ ⟨⟩
    exact hnodup
  case drained =>
    intro w hleft
    obtain ⟨hclosed, hbuffer⟩ := h.drained w hleft
    by_cases hw : lane w = k
    · subst hw
      simpa using hbuffer
    · simpa [hw] using And.intro hclosed hbuffer

theorem PoolOk.receive {url : Url} {rest : List Url}
    (hbuffer : (s.chansInput (lane w)).buffer = url :: rest) :
    PoolOk { s with
      chansInput := update s.chansInput (lane w)
        ((s.chansInput (lane w)).withBuffer rest) } := by
  refine { h with inputClosed := ?_, drained := ?_ }
  · intro k
    rw [← h.inputClosed k]
    by_cases hk : k = lane w
    · subst hk
      simp
    · simp [hk]
  · -- a worker that has left saw the channel empty
    intro j hleft
    obtain ⟨hclosed, hempty⟩ := h.drained j hleft
    by_cases hlane : lane j = lane w
    · rw [hlane, hbuffer] at hempty
      cases hempty
    · simpa [hlane] using And.intro hclosed hempty

theorem PoolOk.workerLeaves {requests : List Request} (hphase : (s.workers w).phase = .receiving)
    (hbuffer : (s.chansInput (lane w)).buffer = [])
    (hclosed : (s.chansInput (lane w)).closed = true) (hcount : s.poolWait = count + 1) :
    PoolOk { s with
      workers := update s.workers w ⟨.left, requests⟩, poolWait := count } := by
  refine { h with count := ?_, drained := ?_ }
  · have hsum : ∑ j, (s.workers j).phase.running =
        ∑ j, (update s.workers w ⟨.left, requests⟩ j).phase.running + 1 :=
      sum_update_sub (g := fun worker : Worker => worker.phase.running) (by rw [hphase]; rfl)
    have hall := h.count
    rw [hcount, hsum] at hall
    exact Nat.succ.inj hall
  · intro j hleft
    by_cases hj : j = w
    · subst hj
      exact ⟨hclosed, hbuffer⟩
    · simp only [update_of_ne hj] at hleft
      exact h.drained j hleft

theorem PoolOk.move (hmove : Move s turn s') : PoolOk s' := by
  cases hmove with
  | feed hfeeder hlane => exact h.feed hfeeder rfl
  | fed hfeeder =>
    refine { h with count := ?_, inputClosed := ?_, closingOnce := ?_ }
    · rw [h.count, hfeeder]
      rfl
    · intro k
      rw [h.inputClosed, hfeeder]
      simp [Feeder.hasClosed, mem_priorities]
    · rintro lanes ⟨⟩
      exact priorities_nodup
  | closeInput hfeeder => exact h.closeInput hfeeder
  | feederLeaves hfeeder hcount =>
    have hall := h.count
    rw [hfeeder, hcount] at hall
    refine { h with count := ?_, inputClosed := ?_, closingOnce := ?_ }
    · simp only [Feeder.running] at hall ⊢
      omega
    · intro k
      rw [h.inputClosed, hfeeder]
      rfl
    · simp
  | receive hphase hbuffer => exact (h.receive hbuffer).advance (by rw [hphase]; rfl)
  | workerLeaves hphase hbuffer hclosed hcount => exact h.workerLeaves hphase hbuffer hclosed hcount
  | wake hrequest hresp => exact h.advance rfl
  | timeout hphase hresp => exact h.advance (by rw [hphase]; rfl)
  | accept hphase hrequest => exact h.advance (by rw [hphase]; rfl)
  | @answer w resp hphase hreader =>
    have hadvance : PoolOk { s with
        workers := update s.workers w ⟨.receiving, (s.workers w).requests⟩ } :=
      h.advance (by rw [hphase]; rfl)
    exact { hadvance with }
  | _ => exact { h with }

theorem PoolOk.worker_left (hwait : s.poolWait = 0) (w : Fin W) : (s.workers w).phase = .left := by
  have hsum : ∑ w, (s.workers w).phase.running = 0 := by
    have hcount := h.count
    omega
  exact Phase.running_eq_zero.mp (Finset.sum_eq_zero_iff.mp hsum w (Finset.mem_univ w))

theorem PoolOk.feeder_left (hwait : s.poolWait = 0) : s.feeder = .left := by
  have hrun : s.feeder.running = 0 := by
    have hcount := h.count
    omega
  cases hfeeder : s.feeder with
  | left => rfl
  | sending urls => simp [hfeeder, Feeder.running] at hrun
  | closing lanes => simp [hfeeder, Feeder.running] at hrun

end

/-! ### Closing and merging -/

def Closer.hasClosed (closer : Closer) (k : Fin 3) : Bool :=
  match closer with
  | .waiting => false
  | .closing lanes => k ∉ lanes
  | .left => true

/-- Output channels, closer, readers and finisher fit together. -/
structure MergeOk (s : Checker W) : Prop where
  outputClosed : ∀ k, (s.chansOutput k).closed = s.closer.hasClosed k
  closingOnce : ∀ lanes, s.closer = .closing lanes → lanes.Nodup
  poolDone : s.closer ≠ .waiting → s.poolWait = 0
  readerLeft : ∀ k, s.readerLeft k = true → (s.chansOutput k).closed = true
  count : s.mergeWait = ∑ k, (!s.readerLeft k).toNat
  mergeDone : s.finisher ≠ .waiting → s.mergeWait = 0
  outClosed : s.out.closed = decide (s.finisher = .left)

section

variable (h : MergeOk s)
include h

theorem MergeOk.closeOutput {lanes : List (Fin 3)} (hcloser : s.closer = .closing (k :: lanes)) :
    MergeOk { s with
      chansOutput := update s.chansOutput k (s.chansOutput k).asClosed
      closer := .closing lanes } := by
  obtain ⟨hk, hnodup⟩ := nodup_cons.mp (h.closingOnce _ hcloser)
  refine { h with outputClosed := ?_, closingOnce := ?_, poolDone := ?_, readerLeft := ?_ }
  · intro j
    by_cases hj : j = k
    · subst hj
      simp [Closer.hasClosed, hk]
    · have hclosed := h.outputClosed j
      rw [hcloser] at hclosed
      simpa [hj, Closer.hasClosed] using hclosed
  · rintro _ ⟨⟩
    exact hnodup
  · intro _
    exact h.poolDone (by simp [hcloser])
  · intro j hj
    by_cases hjk : j = k
    · subst hjk
      simp
    · simpa [hjk] using h.readerLeft j hj

theorem MergeOk.readerLeaves (hreader : s.readerLeft k = false)
    (hclosed : (s.chansOutput k).closed = true) (hcount : s.mergeWait = count + 1) :
    MergeOk { s with mergeWait := count, readerLeft := update s.readerLeft k true } := by
  refine { h with readerLeft := ?_, count := ?_, mergeDone := ?_ }
  · intro j hj
    by_cases hjk : j = k
    · subst hjk
      exact hclosed
    · exact h.readerLeft j (by simpa [hjk] using hj)
  · have hsum : ∑ j, (!s.readerLeft j).toNat = ∑ j, (!update s.readerLeft k true j).toNat + 1 :=
      sum_update_sub (g := fun b : Bool => (!b).toNat) (by rw [hreader]; rfl)
    have hall := h.count
    rw [hcount, hsum] at hall
    exact Nat.succ.inj hall
  · intro hfinisher
    have hzero := h.mergeDone hfinisher
    omega

theorem MergeOk.leave (hcount : s.poolWait = count + 1) : s.closer ≠ .waiting → count = 0 := by
  intro hcloser
  have hzero := h.poolDone hcloser
  omega

theorem MergeOk.move (hmove : Move s turn s') : MergeOk s' := by
  cases hmove with
  | feederLeaves hfeeder hcount => exact { h with poolDone := h.leave hcount }
  | workerLeaves hphase hbuffer hclosed hcount => exact { h with poolDone := h.leave hcount }
  | poolDone hcloser hwait =>
    refine { h with outputClosed := ?_, closingOnce := ?_, poolDone := fun _ => hwait }
    · intro k
      rw [h.outputClosed, hcloser]
      simp [Closer.hasClosed, mem_priorities]
    · rintro _ ⟨⟩
      exact priorities_nodup
  | closeOutput hcloser => exact h.closeOutput hcloser
  | cancel hcloser =>
    refine { h with outputClosed := ?_, closingOnce := by simp, poolDone := ?_ }
    · intro k
      rw [h.outputClosed, hcloser]
      rfl
    · intro _
      exact h.poolDone (by simp [hcloser])
  | readerLeaves hreader hclosed hcount => exact h.readerLeaves hreader hclosed hcount
  | mergeDone hfinisher hwait =>
    refine { h with mergeDone := fun _ => hwait, outClosed := ?_ }
    rw [h.outClosed, hfinisher]
    rfl
  | handOut hfinisher hcapacity =>
    have hzero := h.mergeDone (by simp [hfinisher])
    refine { h with mergeDone := fun _ => hzero, outClosed := ?_ }
    rw [h.outClosed, hfinisher]
    rfl
  | fill hfinisher hroom =>
    have hzero := h.mergeDone (by simp [hfinisher])
    refine { h with mergeDone := fun _ => hzero, outClosed := ?_ }
    rw [Chan.withBuffer_closed, h.outClosed, hfinisher]
    rfl
  | closeOut hfinisher =>
    have hzero := h.mergeDone (by simp [hfinisher])
    exact { h with mergeDone := fun _ => hzero, outClosed := rfl }
  | _ => exact { h with }

theorem MergeOk.poolWait_of_reader (hreader : s.readerLeft k = true) : s.poolWait = 0 := by
  apply h.poolDone
  intro hcloser
  have hclosed := h.outputClosed k
  rw [h.readerLeft k hreader, hcloser] at hclosed
  cases hclosed

theorem MergeOk.reader_left (hfinisher : s.finisher ≠ .waiting) (k : Fin 3) :
    s.readerLeft k = true := by
  have hsum : ∑ k, (!s.readerLeft k).toNat = 0 := h.count.symm.trans (h.mergeDone hfinisher)
  simpa using Finset.sum_eq_zero_iff.mp hsum k (Finset.mem_univ k)

end

/-! ### No hazard -/

def Feeder.urls : Feeder → List Url
  | .sending urls => urls
  | _ => []

theorem not_hazard (hpool : PoolOk s) (hmerge : MergeOk s)
    (hurls : ∀ url ∈ s.feeder.urls, laneOf url ≠ none) : ¬ Hazard s := by
  intro hazard
  cases hazard with
  | badPriority hfeeder hlane => exact hurls _ (by simp [hfeeder, Feeder.urls]) hlane
  | inputClosed hfeeder hclosed =>
    rw [hpool.inputClosed, hfeeder] at hclosed
    cases hclosed
  | inputClosedTwice hfeeder hclosed =>
    rw [hpool.inputClosed, hfeeder] at hclosed
    simp [Feeder.hasClosed] at hclosed
  | feederUncounted hfeeder hcount =>
    have hleft := hpool.feeder_left hcount
    rw [hfeeder] at hleft
    cases hleft
  | @workerUncounted w hphase hcount =>
    have hleft := hpool.worker_left hcount w
    rw [hphase] at hleft
    cases hleft
  | @outputClosed w resp hphase hclosed =>
    -- the closer has begun, so the worker has left
    have hcloser : s.closer ≠ .waiting := by
      intro hcloser
      rw [hmerge.outputClosed, hcloser] at hclosed
      cases hclosed
    have hleft := hpool.worker_left (hmerge.poolDone hcloser) w
    rw [hphase] at hleft
    cases hleft
  | outputClosedTwice hcloser hclosed =>
    rw [hmerge.outputClosed, hcloser] at hclosed
    simp [Closer.hasClosed] at hclosed
  | @readerUncounted k hreader hcount =>
    have hsum : ∑ k, (!s.readerLeft k).toNat = 0 := hmerge.count.symm.trans hcount
    have hleft := Finset.sum_eq_zero_iff.mp hsum k (Finset.mem_univ k)
    simp [hreader] at hleft
  | outClosed hfinisher hclosed =>
    rw [hmerge.outClosed, hfinisher] at hclosed
    cases hclosed

/-! ### Lanes -/

def Request.url : Request → Url
  | .sleeping url => url
  | .sending resp => resp.url

def Phase.url : Phase → Option Url
  | .selecting url => some url
  | .answering resp => some resp.url
  | _ => none

def Worker.InLane (worker : Worker) (k : Fin 3) : Prop :=
  (∀ url, worker.phase.url = some url → laneOf url = some k) ∧
    ∀ request ∈ worker.requests, laneOf request.url = some k

/-- Every URL stays on the channels of its priority. -/
structure LaneOk (s : Checker W) : Prop where
  feeder : ∀ url ∈ s.feeder.urls, laneOf url ≠ none
  inputs : ∀ k, ∀ url ∈ (s.chansInput k).buffer, laneOf url = some k
  workers : ∀ w, (s.workers w).InLane (lane w)
  responses : ∀ k, ∀ resp ∈ s.responses k, laneOf resp.url = some k

theorem LaneOk.advance (h : LaneOk s) {worker : Worker} (hworker : worker.InLane (lane w)) :
    LaneOk { s with workers := update s.workers w worker } := by
  refine { h with workers := ?_ }
  intro j
  by_cases hj : j = w
  · subst hj
    simpa using hworker
  · simpa [hj] using h.workers j

theorem LaneOk.setBuffer (h : LaneOk s) {c : Chan Url}
    (hc : ∀ url ∈ c.buffer, laneOf url = some k) :
    LaneOk { s with chansInput := update s.chansInput k c } := by
  refine { h with inputs := ?_ }
  intro j
  by_cases hj : j = k
  · subst hj
    simpa using hc
  · simpa [hj] using h.inputs j

theorem LaneOk.move (h : LaneOk s) (hmove : Move s turn s') : LaneOk s' := by
  cases hmove with
  | @feed url urls k hfeeder hlane =>
    have hbuffer : ∀ u ∈ (s.chansInput k).buffer ++ [url], laneOf u = some k := by
      intro u hu
      rcases mem_append.mp hu with hu | hu
      · exact h.inputs k u hu
      · rwa [mem_singleton.mp hu]
    refine { h.setBuffer hbuffer with feeder := ?_ }
    intro u hu
    apply h.feeder u
    rw [hfeeder]
    exact mem_cons_of_mem url hu
  | fed hfeeder => exact { h with feeder := by simp [Feeder.urls] }
  | @closeInput k lanes hfeeder =>
    exact { h.setBuffer (c := (s.chansInput k).asClosed) (h.inputs k) with
      feeder := by simp [Feeder.urls] }
  | feederLeaves hfeeder hcount => exact { h with feeder := by simp [Feeder.urls] }
  | @receive w url rest hphase hbuffer =>
    have hall : ∀ u ∈ url :: rest, laneOf u = some (lane w) := by
      rw [← hbuffer]
      exact h.inputs (lane w)
    have hset := h.setBuffer (c := (s.chansInput (lane w)).withBuffer rest)
      (fun u hu => hall u (mem_cons_of_mem url hu))
    apply hset.advance
    constructor
    · rintro u ⟨⟩
      exact hall url mem_cons_self
    · intro request hrequest
      rcases mem_append.mp hrequest with hold | hnew
      · exact (h.workers w).2 request hold
      · rw [mem_singleton.mp hnew]
        exact hall url mem_cons_self
  | @workerLeaves w count hphase hbuffer hclosed hcount =>
    have hadvance : LaneOk { s with
        workers := update s.workers w ⟨.left, (s.workers w).requests⟩ } :=
      h.advance ⟨by simp [Phase.url], (h.workers w).2⟩
    exact { hadvance with }
  | @wake w request url resp randInt randTime now hrequest hresp =>
    apply h.advance
    refine ⟨(h.workers w).1, ?_⟩
    intro r hr
    rcases mem_or_eq_of_mem_set hr with hold | rfl
    · exact (h.workers w).2 r hold
    · have hsleeping := (h.workers w).2 _ (mem_of_getElem? hrequest)
      simpa [Request.url, hresp] using hsleeping
  | @timeout w url resp hphase hresp =>
    apply h.advance
    refine ⟨?_, (h.workers w).2⟩
    rintro u ⟨⟩
    apply (h.workers w).1
    rw [hphase, hresp]
    rfl
  | @accept w request url resp hphase hrequest =>
    apply h.advance
    constructor
    · rintro u ⟨⟩
      exact (h.workers w).2 _ (mem_of_getElem? hrequest)
    · intro r hr
      exact (h.workers w).2 r (mem_of_mem_eraseIdx hr)
  | @answer w resp hphase hreader =>
    have hadvance : LaneOk { s with
        workers := update s.workers w ⟨.receiving, (s.workers w).requests⟩ } :=
      h.advance ⟨by simp [Phase.url], (h.workers w).2⟩
    refine { hadvance with responses := ?_ }
    intro k r hr
    by_cases hk : k = lane w
    · subst hk
      simp only [update_self, mem_append, mem_singleton] at hr
      rcases hr with hr | rfl
      · exact h.responses _ r hr
      · exact (h.workers w).1 _ (by rw [hphase]; rfl)
    · simp only [update_of_ne hk] at hr
      exact h.responses k r hr
  | _ => exact { h with }

/-! ### What is printed -/

def Finisher.rest : Finisher → List Response
  | .filling rest => rest
  | _ => []

/-- Nothing is printed before the merge is done; behind it, what is printed, what is in the channel
and what has still to be sent are the merged lists, in this order. -/
structure OutputOk (s : Checker W) : Prop where
  fits : s.out.buffer.length ≤ s.out.capacity
  early : s.finisher = .waiting → s.printed = [] ∧ s.out.buffer = []
  order : s.finisher ≠ .waiting → s.printed ++ s.out.buffer ++ s.finisher.rest = merged s
  ended : s.finished = true → s.finisher = .left ∧ s.out.buffer = []

theorem OutputOk.running (h : OutputOk s) (hfinisher : s.finisher ≠ .left) : s.finished ≠ true := by
  intro hended
  exact hfinisher (h.ended hended).1

theorem OutputOk.move (h : OutputOk s) (hmerge : MergeOk s) (hmove : Move s turn s') :
    OutputOk s' := by
  cases hmove with
  | @answer w resp hphase hreader =>
    -- a reader that still receives keeps the finisher waiting
    have hwaiting : s.finisher = .waiting := by
      by_contra hfinisher
      rw [hmerge.reader_left hfinisher] at hreader
      cases hreader
    exact { h with order := fun hfinisher => absurd hwaiting hfinisher }
  | mergeDone hfinisher hwait =>
    obtain ⟨hprinted, hbuffer⟩ := h.early hfinisher
    refine { h with early := by simp, order := ?_, ended := ?_ }
    · intro _
      simp [hprinted, hbuffer, Finisher.rest, merged]
    · intro hended
      exact absurd hended (h.running (by simp [hfinisher]))
  | handOut hfinisher hcapacity =>
    have hbuffer : s.out.buffer = [] := by
      have hfits := h.fits
      rw [hcapacity] at hfits
      exact eq_nil_of_length_eq_zero (Nat.le_zero.mp hfits)
    refine { h with early := by simp, order := ?_, ended := ?_ }
    · intro _
      have horder := h.order (by simp [hfinisher])
      simpa [hfinisher, hbuffer, Finisher.rest, merged] using horder
    · intro hended
      exact absurd hended (h.running (by simp [hfinisher]))
  | fill hfinisher hroom =>
    refine { h with fits := ?_, early := by simp, order := ?_, ended := ?_ }
    · simpa using hroom
    · intro _
      have horder := h.order (by simp [hfinisher])
      simpa [hfinisher, Finisher.rest, merged] using horder
    · intro hended
      exact absurd hended (h.running (by simp [hfinisher]))
  | closeOut hfinisher =>
    refine { h with early := by simp, order := ?_, ended := ?_ }
    · intro _
      have horder := h.order (by simp [hfinisher])
      simpa [hfinisher, Finisher.rest, merged] using horder
    · intro hended
      exact absurd hended (h.running (by simp [hfinisher]))
  | @print resp rest hbuffer =>
    refine { h with fits := ?_, early := ?_, order := ?_, ended := ?_ }
    · have hfits := h.fits
      rw [hbuffer] at hfits
      exact Nat.le_of_succ_le hfits
    · intro hfinisher
      have hempty := (h.early hfinisher).2
      rw [hbuffer] at hempty
      cases hempty
    · intro hfinisher
      have horder := h.order hfinisher
      simpa [hbuffer, merged] using horder
    · intro hended
      have hempty := (h.ended hended).2
      rw [hbuffer] at hempty
      cases hempty
  | printed hbuffer hclosed =>
    refine { h with ended := fun _ => ⟨?_, hbuffer⟩ }
    rw [hmerge.outClosed] at hclosed
    exact of_decide_eq_true hclosed
  | _ => exact { h with }

end LinuxWorkouts.UrlChecker
