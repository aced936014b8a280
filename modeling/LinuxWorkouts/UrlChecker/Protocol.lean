import LinuxWorkouts.UrlChecker.Invariants

/-!
Fan-out and fan-in of the URL checker.

`waiting` and `answers` are the URLs that have no answer yet and the answers that exist, wherever
they are. Every move leaves both alone, or turns one URL into one answer (`Move.account`), so the
number of answers at the end is the number of URLs. `fan_protocol` puts this together with the
invariants: no turn of any run panics, and a run that ends has printed as many responses as there
are URLs, by priority.
-/

namespace LinuxWorkouts.UrlChecker

open Goroutines Transition Function Multiset

variable {W : Nat}

/-! ### Accounting -/

def Phase.pending : Phase → Multiset Url
  | .selecting url => {url}
  | _ => 0

def Phase.answer : Phase → Multiset Response
  | .answering resp => {resp}
  | _ => 0

def waiting (s : Checker W) : Multiset Url :=
  s.feeder.urls + ∑ k, ((s.chansInput k).buffer : Multiset Url) +
    ∑ w, (s.workers w).phase.pending

def answers (s : Checker W) : Multiset Response :=
  ∑ w, (s.workers w).phase.answer + ∑ k, (s.responses k : Multiset Response)

/-- Worker `w` picks `resp` as the answer to `url`. -/
structure Picks (s : Checker W) (turn : Turn W) (w : Fin W) (url : Url) (resp : Response) :
    Prop where
  phase : (s.workers w).phase = .selecting url
  picked : turn = .timeout w ∧ resp.url = url ∨
    ∃ request, turn = .accept w request ∧
      (s.workers w).requests[request]? = some (.sending resp)

variable {url : Url} {s' : Checker W} {turn : Turn W}

section Account

variable {s : Checker W} {w : Fin W} {worker : Worker}

theorem pending_update {m : Multiset Url}
    (h : worker.phase.pending = (s.workers w).phase.pending + m) :
    ∑ j, (update s.workers w worker j).phase.pending =
      ∑ j, (s.workers j).phase.pending + m :=
  sum_update_add (g := fun worker : Worker => worker.phase.pending) h

theorem answer_update {m : Multiset Response}
    (h : worker.phase.answer = (s.workers w).phase.answer + m) :
    ∑ j, (update s.workers w worker j).phase.answer =
      ∑ j, (s.workers j).phase.answer + m :=
  sum_update_add (g := fun worker : Worker => worker.phase.answer) h

theorem account_pick {resp : Response} {requests : List Request}
    (hphase : (s.workers w).phase = .selecting url) :
    waiting s = waiting { s with
        workers := update s.workers w ⟨.answering resp, requests⟩ } + {url} ∧
      answers { s with workers := update s.workers w ⟨.answering resp, requests⟩ } =
        answers s + {resp} := by
  constructor
  · have hsum : ∑ j, (s.workers j).phase.pending =
        ∑ j, (update s.workers w ⟨.answering resp, requests⟩ j).phase.pending + {url} :=
      sum_update_sub (g := fun worker : Worker => worker.phase.pending)
        (by simp [hphase, Phase.pending])
    simp only [waiting, hsum, add_assoc]
  · have hsum : ∑ j, (update s.workers w ⟨.answering resp, requests⟩ j).phase.answer =
        ∑ j, (s.workers j).phase.answer + {resp} :=
      answer_update (by simp [hphase, Phase.answer])
    simp only [answers, hsum]
    rw [add_right_comm]

theorem account_idle (hpending : worker.phase.pending = (s.workers w).phase.pending)
    (hanswer : worker.phase.answer = (s.workers w).phase.answer) :
    waiting { s with workers := update s.workers w worker } = waiting s ∧
      answers { s with workers := update s.workers w worker } = answers s := by
  constructor
  · simp only [waiting, pending_update (hpending.trans (add_zero _).symm), add_zero]
  · simp only [answers, answer_update (hanswer.trans (add_zero _).symm), add_zero]

end Account

theorem Move.account {s : Checker W} (h : Move s turn s') :
    (waiting s' = waiting s ∧ answers s' = answers s) ∨
      ∃ w url resp, Picks s turn w url resp ∧ waiting s = waiting s' + {url} ∧
        answers s' = answers s + {resp} := by
  cases h with
  | @feed url urls k hfeeder hlane =>
    refine .inl ⟨?_, rfl⟩
    have hsum : ∑ j, ((update s.chansInput k
          ((s.chansInput k).withBuffer ((s.chansInput k).buffer ++ [url])) j).buffer :
            Multiset Url) = ∑ j, ((s.chansInput j).buffer : Multiset Url) + {url} :=
      sum_update_add (g := fun c : Chan Url => (c.buffer : Multiset Url))
        (coe_add _ _).symm
    simp only [waiting, hsum, hfeeder, Feeder.urls, ← cons_coe]
    rw [← singleton_add]
    abel
  | fed hfeeder =>
    refine .inl ⟨?_, rfl⟩
    simp only [waiting, hfeeder, Feeder.urls]
  | @closeInput k lanes hfeeder =>
    refine .inl ⟨?_, rfl⟩
    have hsum : ∑ j, ((update s.chansInput k (s.chansInput k).asClosed j).buffer :
        Multiset Url) = ∑ j, ((s.chansInput j).buffer : Multiset Url) :=
      sum_update_same (g := fun c : Chan Url => (c.buffer : Multiset Url)) rfl
    simp only [waiting, hsum, hfeeder, Feeder.urls]
  | feederLeaves hfeeder hcount =>
    refine .inl ⟨?_, rfl⟩
    simp only [waiting, hfeeder, Feeder.urls]
  | @receive w url rest hphase hbuffer =>
    refine .inl ⟨?_, ?_⟩
    · have hin : ∑ j, ((s.chansInput j).buffer : Multiset Url) =
          ∑ j, ((update s.chansInput (lane w)
            ((s.chansInput (lane w)).withBuffer rest) j).buffer : Multiset Url) + {url} :=
        sum_update_sub (g := fun c : Chan Url => (c.buffer : Multiset Url)) (by
          rw [hbuffer, Chan.withBuffer_buffer, ← cons_coe, ← singleton_add,
            add_comm])
      have hwork : ∑ j, (update s.workers w
          ⟨.selecting url, (s.workers w).requests ++ [.sleeping url]⟩ j).phase.pending =
            ∑ j, (s.workers j).phase.pending + {url} :=
        pending_update (by simp [hphase, Phase.pending])
      simp only [waiting, hin, hwork]
      abel
    · have hwork : ∑ j, (update s.workers w
          ⟨.selecting url, (s.workers w).requests ++ [.sleeping url]⟩ j).phase.answer =
            ∑ j, (s.workers j).phase.answer + 0 :=
        answer_update (by simp [hphase, Phase.answer])
      simp only [answers, hwork, add_zero]
  | workerLeaves hphase hbuffer hclosed hcount =>
    exact .inl (account_idle (by rw [hphase]; rfl) (by rw [hphase]; rfl))
  | wake hrequest hresp => exact .inl (account_idle rfl rfl)
  | timeout hphase hresp =>
    exact .inr ⟨_, _, _, ⟨hphase, .inl ⟨rfl, hresp⟩⟩, account_pick hphase⟩
  | accept hphase hrequest =>
    exact .inr ⟨_, _, _, ⟨hphase, .inr ⟨_, rfl, hrequest⟩⟩, account_pick hphase⟩
  | @answer w resp hphase hreader =>
    refine .inl ⟨?_, ?_⟩
    · have hwork : ∑ j, (update s.workers w
          ⟨.receiving, (s.workers w).requests⟩ j).phase.pending =
            ∑ j, (s.workers j).phase.pending + 0 :=
        pending_update (by simp [hphase, Phase.pending])
      simp only [waiting, hwork, add_zero]
    · have hwork : ∑ j, (s.workers j).phase.answer = ∑ j, (update s.workers w
          ⟨.receiving, (s.workers w).requests⟩ j).phase.answer + {resp} :=
        sum_update_sub (g := fun worker : Worker => worker.phase.answer)
          (by simp [hphase, Phase.answer])
      have hread : ∑ k, ((update s.responses (lane w)
          (s.responses (lane w) ++ [resp]) k : List Response) : Multiset Response) =
            ∑ k, (s.responses k : Multiset Response) + {resp} :=
        sum_update_add (g := fun l : List Response => (l : Multiset Response))
          (coe_add _ _).symm
      simp only [answers, hwork, hread]
      abel
  | _ => exact .inl ⟨rfl, rfl⟩

/-! ### Whole runs -/

/-- All that holds in every state. -/
structure ProtocolOk (s : Checker W) : Prop where
  calm : s.panicked = none
  pool : PoolOk s
  merge : MergeOk s
  lanes : LaneOk s
  output : OutputOk s

theorem Move.panicked {s : Checker W} (h : Move s turn s') : s'.panicked = s.panicked := by
  cases h <;> rfl

theorem ProtocolOk.toMove {s : Checker W} (h : ProtocolOk s) (hstep : step s turn = some s') :
    Move s turn s' :=
  move_of_step (not_hazard h.pool h.merge h.lanes.feeder) hstep

theorem ProtocolOk.step {s : Checker W} (h : ProtocolOk s)
    (hstep : UrlChecker.step s turn = some s') : ProtocolOk s' := by
  have hmove := h.toMove hstep
  exact ⟨hmove.panicked.trans h.calm, h.pool.move hmove, h.merge.move hmove, h.lanes.move hmove,
    h.output.move h.merge hmove⟩

theorem laneOf_ne_none (h : url.priority ≤ 2) : laneOf url ≠ none := by
  have hlt : url.priority.toNat < 3 := by
    have hle := UInt8.le_iff_toNat_le.mp h
    exact Nat.lt_succ_of_le hle
  simp [laneOf, hlt]

theorem protocolOk_start {urls : List Url} (hurls : ∀ url ∈ urls, url.priority ≤ 2)
    (workersCnt : Int) (deadline : Nat) : ProtocolOk (start urls workersCnt deadline) := by
  constructor
  case calm => rfl
  case pool =>
    refine ⟨?_, fun k => rfl, by simp [start], by simp [start]⟩
    simp [start, Feeder.running, Phase.running, Nat.add_comm]
  case merge =>
    refine ⟨fun k => rfl, by simp [start], by simp [start], by simp [start], ?_, by simp [start],
      rfl⟩
    simp [start]
  case lanes =>
    refine ⟨fun url hurl => laneOf_ne_none (hurls url hurl), ?_, ?_, ?_⟩
    · simp [start, Chan.make]
    · intro w
      simp [start, Worker.InLane, Phase.url]
    · simp [start]
  case output =>
    exact ⟨by simp [start, Chan.make], by simp [start, Chan.make], by simp [start], by simp [start]⟩

theorem three_le_poolSize (workersCnt : Int) : 3 ≤ poolSize workersCnt := by
  unfold poolSize
  split <;> omega

instance neZero_poolSize (workersCnt : Int) : NeZero (poolSize workersCnt) :=
  ⟨Nat.ne_of_gt (Nat.lt_of_lt_of_le (by decide) (three_le_poolSize workersCnt))⟩

theorem ProtocolOk.completed {s : Checker W} (h : ProtocolOk s) (hW : 3 ≤ W)
    (hfinished : s.finished = true) :
    s.printed = merged s ∧ waiting s = 0 ∧ answers s = s.printed := by
  obtain ⟨hleft, hbuffer⟩ := h.output.ended hfinished
  have hfinisher : s.finisher ≠ .waiting := by simp [hleft]
  have hwait : s.poolWait = 0 := h.merge.poolWait_of_reader (h.merge.reader_left hfinisher 0)
  have hprinted : s.printed = merged s := by
    have horder := h.output.order hfinisher
    simpa [hleft, hbuffer, Finisher.rest] using horder
  have hinput : ∀ k, (s.chansInput k).buffer = [] := by
    intro k
    -- every channel has a worker, and that has left
    have hlane : lane (⟨k, by omega⟩ : Fin W) = k := Fin.ext (Nat.mod_eq_of_lt k.isLt)
    have hdrained := h.pool.drained ⟨k, by omega⟩ (h.pool.worker_left hwait _)
    rw [hlane] at hdrained
    exact hdrained.2
  refine ⟨hprinted, ?_, ?_⟩
  · simp [waiting, h.pool.feeder_left hwait, hinput, h.pool.worker_left hwait, Feeder.urls,
      Phase.pending]
  · rw [hprinted]
    simp [answers, merged, h.pool.worker_left hwait, Phase.answer, Fin.sum_univ_three]

theorem priority_of_laneOf {k : Fin 3} (h : laneOf url = some k) : url.priority.toNat = k := by
  unfold laneOf at h
  split at h
  · cases h
    rfl
  · cases h

theorem LaneOk.merged_sorted {s : Checker W} (h : LaneOk s) :
    (merged s).Pairwise fun a b => a.url.priority ≤ b.url.priority := by
  have hcross : ∀ i j : Fin 3, i ≤ j → ∀ a ∈ s.responses i, ∀ b ∈ s.responses j,
      a.url.priority ≤ b.url.priority := by
    intro i j hij a ha b hb
    rw [UInt8.le_iff_toNat_le, priority_of_laneOf (h.responses i a ha),
      priority_of_laneOf (h.responses j b hb)]
    exact hij
  have hone : ∀ i, (s.responses i).Pairwise fun a b => a.url.priority ≤ b.url.priority := by
    intro i
    exact List.pairwise_of_forall_mem_list fun a ha b hb => hcross i i le_rfl a ha b hb
  rw [merged, List.pairwise_append, List.pairwise_append]
  refine ⟨⟨hone 0, hone 1, hcross 0 1 (by decide)⟩, hone 2, ?_⟩
  intro a ha b hb
  rcases List.mem_append.mp ha with ha | ha
  · exact hcross 0 2 (by decide) a ha b hb
  · exact hcross 1 2 (by decide) a ha b hb

def Counted (urls : List Url) (s : Checker W) : Prop :=
  (waiting s).card + (answers s).card = urls.length

theorem Counted.move {urls : List Url} {s : Checker W} (h : Counted urls s)
    (hmove : Move s turn s') : Counted urls s' := by
  unfold Counted at h ⊢
  rcases hmove.account with ⟨hwaiting, hanswers⟩ | ⟨w, url, resp, -, hwaiting, hanswers⟩
  · rw [hwaiting, hanswers]
    exact h
  · rw [hwaiting, card_add, card_singleton] at h
    rw [hanswers, card_add, card_singleton]
    omega

theorem waiting_start (urls : List Url) (workersCnt : Int) (deadline : Nat) :
    waiting (start urls workersCnt deadline) = urls := by
  simp [waiting, start, Chan.make, Feeder.urls, Phase.pending]

theorem answers_start (urls : List Url) (workersCnt : Int) (deadline : Nat) :
    answers (start urls workersCnt deadline) = 0 := by
  simp [answers, start, Phase.answer]

/-- **Fan-out and fan-in.** With priorities up to two, no turn of any run panics: nothing is sent on
a closed channel, no channel is closed twice, no counter gets negative. A run that ends has printed
one response for each URL, those with a higher priority first. -/
theorem fan_protocol (urls : List Url) (hurls : ∀ url ∈ urls, url.priority ≤ 2) (workersCnt : Int)
    (deadline : Nat) (turns : List (Turn (poolSize workersCnt))) :
    Always step (fun s => s.panicked = none) (start urls workersCnt deadline) turns ∧
      ∀ s, run step (start urls workersCnt deadline) turns = some s → s.finished = true →
        s.printed.length = urls.length ∧
          s.printed.Pairwise fun a b => a.url.priority ≤ b.url.priority := by
  have hinv : Always step (fun s => ProtocolOk s ∧ Counted urls s)
      (start urls workersCnt deadline) turns := by
    refine always_of_step turns ?_ ⟨protocolOk_start hurls workersCnt deadline, ?_⟩
    · rintro s turn s' ⟨hok, hcounted⟩ hstep
      exact ⟨hok.step hstep, hcounted.move (hok.toMove hstep)⟩
    · rw [Counted, waiting_start, answers_start, coe_card, card_zero, add_zero]
  refine ⟨hinv.imp fun s h => h.1.calm, ?_⟩
  intro s hrun hfinished
  obtain ⟨hok, hcounted⟩ := hinv.run hrun
  obtain ⟨hprinted, hwaiting, hanswers⟩ := hok.completed (three_le_poolSize workersCnt) hfinished
  constructor
  · rw [Counted, hwaiting, hanswers, card_zero, zero_add, coe_card] at hcounted
    exact hcounted
  · rw [hprinted]
    exact hok.lanes.merged_sorted

def twoUrls : List Url := [⟨"low", 2⟩, ⟨"high", 0⟩]

def worker (i : Nat) : Fin (poolSize 1) := Fin.ofNat (poolSize 1) i

def feedingTurns : List (Turn (poolSize 1)) := [.feed, .feed, .feed, .feed, .feed, .feed, .feed]

/-- The turns behind the last of two answers: the workers leave, everything is closed and merged,
and the responses are printed. -/
def closingTurns : List (Turn (poolSize 1)) :=
  [.receive (worker 0), .receive (worker 1), .receive (worker 2), .closePool, .closePool,
    .closePool, .closePool, .closePool, .readerLeave (lane (worker 0)),
    .readerLeave (lane (worker 1)), .readerLeave (lane (worker 2)), .finish, .finish, .finish,
    .finish, .print, .print, .print]

/-- Worker `i` receives a URL and answers it with the response of its own request. -/
def servedBy (i : Nat) : List (Turn (poolSize 1)) :=
  [.receive (worker i), .wake (worker i) 0 (Fin.last 3) (Fin.last 999) 1000, .accept (worker i) 0,
    .answer (worker i)]

def twoTurns : List (Turn (poolSize 1)) := feedingTurns ++ servedBy 2 ++ servedBy 0 ++ closingTurns

theorem fan_protocol_two :
    (∀ url ∈ twoUrls, url.priority ≤ 2) ∧
      ∃ s, run step (start twoUrls 1 900) twoTurns = some s ∧ s.finished = true ∧
        s.printed.map Response.url = [⟨"high", 0⟩, ⟨"low", 2⟩] ∧
        s.printed.length = twoUrls.length ∧
        s.printed.Pairwise fun a b => a.url.priority ≤ b.url.priority := by
  have hurls : ∀ url ∈ twoUrls, url.priority ≤ 2 := by decide
  have hend : (run step (start twoUrls 1 900) twoTurns).map
      (fun s => (s.finished, s.printed.map Response.url)) =
        some (true, [⟨"high", 0⟩, ⟨"low", 2⟩]) := by decide +kernel
  obtain ⟨s, hrun, hs⟩ := Option.map_eq_some_iff.mp hend
  obtain ⟨hfinished, hprinted⟩ := Prod.ext_iff.mp hs
  have hall := (fan_protocol twoUrls hurls 1 900 twoTurns).2 s hrun hfinished
  exact ⟨hurls, s, hrun, hfinished, hprinted, hall⟩

end LinuxWorkouts.UrlChecker
