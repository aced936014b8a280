import LinuxWorkouts.UrlChecker.Protocol

/-!
Which URLs the URL checker answers.

A worker uses one `respChan` for all its URLs. When the deadline makes it answer a URL without the
response of its request, that request stays blocked in its send, and the `select` for a later URL
may take the late response as the answer to that one. A turn that does not do so is `Fresh`.

As long as all turns are fresh, the URLs without an answer and the URLs answered are together the
input (`Balanced`), and every request that is left over belongs to a URL that has been answered or
to the one its worker is busy with (`Settled`). So the first turn that is not fresh answers some URL
for the second time, and nothing takes an answer back.
-/

namespace LinuxWorkouts.UrlChecker

open Goroutines Transition Multiset

variable {W : Nat}

def answered (s : Checker W) : Multiset Url := (answers s).map Response.url

/-- The turn does not take a response for another URL than the worker's. -/
def Fresh (s : Checker W) : Turn W → Prop
  | .accept w request =>
    match (s.workers w).phase, (s.workers w).requests[request]? with
    | .selecting url, some (.sending resp) => resp.url = url
    | _, _ => True
  | _ => True

instance decidableFresh (s : Checker W) (turn : Turn W) : Decidable (Fresh s turn) := by
  unfold Fresh
  split
  · split <;> infer_instance
  · infer_instance

def Balanced (urls : List Url) (s : Checker W) : Prop := waiting s + answered s = urls

/-- Every request is for a URL that has been answered or for the one its worker is busy with. -/
def Settled (s : Checker W) : Prop :=
  ∀ w, ∀ request ∈ (s.workers w).requests,
    request.url ∈ answered s ∨ (s.workers w).phase = .selecting request.url

/-! ### Fresh turns -/

variable {s s' : Checker W} {turn : Turn W} {w : Fin W}

theorem Picks.fresh {url : Url} {resp : Response} (h : Picks s turn w url resp)
    (hfresh : Fresh s turn) : resp.url = url := by
  rcases h.picked with ⟨-, hresp⟩ | ⟨request, rfl, hrequest⟩
  · exact hresp
  · simpa only [Fresh, h.phase, hrequest] using hfresh

theorem Balanced.move {urls : List Url} (h : Balanced urls s) (hfresh : Fresh s turn)
    (hmove : Move s turn s') : Balanced urls s' := by
  unfold Balanced answered at h ⊢
  rcases hmove.account with ⟨hwaiting, hanswers⟩ | ⟨w, url, resp, hpicks, hwaiting, hanswers⟩
  · rw [hwaiting, hanswers]
    exact h
  · rw [hanswers, map_add, map_singleton, hpicks.fresh hfresh, ← h, hwaiting]
    abel

theorem Move.answered_le (h : Move s turn s') : answered s ≤ answered s' := by
  apply map_le_map
  rcases h.account with ⟨-, hanswers⟩ | ⟨w, url, resp, -, -, hanswers⟩
  · rw [hanswers]
  · rw [hanswers]
    exact le_add_right _ _

theorem Settled.advance (h : Settled s) {worker : Worker} (hle : answered s ≤ answered s')
    (hworkers : s'.workers = Function.update s.workers w worker)
    (hworker : ∀ request ∈ worker.requests,
      request.url ∈ answered s' ∨ worker.phase = .selecting request.url) : Settled s' := by
  intro j
  rw [hworkers]
  by_cases hj : j = w
  · subst hj
    rw [Function.update_self]
    exact hworker
  · rw [Function.update_of_ne hj]
    intro request hrequest
    rcases h j request hrequest with hin | hphase
    · exact .inl (mem_of_le hle hin)
    · exact .inr hphase

theorem Settled.mem (h : Settled s) (hle : answered s ≤ answered s')
    (hphase : ∀ url, (s.workers w).phase ≠ .selecting url) :
    ∀ request ∈ (s.workers w).requests, request.url ∈ answered s' := by
  intro request hrequest
  rcases h w request hrequest with hin | hselecting
  · exact mem_of_le hle hin
  · exact absurd hselecting (hphase _)

theorem Settled.mem_of_pick (h : Settled s) (hle : answered s ≤ answered s') {url : Url}
    (hphase : (s.workers w).phase = .selecting url) (hurl : url ∈ answered s') :
    ∀ request ∈ (s.workers w).requests, request.url ∈ answered s' := by
  intro request hrequest
  rcases h w request hrequest with hin | hselecting
  · exact mem_of_le hle hin
  · rw [hphase] at hselecting
    cases hselecting
    exact hurl

theorem Settled.move (h : Settled s) (hfresh : Fresh s turn) (hmove : Move s turn s') :
    Settled s' := by
  have hle := hmove.answered_le
  cases hmove with
  | @receive w url rest hphase hbuffer =>
    refine h.advance hle rfl ?_
    intro request hrequest
    rcases List.mem_append.mp hrequest with hold | hnew
    · exact .inl (h.mem hle (by simp [hphase]) request hold)
    · rw [List.mem_singleton.mp hnew]
      exact .inr rfl
  | @workerLeaves w count hphase hbuffer hclosed hcount =>
    refine h.advance hle rfl ?_
    intro request hrequest
    exact .inl (h.mem hle (by simp [hphase]) request hrequest)
  | @wake w request url resp randInt randTime now hrequest hresp =>
    refine h.advance hle rfl ?_
    intro r hr
    have hold : ∃ r' ∈ (s.workers w).requests, r'.url = r.url := by
      rcases List.mem_or_eq_of_mem_set hr with hr | rfl
      · exact ⟨r, hr, rfl⟩
      · exact ⟨_, List.mem_of_getElem? hrequest, hresp.symm⟩
    obtain ⟨r', hr', hurl⟩ := hold
    rw [← hurl]
    exact (h w r' hr').imp_left (mem_of_le hle)
  | @timeout w url resp hphase hresp =>
    refine h.advance hle rfl ?_
    intro request hrequest
    refine .inl (h.mem_of_pick hle hphase ?_ request hrequest)
    rw [answered, (account_pick hphase).2, ← hresp]
    simp
  | @accept w request url resp hphase hrequest =>
    refine h.advance hle rfl ?_
    intro r hr
    refine .inl (h.mem_of_pick hle hphase ?_ r (List.mem_of_mem_eraseIdx hr))
    have hurl : resp.url = url := by simpa only [Fresh, hphase, hrequest] using hfresh
    rw [answered, (account_pick hphase).2, ← hurl]
    simp
  | @answer w resp hphase hreader =>
    refine h.advance hle rfl ?_
    intro request hrequest
    exact .inl (h.mem hle (by simp [hphase]) request hrequest)
  | _ => exact h

/-! ### A late response -/

def AnsweredTwice (s : Checker W) : Prop := ∃ url, 2 ≤ (answered s).count url

theorem AnsweredTwice.move (h : AnsweredTwice s) (hmove : Move s turn s') : AnsweredTwice s' := by
  obtain ⟨url, hcount⟩ := h
  exact ⟨url, hcount.trans (count_le_of_le url hmove.answered_le)⟩

theorem Settled.twice (h : Settled s) (hfresh : ¬ Fresh s turn) (hmove : Move s turn s') :
    AnsweredTwice s' := by
  cases hmove with
  | @accept w request url resp hphase hrequest =>
    have hurl : resp.url ≠ url := by simpa only [Fresh, hphase, hrequest] using hfresh
    have hin : resp.url ∈ answered s := by
      rcases h w _ (List.mem_of_getElem? hrequest) with hin | hselecting
      · exact hin
      · rw [hphase] at hselecting
        cases hselecting
        exact absurd rfl hurl
    refine ⟨resp.url, ?_⟩
    rw [answered, (account_pick hphase).2, map_add, map_singleton, count_add, count_singleton_self]
    exact Nat.succ_le_succ (count_pos.mpr hin)
  | _ => exact absurd trivial hfresh

/-! ### Whole runs -/

theorem balanced_start (urls : List Url) (workersCnt : Int) (deadline : Nat) :
    Balanced urls (start urls workersCnt deadline) := by
  rw [Balanced, answered, waiting_start, answers_start, map_zero, add_zero]

theorem settled_start (urls : List Url) (workersCnt : Int) (deadline : Nat) :
    Settled (start urls workersCnt deadline) := by
  intro w request hrequest
  simp [start] at hrequest

/-- **Each URL is answered once.** A run that ends has printed one response for each URL if no
worker took a late response for another URL. When the URLs are distinct, that is the only way. -/
theorem answered_once_iff (urls : List Url) (hurls : ∀ url ∈ urls, url.priority ≤ 2)
    (workersCnt : Int) (deadline : Nat) (turns : List (Turn (poolSize workersCnt)))
    (s : Checker (poolSize workersCnt))
    (hrun : run step (start urls workersCnt deadline) turns = some s)
    (hfinished : s.finished = true) :
    (Along step Fresh (start urls workersCnt deadline) turns →
        (s.printed.map Response.url).Perm urls) ∧
      (urls.Nodup → (s.printed.map Response.url).Perm urls →
        Along step Fresh (start urls workersCnt deadline) turns) := by
  have hsplit := run_split (G := fun _ _ => True) (H := Fresh)
    (I := fun s => ProtocolOk s ∧ Balanced urls s ∧ Settled s)
    (J := fun s => ProtocolOk s ∧ AnsweredTwice s)
    (fun s turn s' h _ hfresh hstep =>
      have hmove := h.1.toMove hstep
      ⟨h.1.step hstep, h.2.1.move hfresh hmove, h.2.2.move hfresh hmove⟩)
    (fun s turn s' h _ hfresh hstep =>
      ⟨h.1.step hstep, h.2.2.twice hfresh (h.1.toMove hstep)⟩)
    (fun s turn s' h _ hstep => ⟨h.1.step hstep, h.2.move (h.1.toMove hstep)⟩)
    ⟨protocolOk_start hurls workersCnt deadline, balanced_start urls workersCnt deadline,
      settled_start urls workersCnt deadline⟩
    (along_of_forall fun _ _ => trivial) hrun
  constructor
  · intro hfresh
    obtain ⟨hok, hbalanced, -⟩ := hsplit.1 hfresh
    obtain ⟨-, hwaiting, hanswers⟩ := hok.completed (three_le_poolSize workersCnt) hfinished
    rw [Balanced, answered, hwaiting, hanswers, zero_add, map_coe] at hbalanced
    exact coe_eq_coe.mp hbalanced
  · intro hnodup hperm
    by_contra hlate
    obtain ⟨hok, url, hcount⟩ := hsplit.2 hlate
    obtain ⟨-, -, hanswers⟩ := hok.completed (three_le_poolSize workersCnt) hfinished
    rw [answered, hanswers, map_coe, coe_eq_coe.mpr hperm, coe_count]
      at hcount
    have hle := List.nodup_iff_count_le_one.mp hnodup url
    omega

theorem answered_once_two :
    (∀ url ∈ twoUrls, url.priority ≤ 2) ∧ Along step Fresh (start twoUrls 1 900) twoTurns ∧
      ∃ s, run step (start twoUrls 1 900) twoTurns = some s ∧ s.finished = true ∧
        (s.printed.map Response.url).Perm twoUrls := by
  have hurls : ∀ url ∈ twoUrls, url.priority ≤ 2 := by decide
  have hfresh : Along step Fresh (start twoUrls 1 900) twoTurns := by decide +kernel
  have hend : (run step (start twoUrls 1 900) twoTurns).map (fun s => s.finished) = some true := by
    decide +kernel
  obtain ⟨s, hrun, hfinished⟩ := Option.map_eq_some_iff.mp hend
  have honce := answered_once_iff twoUrls hurls 1 900 twoTurns s hrun hfinished
  exact ⟨hurls, hfresh, s, hrun, hfinished, honce.1 hfresh⟩

def lateUrls : List Url := [⟨"first", 0⟩, ⟨"second", 0⟩]

/-- The deadline fires while the worker waits for the first URL. Its request wakes up before the
answer is taken over, and the `select` for the second URL picks the late response. -/
def lateAnswers : List (Turn (poolSize 1)) :=
  [.receive (worker 0), .expire, .timeout (worker 0),
    .wake (worker 0) 0 (Fin.last 3) (Fin.last 999) 1000, .answer (worker 0), .receive (worker 0),
    .accept (worker 0) 0, .answer (worker 0)]

theorem late_response_answers_twice :
    (∀ url ∈ lateUrls, url.priority ≤ 2) ∧
      ∃ s, run step (start lateUrls 1 900) (feedingTurns ++ lateAnswers ++ closingTurns) = some s ∧
        s.finished = true ∧ s.printed.map Response.url = [⟨"first", 0⟩, ⟨"first", 0⟩] ∧
        ¬ (s.printed.map Response.url).Perm lateUrls := by
  have hend : (run step (start lateUrls 1 900) (feedingTurns ++ lateAnswers ++ closingTurns)).map
      (fun s => (s.finished, s.printed.map Response.url)) =
        some (true, [⟨"first", 0⟩, ⟨"first", 0⟩]) := by decide +kernel
  obtain ⟨s, hrun, hs⟩ := Option.map_eq_some_iff.mp hend
  obtain ⟨hfinished, hprinted⟩ := Prod.ext_iff.mp hs
  refine ⟨by decide, s, hrun, hfinished, hprinted, ?_⟩
  rw [show s.printed.map Response.url = [⟨"first", 0⟩, ⟨"first", 0⟩] from hprinted]
  decide +kernel

end LinuxWorkouts.UrlChecker
