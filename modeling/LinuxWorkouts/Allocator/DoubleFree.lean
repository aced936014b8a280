/-
Giving a pointer back twice.

After `myfree p` the chunk at `p` may no longer be on the list: its header then lies in the
middle of a larger free chunk, with the left marker still saying `ALLOCATED`. The test at
the head of `myfree` catches a second call all the same: either the left marker says `FREE`,
or the old size word leads to a word that does. Those words belong to a free chunk, so later
calls of `myfree` leave them alone (`Caught.free`), and `second_free_harmless` follows for every
run. It does not hold once a request has wrapped (`second_free_grows_head`): headers then
overlap, and the old size word is a link of another chunk.
-/

import LinuxWorkouts.Allocator.Freeing

namespace LinuxWorkouts.Allocator

open WordMemory Transition Option

/-! ### The words that stop a second call -/

/-- The word lies in a free chunk, between its markers or on one of them. -/
def InFree (cs : List Chunk) (w : Nat) : Prop :=
  ∃ c ∈ cs, c.left = FREE ∧ c.right = FREE ∧ c.addr - 8 ≤ w ∧ w ≤ c.marker

/-- The header at `p`, on the list or not, stops `myfree`: by its left marker, or by the right
marker that its size word leads to. -/
def Caught (m : Mem) (cs : List Chunk) (p size : Nat) : Prop :=
  InFree cs (p - 8) ∧ m.load (p - 8) = FREE ∨
    (InFree cs (p - 32) ∧ m.load (p - 32) = size) ∧
      InFree cs (p + size / 8 * 8) ∧ m.load (p + size / 8 * 8) = FREE

section Words

variable {h : Heap} {lo hi ρ p size w : Nat} {cs cs' xs ys front behind : List Chunk}
  {c d : Chunk} {l r : Option Chunk}

theorem Caught.myfree_eq (hc : Caught h.mem cs p size) (hlo : 32 ≤ p)
    (hhi : p + size / 8 * 8 < 2 ^ 64) : myfree h p = h := by
  have hp : p < 2 ^ 64 := by omega
  have htest : getRightBorderMarker h.mem p = FREE ∨ getLeftBorderMarker h.mem p = FREE := by
    rcases hc with ⟨-, hleft⟩ | ⟨⟨-, hsize⟩, -, hright⟩
    · exact .inr ((getLeftBorderMarker_eq hlo hp).trans hleft)
    · left
      rw [getRightBorderMarker, getSize_eq hlo hp, hsize, ptrAdd_eq (by omega), Nat.mul_comm]
      exact hright
  rw [myfree, if_neg (by omega), if_pos htest]

theorem mergeChunks_size_right {l r : Chunk} (hr : Represents h lo (xs ++ l :: r :: ys) hi) :
    (mergeChunks h.mem l.addr r.addr).load (r.addr - 32) = r.size := by
  obtain ⟨hl1, hl2⟩ := hr.addr_range (c := l) (by simp)
  obtain ⟨s, -, -, hlr, hsy⟩ := spaced_append.mp hr.spaced
  obtain ⟨hlm, hlm'⟩ := l.extent
  obtain ⟨hrm, hrm'⟩ := r.extent
  have hbehind := hsy.le_head
  rw [mergeChunks_eq hr, ← (hr.stored r (by simp)).size]
  generalize (ys.map Chunk.addr).headD 0 = nx at *
  by_cases h0 : nx = 0
  · simp (disch := omega) only [mergeMem, h0, ne_eq, not_true_eq_false, if_false, load_store_of_ne]
  · have := hbehind h0
    simp (disch := omega) only [mergeMem, if_pos h0, load_store_of_ne]

theorem myfree_marks (hr : Represents h lo (front ++ c :: behind) hi)
    (hround : Rounded ρ (front ++ c :: behind)) :
    (myfree h c.addr).mem.load (c.addr - 8) = FREE ∨
      (myfree h c.addr).mem.load (c.addr - 32) = c.size ∧
        (myfree h c.addr).mem.load c.marker = FREE := by
  have hbranch := myfree_branch hr
  have hfits := hround.freeFits hi
  have hstored := hr.stored c (by simp)
  generalize myfree h c.addr = h' at hbranch ⊢
  cases hbranch with
  | keep hkeep =>
    rcases hkeep with hright | hleft
    · exact .inr ⟨hstored.size, hstored.right.trans hright⟩
    · exact .inl (hstored.left.trans hleft)
  | mark _ _ _ _ =>
    left
    have hnew := (freeChunk_represents hr).stored c.freed (by simp)
    exact hnew.left
  | @mergePrev front _ l _ _ _ _ _ =>
    right
    have hlist : front ++ [l] ++ c :: behind = front ++ l :: c :: behind := by simp
    exact ⟨mergeChunks_size_right (hlist ▸ hr), (mergeChunks_spec (hlist ▸ hr)).right⟩
  | mergeNext _ _ _ _ => exact .inl (mergeChunks_spec hr).left
  | @mergeBoth front behind l _ r _ _ _ hrf =>
    -- the first merge sets the left marker of `c`; the second can only write `FREE` there
    left
    obtain ⟨v, -, hrep⟩ := mergeChunks_represents hr (hfits.next hrf)
    have hlist : front ++ [l] ++ c.merge r v :: behind = front ++ l :: c.merge r v :: behind := by
      simp
    rw [hlist] at hrep
    obtain ⟨log, hlog, hmem⟩ := mergeChunks_log hrep
    have hmid : c.merge r v ∈ front ++ l :: c.merge r v :: behind := by simp
    have hext := (c.merge r v).extent
    have hkeep := hlog.load_chunk hrep hmid (Nat.le_refl _) (by omega)
    rw [← hmem] at hkeep
    rcases hkeep with hsame | ⟨-, hfree⟩
    · exact hsame.trans (hrep.stored _ hmid).left
    · exact hfree

theorem Absorbs.inFree {e : Chunk} (ha : Absorbs cs c cs' xs ys l r d) (hr : Represents h lo cs hi)
    (he : e = c ∨ l = some e ∨ r = some e) (hlo : d.addr - 8 ≤ w) (hhi : w ≤ e.marker) :
    InFree cs' w :=
  ⟨d, by simp [ha.new], ha.free.2, ha.free.1, hlo, hhi.trans (ha.spans hr he).2⟩

theorem InFree.absorbs (hw : InFree cs w) (ha : Absorbs cs c cs' xs ys l r d)
    (hr : Represents h lo cs hi) : InFree cs' w := by
  obtain ⟨e, he, hleft, hright, hlo, hhi⟩ := hw
  have htaken : e = c ∨ l = some e ∨ r = some e → InFree cs' w := fun h => by
    have hspan := (ha.spans hr h).1
    exact ha.inFree hr h (by omega) hhi
  rw [ha.old] at he
  simp only [List.mem_append, List.mem_cons, mem_toList] at he
  rcases he with (he | he) | he | he | he
  · exact ⟨e, by simp [ha.new, he], hleft, hright, hlo, hhi⟩
  · exact htaken (.inr (.inl he))
  · exact htaken (.inl he)
  · exact htaken (.inr (.inr he))
  · exact ⟨e, by simp [ha.new, he], hleft, hright, hlo, hhi⟩

theorem caught_of_free (hr : Represents h lo (front ++ c :: behind) hi)
    (hround : Rounded ρ (front ++ c :: behind))
    (hr' : Represents (myfree h c.addr) lo cs' hi)
    (ha : Absorbs (front ++ c :: behind) c cs' xs ys l r d) :
    Caught (myfree h c.addr).mem cs' c.addr c.size := by
  have hext := c.extent
  have hrange := hr.addr_range (c := c) (by simp)
  have hin : ∀ w, d.addr - 8 ≤ w → w ≤ c.marker → InFree cs' w := fun w =>
    ha.inFree hr (.inl rfl)
  cases l with
  | none =>
    -- the chunk is still on the list, with its left marker set
    left
    have haddr : d.addr = c.addr := ha.addr
    have hleft := (hr'.stored d (by simp [ha.new])).left
    rw [haddr] at hleft
    exact ⟨hin _ (by omega) (by omega), hleft.trans ha.free.2⟩
  | some e =>
    -- its header lies in the new chunk, which starts at the chunk in front
    have haddr : d.addr = e.addr := ha.addr
    have hbefore := (List.pairwise_append.mp (ha.old ▸ hr.spaced).pairwise).2.2 e (by simp) c
      (by simp)
    have heext := e.extent
    rcases myfree_marks hr hround with hleft | ⟨hsize, hright⟩
    · exact .inl ⟨hin _ (by omega) (by omega), hleft⟩
    · exact .inr ⟨⟨hin _ (by omega) (by omega), hsize⟩, hin _ (by omega) (Nat.le_refl _), hright⟩

theorem Caught.free (hc : Caught h.mem (front ++ c :: behind) p size)
    (hr : Represents h lo (front ++ c :: behind) hi) (ht : Tiled lo (front ++ c :: behind) hi)
    (hround : Rounded ρ (front ++ c :: behind))
    (ha : Absorbs (front ++ c :: behind) c cs' xs ys l r d) :
    Caught (myfree h c.addr).mem cs' p size := by
  obtain ⟨log, hlog, hmem⟩ := myfree_log hr ht hround
  have hkeep : ∀ w, InFree (front ++ c :: behind) w →
      InFree cs' w ∧ (myfree h c.addr).mem.load w = h.mem.load w := by
    intro w hw
    refine ⟨hw.absorbs ha hr, ?_⟩
    obtain ⟨e, he, hleft, hright, hlo, hhi⟩ := hw
    rw [hmem]
    exact hlog.load_free hr he hleft hright hlo hhi
  rcases hc with ⟨hin, hleft⟩ | ⟨⟨hin, hsize⟩, hin', hright⟩
  · left
    obtain ⟨h1, h2⟩ := hkeep _ hin
    exact ⟨h1, h2.trans hleft⟩
  · right
    obtain ⟨h1, h2⟩ := hkeep _ hin
    obtain ⟨h3, h4⟩ := hkeep _ hin'
    exact ⟨⟨h1, h2.trans hsize⟩, h3, h4.trans hright⟩

end Words

/-! ### Whole runs -/

/-- The chunk that `find_chunk` picks for a request, if it picks one, is marked free. -/
def TakenFromFree (s : State) : Op → Prop
  | .alloc n => ∀ c, findChunk s.heap.mem s.heap.head (wadd n METAINFO_SIZE) = some c → c ≠ 0 →
      getLeftBorderMarker s.heap.mem c = FREE ∧ getRightBorderMarker s.heap.mem c = FREE
  | _ => True

instance (s : State) : ∀ op, Decidable (TakenFromFree s op)
  | .alloc n =>
    decidable_of_iff (∀ c ∈ findChunk s.heap.mem s.heap.head (wadd n METAINFO_SIZE), c ≠ 0 →
      getLeftBorderMarker s.heap.mem c = FREE ∧ getRightBorderMarker s.heap.mem c = FREE)
      ⟨fun h c hc => h c hc, fun h c hc => h c hc⟩
  | .free _ => .isTrue trivial
  | .write _ _ => .isTrue trivial

section Runs

variable {b : Buffer} {m : Mem} {s s' : State} {ops : List Op} {p : Nat}

theorem Tidy.servedFree {cs : List Chunk} {op : Op} (ht : Tidy b s cs) (hn : WholeWords op)
    (htaken : TakenFromFree s op) : ServedFree s op := by
  cases op with
  | free _ => trivial
  | write _ _ => trivial
  | alloc n =>
    intro cs' c hcs hfind
    rw [printList_eq ht.rep] at hcs
    obtain rfl : cs = cs' := Option.some.inj hcs
    have hreal : wadd n METAINFO_SIZE = n + METAINFO_SIZE := wadd_of_lt hn.2
    have hc := List.mem_of_find?_eq_some hfind
    have hpick : findChunk s.heap.mem s.heap.head (wadd n METAINFO_SIZE) = some c.addr := by
      rw [findChunk_eq ht.rep, hreal, hfind, map_some, getD_some]
    rw [← ht.rep.getLeft_mem hc]
    exact (htaken c.addr hpick (ht.rep.ne_null hc)).1

theorem tidy_of_taken (hsize : 40 ≤ b.size) (hwords : ∀ op ∈ ops, WholeWords op)
    (htaken : Along step TakenFromFree (start b m) ops)
    (hrun : run step (start b m) ops = some s) : ∃ cs, Tidy b s cs := by
  have halways : Always step (fun s => ∃ cs, Tidy b s cs) (start b m) ops := by
    refine always_of_along (fun _ h => h) ?_ ⟨_, start_tidy b m hsize⟩ htaken
    rintro s op s' hop ⟨_, ht⟩ hg hs
    exact ⟨_, (ht.next (hwords op hop) (ht.servedFree (hwords op hop) hg) hs).1⟩
  exact halways.run hrun

theorem caught_of_frees {size : Nat} {frees : List Nat} {cs : List Chunk} (ht : Tidy b s cs)
    (hc : Caught s.heap.mem cs p size) (hrun : run step s (frees.map .free) = some s') :
    ∃ cs', Tidy b s' cs' ∧ Caught s'.heap.mem cs' p size := by
  induction frees generalizing s cs with
  | nil =>
    cases hrun
    exact ⟨cs, ht, hc⟩
  | cons q frees ih =>
    obtain ⟨s₁, hs₁, hrest⟩ := bind_eq_some_iff.mp hrun
    have htidy := (ht.free hs₁).1
    obtain ⟨front, c, behind, xs, ys, l, r, d, rfl, -, rfl, rfl, -, -, habsorbs⟩ :=
      ht.free_absorbs hs₁
    have hcaught := hc.free ht.rep ht.tiled ht.rounded habsorbs
    exact ih htidy hcaught hrest

/-- **A second `myfree`.** In every run in which the requests are whole words that do not wrap
and are served from free chunks: when a live pointer is given back, and after it any other live
pointers, giving it back again changes nothing. -/
theorem second_free_harmless (b : Buffer) (m : Mem) (ops : List Op) (hsize : 40 ≤ b.size)
    (hwords : ∀ n, Op.alloc n ∈ ops → n % 8 = 0)
    (hwrap : ∀ n, Op.alloc n ∈ ops → n + METAINFO_SIZE < 2 ^ 64)
    (htaken : Along step TakenFromFree (start b m) ops)
    (hrun : run step (start b m) ops = some s) (frees : List Nat)
    (hfrees : run step s (.free p :: frees.map .free) = some s') :
    myfree s'.heap p = s'.heap := by
  have hwhole : ∀ op ∈ ops, WholeWords op := by
    intro op hop
    cases op with
    | alloc n => exact ⟨hwords n hop, hwrap n hop⟩
    | free _ => trivial
    | write _ _ => trivial
  obtain ⟨cs, ht⟩ := tidy_of_taken hsize hwhole htaken hrun
  obtain ⟨s₁, hs₁, hrest⟩ := bind_eq_some_iff.mp hfrees
  have htidy := (ht.free hs₁).1
  obtain ⟨front, c, behind, xs, ys, l, r, d, rfl, -, rfl, rfl, -, hrep, habsorbs⟩ :=
    ht.free_absorbs hs₁
  have hrange := ht.rep.addr_range (c := c) (by simp)
  have hstop := ht.rep.stop_le (c := c) (by simp)
  have hcaught := caught_of_free ht.rep ht.rounded hrep habsorbs
  obtain ⟨cs', -, hcaught'⟩ := caught_of_frees htidy hcaught hrest
  refine hcaught'.myfree_eq hrange.1 ?_
  unfold Chunk.stop Chunk.marker at hstop
  omega

end Runs

/-- Three requests are given back, the one behind the head first: its header then lies inside the
free head chunk. -/
theorem second_free_harmless_merged :
    ∃ s s', run step (start smallBuffer zeroMem) [.alloc 8, .alloc 16, .alloc 8] = some s ∧
      run step s (.free 65616 :: [65664, 65720].map .free) = some s' ∧
      myfree s'.heap 65616 = s'.heap := by
  have hboth : ((run step (start smallBuffer zeroMem) [.alloc 8, .alloc 16, .alloc 8]).bind
      fun s => run step s (.free 65616 :: [65664, 65720].map .free)).isSome := by decide +kernel
  obtain ⟨s', hs'⟩ := isSome_iff_exists.mp hboth
  obtain ⟨s, hs, hfrees⟩ := bind_eq_some_iff.mp hs'
  refine ⟨s, s', hs, hfrees, ?_⟩
  exact second_free_harmless smallBuffer zeroMem _ (by decide) (by simp) (by simp [METAINFO_SIZE])
    (by decide +kernel) hs _ hfrees

/-- Requests of 8, `2 ^ 64 - 24` and `2 ^ 64 - 16` bytes: the last two wrap, and their headers
overlap. -/
def overlappingHeaders : List Op :=
  [.alloc 8, .alloc (2 ^ 64 - 24), .alloc (2 ^ 64 - 16), .free 65680]

/-- All requests are multiples of 8 and are taken from the free head; the second `myfree` of the
pointer 65704 adds 40 to the size of the head chunk. -/
theorem second_free_grows_head :
    (∀ n, Op.alloc n ∈ overlappingHeaders → n % 8 = 0) ∧
      Along step TakenFromFree (start smallBuffer zeroMem) overlappingHeaders ∧
      ∃ s s', run step (start smallBuffer zeroMem) overlappingHeaders = some s ∧
        run step s [.free 65704] = some s' ∧ s'.heap.mem.load 65536 = 136 ∧
        (myfree s'.heap 65704).mem.load 65536 = 176 := by
  refine ⟨by simp [overlappingHeaders], by decide +kernel, ?_⟩
  have hboth : ((run step (start smallBuffer zeroMem) overlappingHeaders).bind
      fun s => run step s [.free 65704]).map
      (fun s' => (s'.heap.mem.load 65536, (myfree s'.heap 65704).mem.load 65536)) =
        some (136, 176) := by decide +kernel
  obtain ⟨s', hs', hread⟩ := map_eq_some_iff.mp hboth
  obtain ⟨s, hs, hfree⟩ := bind_eq_some_iff.mp hs'
  obtain ⟨hbefore, hafter⟩ := Prod.mk.inj hread
  exact ⟨s, s', hs, hfree, hbefore, hafter⟩

end LinuxWorkouts.Allocator
