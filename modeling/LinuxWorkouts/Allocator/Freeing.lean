/-
What `myfree` leaves alone.

Every store of a call is one of a log: `FREE` into a border marker of a chunk of the list,
or a new size or link into the header of one (`myfree_log`). So the payloads keep their
content, and a word of a free chunk that is not a size or a link keeps its value for as long as
only `myfree` is called (`FreeLog.load_free`).

`myfree_coalesces` is the effect of one call on a settled heap, `Settled` being the property that
the heap tiles its buffer, that the markers of each chunk agree and that no two neighbours
are free.
-/

import LinuxWorkouts.Allocator.Runs

namespace LinuxWorkouts.Allocator

open WordMemory Transition List

/-! ### The stores of `myfree` -/

def MarksFree (cs : List Chunk) (w : Nat × Nat) : Prop :=
  w.2 = FREE ∧ ∃ c ∈ cs, w.1 = c.addr - 8 ∨ w.1 = c.marker

def Relinks (cs : List Chunk) (w : Nat × Nat) : Prop :=
  ∃ c ∈ cs, w.1 = c.addr - 32 ∨ w.1 = c.addr - 24 ∨ w.1 = c.addr - 16

def FreeLog (cs : List Chunk) (log : List (Nat × Nat)) : Prop :=
  ∀ w ∈ log, MarksFree cs w ∨ Relinks cs w

variable {log : List (Nat × Nat)} {w : Nat} {e : Chunk}

section Log

variable {h : Heap} {lo hi ρ : Nat} {cs cs' xs ys : List Chunk} {c l r : Chunk}

theorem FreeLog.append {log' : List (Nat × Nat)} (h1 : FreeLog cs log) (h2 : FreeLog cs log') :
    FreeLog cs (log ++ log') := by
  intro w hw
  rcases mem_append.mp hw with hw | hw
  · exact h1 w hw
  · exact h2 w hw

theorem FreeLog.of_subset (hlog : FreeLog cs' log) (haddr : ∀ d ∈ cs', ∃ e ∈ cs, e.addr = d.addr)
    (hmark : ∀ d ∈ cs', ∃ e ∈ cs, e.marker = d.marker) :
    FreeLog cs log := by
  intro w hw
  rcases hlog w hw with ⟨hv, d, hd, hwd | hwd⟩ | ⟨d, hd, hwd⟩
  · obtain ⟨e, he, heq⟩ := haddr d hd
    exact .inl ⟨hv, e, he, .inl (heq ▸ hwd)⟩
  · obtain ⟨e, he, heq⟩ := hmark d hd
    exact .inl ⟨hv, e, he, .inr (heq ▸ hwd)⟩
  · obtain ⟨e, he, heq⟩ := haddr d hd
    exact .inr ⟨e, he, heq ▸ hwd⟩

theorem freeChunk_log (hr : Represents h lo (xs ++ c :: ys) hi) :
    ∃ log, FreeLog (xs ++ c :: ys) log ∧ freeChunk h.mem c.addr = h.mem.storeAll log := by
  refine ⟨[(c.addr - 8, FREE), (c.marker, FREE)], fun w hw => ?_, freeChunk_eq hr⟩
  rcases mem_pair.mp hw with rfl | rfl
  · exact .inl ⟨rfl, c, by simp, .inl rfl⟩
  · exact .inl ⟨rfl, c, by simp, .inr rfl⟩

theorem mergeChunks_log (hr : Represents h lo (xs ++ l :: r :: ys) hi) :
    ∃ log, FreeLog (xs ++ l :: r :: ys) log ∧
      mergeChunks h.mem l.addr r.addr = h.mem.storeAll log := by
  have hl : ∀ v a, a = l.addr - 32 ∨ a = l.addr - 24 ∨ a = l.addr - 16 →
      Relinks (xs ++ l :: r :: ys) (a, v) := fun v a ha => ⟨l, by simp, ha⟩
  have hback : ∀ v, (ys.map Chunk.addr).headD 0 ≠ 0 →
      Relinks (xs ++ l :: r :: ys) ((ys.map Chunk.addr).headD 0 - 16, v) := by
    intro v h0
    cases ys with
    | nil => exact absurd rfl h0
    | cons y ys => exact ⟨y, by simp, .inr (.inr rfl)⟩
  rw [mergeChunks_eq hr]
  generalize (ys.map Chunk.addr).headD 0 = nx at *
  have hfirst : FreeLog (xs ++ l :: r :: ys) [(r.marker, FREE)] := by
    intro w hw
    rcases mem_singleton.mp hw with rfl
    exact .inl ⟨rfl, r, by simp, .inr rfl⟩
  have hrest : FreeLog (xs ++ l :: r :: ys)
      [(l.addr - 8, FREE), (l.addr - 24, nx), (l.addr - 32, l.size + r.size + 40)] := by
    intro w hw
    simp only [mem_cons, not_mem_nil, or_false] at hw
    rcases hw with rfl | rfl | rfl
    · exact .inl ⟨rfl, l, by simp, .inl rfl⟩
    · exact .inr (hl _ _ (.inr (.inl rfl)))
    · exact .inr (hl _ _ (.inl rfl))
  by_cases h0 : nx = 0
  · refine ⟨_, hfirst.append hrest, ?_⟩
    rw [mergeMem, if_neg (not_not.mpr h0)]
    rfl
  · have hlink : FreeLog (xs ++ l :: r :: ys) [(nx - 16, l.addr)] := by
      intro w hw
      rcases mem_singleton.mp hw with rfl
      exact .inr (hback _ h0)
    refine ⟨_, hfirst.append (hlink.append hrest), ?_⟩
    rw [mergeMem, if_pos h0]
    rfl

theorem myfree_log (hr : Represents h lo (xs ++ c :: ys) hi) (ht : Tiled lo (xs ++ c :: ys) hi)
    (hround : Rounded ρ (xs ++ c :: ys)) :
    ∃ log, FreeLog (xs ++ c :: ys) log ∧ (myfree h c.addr).mem = h.mem.storeAll log := by
  have hbranch := myfree_branch hr
  have hfits := hround.freeFits hi
  generalize myfree h c.addr = h' at hbranch ⊢
  cases hbranch with
  | keep _ => exact ⟨[], by simp [FreeLog], rfl⟩
  | mark _ _ _ _ => exact freeChunk_log hr
  | @mergePrev xs _ l _ _ _ _ _ =>
    have hlist : xs ++ [l] ++ c :: ys = xs ++ l :: c :: ys := by simp
    rw [hlist] at hr ⊢
    exact mergeChunks_log hr
  | mergeNext _ _ _ _ => exact mergeChunks_log hr
  | @mergeBoth xs ys l _ r _ _ _ hrf =>
    obtain ⟨log, hlog, hmem⟩ := mergeChunks_log hr
    obtain ⟨w, -, hrep⟩ := mergeChunks_represents hr (hfits.next hrf)
    have hlist : xs ++ [l] ++ c.merge r w :: ys = xs ++ l :: c.merge r w :: ys := by simp
    obtain ⟨log', hlog', hmem'⟩ := mergeChunks_log (hlist ▸ hrep)
    refine ⟨log ++ log', hlog.append (hlog'.of_subset ?_ ?_), ?_⟩
    -- the chunk that is merged last starts where `c` did and ends where `r` did
    · intro d hd
      simp only [mem_append, mem_cons] at hd
      rcases hd with hd | rfl | rfl | hd
      · exact ⟨d, by simp [hd], rfl⟩
      · exact ⟨d, by simp, rfl⟩
      · exact ⟨c, by simp, rfl⟩
      · exact ⟨d, by simp [hd], rfl⟩
    · intro d hd
      simp only [mem_append, mem_cons] at hd
      rcases hd with hd | rfl | rfl | hd
      · exact ⟨d, by simp [hd], rfl⟩
      · exact ⟨d, by simp, rfl⟩
      · exact ⟨r, by simp, (merge_stop_eq w hround.behind (tiled_adjacent ht)).symm⟩
      · exact ⟨d, by simp [hd], rfl⟩
    · rw [storeAll_append, ← hmem]
      exact hmem'

/-! ### What the stores keep -/

theorem FreeLog.load_chunk (hr : Represents h lo cs hi) (hlog : FreeLog cs log) (hc : c ∈ cs)
    (hlo : c.addr - 8 ≤ w) (hhi : w ≤ c.marker) :
    (h.mem.storeAll log).load w = h.mem.load w ∨
      (w = c.addr - 8 ∨ w = c.marker) ∧ (h.mem.storeAll log).load w = FREE := by
  rcases load_storeAll h.mem log w with hsame | ⟨e, he, rfl, hval⟩
  · exact .inl hsame
  obtain ⟨hc1, hc2⟩ := hr.addr_range hc
  rcases hlog e he with ⟨hfree, d, hd, hw⟩ | ⟨d, hd, hw⟩
  · right
    obtain ⟨hd1, hd2⟩ := hr.addr_range hd
    have hcd : c = d := by
      rcases hr.spaced.apart hc hd with heq | hlt | hlt
      · exact heq
      · unfold Chunk.stop Chunk.marker at *
        omega
      · unfold Chunk.stop Chunk.marker at *
        omega
    subst hcd
    refine ⟨hw, ?_⟩
    rw [hval, hfree]
    rfl
  · exfalso
    obtain ⟨hd1, hd2⟩ := hr.addr_range hd
    rcases hr.spaced.apart hc hd with rfl | hlt | hlt
    · omega
    · unfold Chunk.stop Chunk.marker at *
      omega
    · unfold Chunk.stop Chunk.marker at *
      omega

theorem FreeLog.load_payload (hr : Represents h lo cs hi) (hlog : FreeLog cs log) (hc : c ∈ cs)
    (hlo : c.addr ≤ w) (hhi : w < c.marker) :
    (h.mem.storeAll log).load w = h.mem.load w := by
  have hrange := hr.addr_range hc
  rcases hlog.load_chunk hr hc (by omega) (Nat.le_of_lt hhi) with hsame | ⟨hw, -⟩
  · exact hsame
  · omega

theorem FreeLog.load_free (hr : Represents h lo cs hi) (hlog : FreeLog cs log) (hc : c ∈ cs)
    (hleft : c.left = FREE) (hright : c.right = FREE) (hlo : c.addr - 8 ≤ w) (hhi : w ≤ c.marker) :
    (h.mem.storeAll log).load w = h.mem.load w := by
  rcases hlog.load_chunk hr hc hlo hhi with hsame | ⟨rfl | rfl, hfree⟩
  · exact hsame
  · rw [hfree, (hr.stored c hc).left, hleft]
  · rw [hfree, (hr.stored c hc).right, hright]

end Log

/-! ### Freeing in a settled heap -/

/-- A heap that tiles its buffer, in which the two markers of each chunk agree and no two
neighbours are free. -/
structure Settled (h : Heap) (first last : Nat) (ps : List Nat) : Prop where
  wellFormed : WellFormed h first last ps
  agree : ∀ p ∈ ps, getRightBorderMarker h.mem p = getLeftBorderMarker h.mem p
  apart : ps.IsChain fun p q =>
    ¬ (getLeftBorderMarker h.mem p = FREE ∧ getLeftBorderMarker h.mem q = FREE)

def FreeNeighbour (m : Mem) (p d : Nat) : Prop :=
  d ≠ 0 ∧ (d = getPrevChunkPtr m p ∨ d = getNextChunkPtr m p) ∧ getLeftBorderMarker m d = FREE

/-- Where the free chunk starts that freeing `p` makes: at the chunk in front if that is free. -/
def mergeStart (m : Mem) (p : Nat) : Nat :=
  let prev := getPrevChunkPtr m p
  if prev ≠ 0 ∧ getLeftBorderMarker m prev = FREE then prev else p

/-- The right marker of that chunk: the one of the chunk behind if that is free. -/
def mergeEnd (m : Mem) (p : Nat) : Nat :=
  let next := getNextChunkPtr m p
  if next ≠ 0 ∧ getLeftBorderMarker m next = FREE then rightMarkerAddr m next
  else rightMarkerAddr m p

/-- The effect of freeing `p`: one free chunk reaches over `p` and the free neighbours of `p`
and takes their place on the list; every other chunk keeps its place, size, markers
and payload. -/
structure Coalesced (h h' : Heap) (p : Nat) (ps ps' : List Nat) : Prop where
  free : getLeftBorderMarker h'.mem (mergeStart h.mem p) = FREE ∧
    getRightBorderMarker h'.mem (mergeStart h.mem p) = FREE
  extent : rightMarkerAddr h'.mem (mergeStart h.mem p) = mergeEnd h.mem p
  covers : mergeStart h.mem p ≤ p ∧ rightMarkerAddr h.mem p ≤ mergeEnd h.mem p
  listed : ∀ d, d ∈ ps' ↔
    d = mergeStart h.mem p ∨ d ∈ ps ∧ d ≠ p ∧ ¬ FreeNeighbour h.mem p d
  kept : ∀ d ∈ ps, d ≠ p → ¬ FreeNeighbour h.mem p d →
    readChunk h'.mem d = readChunk h.mem d ∧
      ∀ w, d ≤ w → w < rightMarkerAddr h.mem d → h'.mem.load w = h.mem.load w

variable {lo hi : Nat} {cs : List Chunk}

theorem Spaced.eq_of_addr {c d : Chunk} (hs : Spaced lo cs hi) (hc : c ∈ cs) (hd : d ∈ cs)
    (h : c.addr = d.addr) : c = d := by
  have hcx := c.extent
  have hdx := d.extent
  rcases hs.apart hc hd with heq | hlt | hlt
  · exact heq
  · omega
  · omega

theorem Spaced.nodup (hs : Spaced lo cs hi) : cs.Nodup := by
  refine hs.pairwise.imp fun {c d} hcd heq => ?_
  have hext := c.extent
  subst heq
  omega

section Absorbs

variable {h h' : Heap} {cs' xs ys : List Chunk} {c d : Chunk} {l r : Option Chunk}
  (ha : Absorbs cs c cs' xs ys l r d) (hr : Represents h lo cs hi)
include ha hr

theorem Absorbs.prev_cases :
    (∃ e, l = some e ∧ e ∈ cs ∧ getPrevChunkPtr h.mem c.addr = e.addr) ∨
      l = none ∧ (getPrevChunkPtr h.mem c.addr = 0 ∨
        ∃ e ∈ cs, e.left ≠ FREE ∧ getPrevChunkPtr h.mem c.addr = e.addr) := by
  have hr' := ha.old ▸ hr
  have hprev := hr'.getPrev_mem
  cases l with
  | some e => exact .inl ⟨e, rfl, by simp [ha.old], by simpa using hprev⟩
  | none =>
    refine .inr ⟨rfl, ?_⟩
    cases xs using reverseRecOn with
    | nil => exact .inl (by simpa using hprev)
    | append_singleton xs e =>
      exact .inr ⟨e, by simp [ha.old], ha.front rfl e (by simp), by simpa using hprev⟩

theorem Absorbs.next_cases :
    (∃ e, r = some e ∧ e ∈ cs ∧ getNextChunkPtr h.mem c.addr = e.addr) ∨
      r = none ∧ (getNextChunkPtr h.mem c.addr = 0 ∨
        ∃ e ∈ cs, e.left ≠ FREE ∧ getNextChunkPtr h.mem c.addr = e.addr) := by
  have hr' := ha.old ▸ hr
  have hnext := hr'.getNext_mem
  cases r with
  | some e => exact .inl ⟨e, rfl, by simp [ha.old], by simpa using hnext⟩
  | none =>
    refine .inr ⟨rfl, ?_⟩
    cases ys with
    | nil => exact .inl (by simpa using hnext)
    | cons e ys => exact .inr ⟨e, by simp [ha.old], ha.behind rfl e (by simp), by simpa using hnext⟩

theorem Absorbs.spans (he : e = c ∨ l = some e ∨ r = some e) :
    d.addr ≤ e.addr ∧ e.marker ≤ d.marker := by
  have hpair := (ha.old ▸ hr.spaced).pairwise
  have hbefore : ∀ a, l = some a → a.stop + 32 ≤ c.addr := fun a hl =>
    (pairwise_append.mp hpair).2.2 a (by simp [hl]) c (by simp)
  have hbehind : ∀ b, r = some b → c.stop + 32 ≤ b.addr := fun b hr' =>
    (pairwise_cons.mp (pairwise_append.mp hpair).2.1).1 b (by simp [hr'])
  have hcx := c.extent
  have hex := e.extent
  have hstart : d.addr ≤ c.addr := by
    rw [ha.addr]
    cases l with
    | none => exact Nat.le_refl _
    | some a =>
      have hax := a.extent
      have := hbefore a rfl
      rw [Option.getD_some]
      omega
  have hend : c.marker ≤ d.marker := by
    rw [ha.marker]
    cases r with
    | none => exact Nat.le_refl _
    | some b =>
      have hbx := b.extent
      have := hbehind b rfl
      rw [Option.getD_some]
      omega
  rcases he with rfl | hl | hr'
  · exact ⟨hstart, hend⟩
  · have haddr : d.addr = e.addr := by rw [ha.addr, hl, Option.getD_some]
    have := hbefore e hl
    omega
  · have hmarker : d.marker = e.marker := by rw [ha.marker, hr', Option.getD_some]
    have := hbehind e hr'
    omega

theorem Absorbs.mergeStart_eq : mergeStart h.mem c.addr = d.addr := by
  unfold mergeStart
  rcases ha.prev_cases hr with ⟨e, rfl, he, hprev⟩ | ⟨rfl, hprev | ⟨e, he, hleft, hprev⟩⟩
  · simp only [hprev]
    rw [hr.getLeft_mem he, if_pos ⟨hr.ne_null he, ha.left_free e rfl⟩, ha.addr, Option.getD_some]
  · simp only [hprev]
    rw [if_neg (by simp), ha.addr, Option.getD_none]
  · simp only [hprev]
    rw [hr.getLeft_mem he, if_neg (fun hand => hleft hand.2), ha.addr, Option.getD_none]

theorem Absorbs.mergeEnd_eq : mergeEnd h.mem c.addr = d.marker := by
  have hc : c ∈ cs := by simp [ha.old]
  unfold mergeEnd
  rcases ha.next_cases hr with ⟨e, rfl, he, hnext⟩ | ⟨rfl, hnext | ⟨e, he, hleft, hnext⟩⟩
  · simp only [hnext]
    rw [hr.getLeft_mem he, if_pos ⟨hr.ne_null he, ha.right_free e rfl⟩, ha.marker,
      Option.getD_some, hr.rightMarkerAddr_mem he]
  · simp only [hnext]
    rw [if_neg (by simp), ha.marker, Option.getD_none, hr.rightMarkerAddr_mem hc]
  · simp only [hnext]
    rw [hr.getLeft_mem he, if_neg (fun hand => hleft hand.2), ha.marker, Option.getD_none,
      hr.rightMarkerAddr_mem hc]

theorem Absorbs.freeNeighbour_iff (he : e ∈ cs) :
    FreeNeighbour h.mem c.addr e.addr ↔ l = some e ∨ r = some e := by
  have h0 := hr.ne_null he
  have hsame : ∀ {e' : Chunk}, e' ∈ cs → e.addr = e'.addr → e = e' :=
    fun he' heq => hr.spaced.eq_of_addr he he' heq
  unfold FreeNeighbour
  rw [hr.getLeft_mem he]
  constructor
  · rintro ⟨-, heq | heq, hfree⟩
    · rcases ha.prev_cases hr with ⟨e', hl, he', hprev⟩ | ⟨-, hprev | ⟨e', he', hleft, hprev⟩⟩
      · exact .inl (hsame he' (heq.trans hprev) ▸ hl)
      · exact absurd (heq.trans hprev) h0
      · exact absurd (hsame he' (heq.trans hprev) ▸ hfree) hleft
    · rcases ha.next_cases hr with ⟨e', hr', he', hnext⟩ | ⟨-, hnext | ⟨e', he', hleft, hnext⟩⟩
      · exact .inr (hsame he' (heq.trans hnext) ▸ hr')
      · exact absurd (heq.trans hnext) h0
      · exact absurd (hsame he' (heq.trans hnext) ▸ hfree) hleft
  · rintro (hl | hr')
    · rcases ha.prev_cases hr with ⟨e', hl', -, hprev⟩ | ⟨hnone, -⟩
      · obtain rfl : e' = e := Option.some.inj (hl'.symm.trans hl)
        exact ⟨h0, .inl hprev.symm, ha.left_free e' hl⟩
      · exact absurd (hnone.symm.trans hl) (by simp)
    · rcases ha.next_cases hr with ⟨e', hr'', -, hnext⟩ | ⟨hnone, -⟩
      · obtain rfl : e' = e := Option.some.inj (hr''.symm.trans hr')
        exact ⟨h0, .inr hnext.symm, ha.right_free e' hr'⟩
      · exact absurd (hnone.symm.trans hr') (by simp)

theorem Absorbs.stays_iff (he : e ∈ cs) :
    e ∈ xs ∨ e ∈ ys ↔ e.addr ≠ c.addr ∧ ¬ FreeNeighbour h.mem c.addr e.addr := by
  have hc : c ∈ cs := by simp [ha.old]
  have hnodup := ha.old ▸ hr.spaced.nodup
  have hcase : e.addr = c.addr ↔ e = c :=
    ⟨fun heq => hr.spaced.eq_of_addr he hc heq, fun heq => congrArg _ heq⟩
  rw [ha.freeNeighbour_iff hr he, ne_eq, hcase]
  rw [ha.old] at he
  simp only [mem_append, mem_cons, Option.mem_toList] at he
  simp only [nodup_append, nodup_cons, mem_append, mem_cons, Option.mem_toList] at hnodup
  grind

theorem Absorbs.coalesced (hr' : Represents h' lo cs' hi) (hlog : FreeLog cs log)
    (hmem : h'.mem = h.mem.storeAll log) :
    Coalesced h h' c.addr (cs.map Chunk.addr) (cs'.map Chunk.addr) := by
  have hc : c ∈ cs := by simp [ha.old]
  have hd : d ∈ cs' := by simp [ha.new]
  have hstart := ha.mergeStart_eq hr
  have hend := ha.mergeEnd_eq hr
  refine ⟨?_, ?_, ?_, fun p => ?_, fun p hp hne hnot => ?_⟩
  · rw [hstart, hr'.getLeft_mem hd, hr'.getRight_mem hd]
    exact ⟨ha.free.2, ha.free.1⟩
  · rw [hstart, hend, hr'.rightMarkerAddr_mem hd]
  · rw [hstart, hend, hr.rightMarkerAddr_mem hc]
    exact ha.spans hr (.inl rfl)
  · rw [hstart, ha.new]
    simp only [map_append, map_cons, mem_append, mem_cons, mem_map]
    constructor
    · rintro (⟨e, he, rfl⟩ | rfl | ⟨e, he, rfl⟩)
      · have hecs : e ∈ cs := by simp [ha.old, he]
        exact .inr ⟨⟨e, hecs, rfl⟩, (ha.stays_iff hr hecs).mp (.inl he)⟩
      · exact .inl rfl
      · have hecs : e ∈ cs := by simp [ha.old, he]
        exact .inr ⟨⟨e, hecs, rfl⟩, (ha.stays_iff hr hecs).mp (.inr he)⟩
    · rintro (rfl | ⟨⟨e, he, rfl⟩, hstays⟩)
      · exact .inr (.inl rfl)
      · rcases (ha.stays_iff hr he).mpr hstays with hin | hin
        · exact .inl ⟨e, hin, rfl⟩
        · exact .inr (.inr ⟨e, hin, rfl⟩)
  · obtain ⟨e, he, rfl⟩ := mem_map.mp hp
    have he' : e ∈ cs' := by
      rcases (ha.stays_iff hr he).mpr ⟨hne, hnot⟩ with hin | hin
      · simp [ha.new, hin]
      · simp [ha.new, hin]
    refine ⟨(hr'.readChunk_mem he').trans (hr.readChunk_mem he).symm, fun w hlo hhi => ?_⟩
    rw [hr.rightMarkerAddr_mem he] at hhi
    rw [hmem]
    exact hlog.load_payload hr he hlo hhi

end Absorbs

section Settled

variable {h : Heap} {first last : Nat} {ps : List Nat}

theorem Settled.chunks (hs : Settled h first last ps) :
    (∀ c ∈ ps.map (readChunk h.mem), c.right = c.left) ∧
      (ps.map (readChunk h.mem)).IsChain fun a b => ¬ (a.left = FREE ∧ b.left = FREE) := by
  refine ⟨fun c hc => ?_, (isChain_map (readChunk h.mem)).mpr hs.apart⟩
  obtain ⟨p, hp, rfl⟩ := mem_map.mp hc
  exact hs.agree p hp

theorem Represents.settled (hr : Represents h lo cs hi) (ht : Tiled lo cs hi)
    (hround : Rounded 0 cs) (hagree : ∀ c ∈ cs, c.right = c.left)
    (hapart : cs.IsChain fun a b => ¬ (a.left = FREE ∧ b.left = FREE)) :
    Settled h lo (hi - 8) (cs.map Chunk.addr) := by
  refine ⟨hr.wellFormed ht hround, fun p hp => ?_, ?_⟩
  · obtain ⟨c, hc, rfl⟩ := mem_map.mp hp
    rw [hr.getRight_mem hc, hr.getLeft_mem hc, hagree c hc]
  · rw [isChain_map]
    refine hapart.imp_of_mem_imp fun a b ha hb hab => ?_
    rwa [hr.getLeft_mem ha, hr.getLeft_mem hb]

/-- **`myfree` coalesces.** Freeing an allocated chunk of a settled heap leads to a settled heap
in which one free chunk covers it and exactly its free neighbours, and no other chunk has
changed. -/
theorem myfree_coalesces {p : Nat} (hs : Settled h first last ps) (hp : p ∈ ps)
    (halloc : getLeftBorderMarker h.mem p = ALLOCATED) :
    ∃ ps', Settled (myfree h p) first last ps' ∧ Coalesced h (myfree h p) p ps ps' := by
  have hrep := hs.wellFormed.represents
  have htiled := hs.wellFormed.tiled
  have hround := hs.wellFormed.rounded
  obtain ⟨hagree, hapart⟩ := hs.chunks
  have hps : (ps.map (readChunk h.mem)).map Chunk.addr = ps := by
    rw [map_map]
    exact map_id ps
  have hc := mem_map_of_mem (f := readChunk h.mem) hp
  have haddr : (readChunk h.mem p).addr = p := rfl
  have hleft : (readChunk h.mem p).left = ALLOCATED := halloc
  rw [← haddr, ← hps]
  generalize readChunk h.mem p = c at *
  generalize ps.map (readChunk h.mem) = cs at *
  have hright : c.right = ALLOCATED := (hagree c hc).trans hleft
  obtain ⟨front, behind, rfl⟩ := append_of_mem hc
  obtain ⟨cs', hstep, hrep'⟩ := myfree_represents hrep fun _ _ => hround.freeFits _
  obtain ⟨log, hlog, hmem⟩ := myfree_log hrep htiled hround
  obtain ⟨htiled', hround'⟩ := hstep.tiled htiled hround
  have hcoal := hstep.coalesce htiled hround hagree hleft hright
  obtain ⟨xs, ys, l, r, d, habsorbs⟩ := hcoal.absorbs htiled hround
  refine ⟨cs'.map Chunk.addr, ?_, habsorbs.coalesced hrep hrep' hlog hmem⟩
  have hagree' := habsorbs.forall (fun e h1 h2 => h1.trans h2.symm) hagree
  exact hrep'.settled htiled' hround' hagree' (habsorbs.apart hapart)

theorem Tidy.settled {b : Buffer} {s : State} (ht : Tidy b s cs) (hsize : b.size % 8 = 0) :
    Settled s.heap b.base (b.base + b.size / 8 * 8 - 8) (cs.map Chunk.addr) := by
  refine ht.rep.settled ht.tiled ?_ (fun c hc => (ht.coherent.markers c hc).1) ht.coherent.apart
  exact hsize ▸ ht.rounded

end Settled

/-- Two requests, the first given back: the second chunk lies between two free ones. -/
def betweenFree : List Op := [.alloc 16, .alloc 24, .free 65712]

theorem myfree_coalesces_between :
    ∃ s, run step (start smallBuffer zeroMem) betweenFree = some s ∧
      ∃ ps, Settled s.heap 65536 65728 ps ∧ 65648 ∈ ps ∧
        getLeftBorderMarker s.heap.mem 65648 = ALLOCATED ∧
        ∃ ps', Settled (myfree s.heap 65648) 65536 65728 ps' ∧
          Coalesced s.heap (myfree s.heap 65648) 65648 ps ps' := by
  have hrun : (run step (start smallBuffer zeroMem) betweenFree).map
      (fun s => (s.live, getLeftBorderMarker s.heap.mem 65648)) =
        some ([(65648, 24)], ALLOCATED) := by
    decide +kernel
  obtain ⟨s, hs, hread⟩ := Option.map_eq_some_iff.mp hrun
  obtain ⟨hlive, hleft⟩ := Prod.mk.inj hread
  obtain ⟨cs, ht⟩ := tidy_of_run (b := smallBuffer) (by decide)
    (by simp [betweenFree, WholeWords, METAINFO_SIZE]) (by decide +kernel) hs
  obtain ⟨c, hc, -, haddr, -⟩ := ht.chunk (e := (65648, 24)) (by simp [hlive])
  have hsettled := ht.settled (by decide)
  have hmem : 65648 ∈ cs.map Chunk.addr := mem_map.mpr ⟨c, hc, haddr⟩
  exact ⟨s, hs, _, hsettled, hmem, hleft, myfree_coalesces hsettled hmem hleft⟩

end LinuxWorkouts.Allocator
