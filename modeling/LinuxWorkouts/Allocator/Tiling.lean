/-
The tiling invariant of the allocator.

`Tiled lo cs hi` says that the chunks leave no byte of `[lo, hi)` uncovered: each
header starts in the word behind the previous right marker. `Rounded ρ cs` says
that every stored size but the first is a whole number of words and that the
first leaves the residue `ρ`. Requests that are multiples of 8 keep both
(`tiled_carve`, `FreeStep.tiled`), and then a merge never needs spare room
(`Rounded.freeFits`).

`WellFormed` is the same property stated on the memory of a heap;
`wellFormed_preserved` is the whole-heap result for `myalloc` and `myfree`.
-/

import LinuxWorkouts.Allocator.Operations

namespace LinuxWorkouts.Allocator

open WordMemory DoublyLinked List

/-! ### Tiled lists -/

def Tiled : Nat → List Chunk → Nat → Prop
  | lo, [], hi => lo = hi
  | lo, c :: cs, hi => c.addr = lo + 32 ∧ Tiled c.stop cs hi

/-- The first stored size has the residue `ρ` modulo 8, every other one is a
multiple of 8. -/
def Rounded (ρ : Nat) : List Chunk → Prop
  | [] => True
  | c :: cs => c.size % 8 = ρ ∧ ∀ d ∈ cs, d.size % 8 = 0

variable {lo hi ρ : Nat} {xs ys cs : List Chunk}

theorem tiled_append : Tiled lo (xs ++ ys) hi ↔ ∃ mid, Tiled lo xs mid ∧ Tiled mid ys hi := by
  induction xs generalizing lo with
  | nil => exact ⟨fun h => ⟨lo, rfl, h⟩, fun ⟨_, h1, h2⟩ => h1 ▸ h2⟩
  | cons x xs ih =>
    rw [cons_append]
    constructor
    · rintro ⟨hx, h⟩
      obtain ⟨mid, h1, h2⟩ := ih.mp h
      exact ⟨mid, ⟨hx, h1⟩, h2⟩
    · rintro ⟨mid, ⟨hx, h1⟩, h2⟩
      exact ⟨hx, ih.mpr ⟨mid, h1, h2⟩⟩

theorem Tiled.spaced (h : Tiled lo cs hi) : Spaced lo cs hi := by
  induction cs generalizing lo with
  | nil => exact Nat.le_of_eq h
  | cons c cs ih => exact ⟨Nat.le_of_eq h.1.symm, ih h.2⟩

theorem Tiled.aligned (h : Tiled lo cs hi) (hlo : lo % 8 = 0) : ∀ c ∈ cs, c.addr % 8 = 0 := by
  induction cs generalizing lo with
  | nil => simp
  | cons c cs ih =>
    have hc := h.1
    have hrest := ih h.2 (by unfold Chunk.stop Chunk.marker; omega)
    intro d hd
    rcases mem_cons.mp hd with rfl | hd
    · omega
    · exact hrest d hd

theorem Rounded.behind {l r : Chunk} (h : Rounded ρ (xs ++ l :: r :: ys)) : r.size % 8 = 0 := by
  cases xs with
  | nil => exact h.2 r (by simp)
  | cons x xs => exact h.2 r (by simp)

theorem Rounded.replace (a : Chunk) (old : List Chunk) (b : Chunk) (new : List Chunk)
    (h : Rounded ρ (xs ++ a :: old ++ ys)) (hab : b.size % 8 = a.size % 8)
    (hnew : ∀ d ∈ new, d.size % 8 = 0) : Rounded ρ (xs ++ b :: new ++ ys) := by
  cases xs with
  | nil =>
    refine ⟨hab.trans h.1, fun d hd => ?_⟩
    rcases mem_append.mp hd with hd | hd
    · exact hnew d hd
    · exact h.2 d (mem_append_right _ hd)
  | cons x xs =>
    have ha : a.size % 8 = 0 := h.2 a (by simp)
    have hmem : ∀ d ∈ xs ++ b :: new ++ ys, d.size % 8 = 0 := by
      intro d hd
      simp only [append_assoc, cons_append, mem_append, mem_cons] at hd
      rcases hd with hd | rfl | hd | hd
      · exact h.2 d (by simp [hd])
      · exact hab.trans ha
      · exact hnew d hd
      · exact h.2 d (by simp [hd])
    exact ⟨h.1, hmem⟩

section Preserve

variable {n : Nat} {cs' : List Chunk} {c : Chunk}

theorem carved_stop_eq (hn : n % 8 = 0) (hc : n + 40 < c.size) : (c.carved n).stop = c.stop := by
  simp only [Chunk.stop, Chunk.marker, Chunk.carved]
  omega

theorem tiled_carve (ht : Tiled lo (xs ++ c :: ys) hi) (hn : n % 8 = 0) (hc : n + 40 < c.size) :
    Tiled lo (xs ++ c.shrunk n :: c.carved n :: ys) hi := by
  obtain ⟨mid, hx, hc1, hy⟩ := tiled_append.mp ht
  refine tiled_append.mpr ⟨mid, hx, hc1, carved_addr c n, ?_⟩
  rw [carved_stop_eq hn hc]
  exact hy

theorem rounded_carve (hr : Rounded ρ (xs ++ c :: ys)) (hn : n % 8 = 0) (hc : n + 40 < c.size) :
    Rounded ρ (xs ++ c.shrunk n :: c.carved n :: ys) := by
  have hr' : Rounded ρ (xs ++ [c] ++ ys) := by simpa using hr
  have h := hr'.replace c [] (c.shrunk n) [c.carved n] ?_ ?_
  · simpa using h
  · simp only [Chunk.shrunk]
    omega
  · simpa [Chunk.carved] using hn

theorem tiled_allocChunks (ht : Tiled lo cs hi) (hr : Rounded ρ cs) (hn : n % 8 = 0) :
    Tiled lo (allocChunks n cs).1 hi ∧ Rounded ρ (allocChunks n cs).1 := by
  by_cases hfit : ∃ c ∈ cs, n + 40 < c.size
  · obtain ⟨xs, c, ys, rfl, hxs, hc⟩ := exists_first_fit hfit
    rw [allocChunks_fits hxs hc]
    exact ⟨tiled_carve ht hn hc, rounded_carve hr hn hc⟩
  · rw [allocChunks_null fun c hc => Nat.le_of_not_lt fun hlt => hfit ⟨c, hc, hlt⟩]
    exact ⟨ht, hr⟩

theorem merge_stop_eq {l r : Chunk} (v : Nat) (hr : r.size % 8 = 0) (hadj : r.addr = l.stop + 32) :
    (l.merge r v).marker = r.marker := by
  simp only [Chunk.stop, Chunk.marker, Chunk.merge] at *
  omega

theorem tiled_merge {l r : Chunk} {v : Nat} (ht : Tiled lo (xs ++ l :: r :: ys) hi)
    (hr : r.size % 8 = 0) : Tiled lo (xs ++ l.merge r v :: ys) hi := by
  obtain ⟨mid, hx, hl, hra, hy⟩ := tiled_append.mp ht
  have hstop : (l.merge r v).stop = r.stop := congrArg (· + 8) (merge_stop_eq v hr hra)
  refine tiled_append.mpr ⟨mid, hx, hl, ?_⟩
  rw [hstop]
  exact hy

theorem rounded_merge {l r : Chunk} {v : Nat} (h : Rounded ρ (xs ++ l :: r :: ys)) :
    Rounded ρ (xs ++ l.merge r v :: ys) := by
  have hr := h.behind
  have hlr : Rounded ρ (xs ++ [l, r] ++ ys) := by simpa using h
  have h' := hlr.replace l [r] (l.merge r v) [] ?_ (by simp)
  · simpa using h'
  · rw [merge_size]
    omega

theorem Rounded.freeFits (h : Rounded ρ (xs ++ c :: ys)) (hi : Nat) :
    FreeFits xs.getLast? c ys hi := by
  have hbehind : ∀ r ys', ys = r :: ys' → r.size % 8 = 0 := by
    rintro r ys' rfl
    exact h.behind
  have hself : ∀ l, xs.getLast? = some l → c.size % 8 = 0 := by
    intro l hl
    obtain ⟨xs', rfl⟩ := getLast?_eq_some_iff.mp hl
    have h' : Rounded ρ (xs' ++ l :: c :: ys) := by simpa using h
    exact h'.behind
  cases hl : xs.getLast? with
  | none =>
    cases ys with
    | nil => trivial
    | cons r ys =>
      have := hbehind r ys rfl
      exact fun _ => mergeFits_of_no_carry (by omega) _
  | some l =>
    have hc := hself l hl
    cases ys with
    | nil => exact fun _ => mergeFits_of_no_carry (by omega) _
    | cons r ys =>
      have hr := hbehind r ys rfl
      refine ⟨fun _ => mergeFits_of_no_carry (by omega) _, fun _ _ => ?_,
        fun _ _ => mergeFits_of_no_carry (by omega) _⟩
      refine mergeFits_of_no_carry ?_ _
      rw [merge_size]
      omega

theorem tiled_freed (ht : Tiled lo (xs ++ c :: ys) hi) : Tiled lo (xs ++ c.freed :: ys) hi := by
  obtain ⟨mid, hx, hc, hy⟩ := tiled_append.mp ht
  exact tiled_append.mpr ⟨mid, hx, hc, hy⟩

theorem rounded_freed (h : Rounded ρ (xs ++ c :: ys)) : Rounded ρ (xs ++ c.freed :: ys) := by
  have hc : Rounded ρ (xs ++ [c] ++ ys) := by simpa using h
  simpa using hc.replace c [] c.freed [] rfl (by simp)

theorem FreeStep.tiled (hf : FreeStep cs c cs') (ht : Tiled lo cs hi) (hr : Rounded ρ cs) :
    Tiled lo cs' hi ∧ Rounded ρ cs' := by
  cases hf with
  | keep _ => exact ⟨ht, hr⟩
  | mark _ _ _ _ => exact ⟨tiled_freed ht, rounded_freed hr⟩
  | mergePrev _ _ _ _ _ => exact ⟨tiled_merge ht hr.behind, rounded_merge hr⟩
  | mergeNext _ _ _ _ _ => exact ⟨tiled_merge ht hr.behind, rounded_merge hr⟩
  | @mergeBoth xs ys l _ r w v _ _ _ _ _ =>
    -- the inner merge first, as the code does
    have hlist : xs ++ l :: c :: r :: ys = (xs ++ [l]) ++ c :: r :: ys := by simp
    have hlist' : (xs ++ [l]) ++ c.merge r w :: ys = xs ++ l :: c.merge r w :: ys := by simp
    rw [hlist] at ht hr
    have ht1 := tiled_merge (v := w) ht hr.behind
    have hr1 := rounded_merge (v := w) hr
    rw [hlist'] at ht1 hr1
    exact ⟨tiled_merge ht1 hr1.behind, rounded_merge hr1⟩

end Preserve

/-! ### Well-formed heaps -/

def rightMarkerAddr (m : Mem) (p : Nat) : Nat := p + getSize m p / 8 * 8

/-- A heap whose chunks, in list order, are `ps`: linked both ways from `head`, in
address order, with sizes of whole words, each header starting in the word behind
the previous right marker, from the word `first` to the word `last`. -/
structure WellFormed (h : Heap) (first last : Nat) (ps : List Nat) : Prop where
  nonempty : ps.head? = some h.head
  linked : Seg (getNextChunkPtr h.mem) (getPrevChunkPtr h.mem) 0 ps 0
  ascending : ps.Pairwise (· < ·)
  sizes : ∀ p ∈ ps, getSize h.mem p % 8 = 0
  first_header : h.head = first + 8 * HEADER_SIZE
  contiguous : ps.IsChain fun p q => q = rightMarkerAddr h.mem p + 8 + 8 * HEADER_SIZE
  last_marker : ∀ p, ps.getLast? = some p → rightMarkerAddr h.mem p = last
  bound : last + 8 ≤ 2 ^ 64

theorem Represents.rightMarkerAddr_mem {h : Heap} {c : Chunk} (hr : Represents h lo cs hi)
    (hc : c ∈ cs) : rightMarkerAddr h.mem c.addr = c.marker := by
  rw [rightMarkerAddr, hr.getSize_mem hc, Chunk.marker]

def totalBytes (m : Mem) (ps : List Nat) : Nat :=
  (ps.map fun p => getSize m p + METAINFO_SIZE).sum

section WellFormed

variable {h : Heap} {first last : Nat} {ps : List Nat}

private theorem tiled_of_contiguous {m : Mem} {p : Nat} (hp : p = lo + 32)
    (hchain : (p :: ps).IsChain fun p q => q = rightMarkerAddr m p + 8 + 8 * HEADER_SIZE)
    (hlast : ∀ q, (p :: ps).getLast? = some q → rightMarkerAddr m q = last) :
    Tiled lo ((p :: ps).map (readChunk m)) (last + 8) := by
  induction ps generalizing p lo with
  | nil =>
    have := hlast p rfl
    exact ⟨hp, congrArg (· + 8) this⟩
  | cons q ps ih =>
    obtain ⟨hq, hrest⟩ := isChain_cons_cons.mp hchain
    refine ⟨hp, ih hq hrest fun z hz => hlast z ?_⟩
    simpa using hz

section

variable (hw : WellFormed h first last ps)
include hw

theorem WellFormed.tiled : Tiled first (ps.map (readChunk h.mem)) (last + 8) := by
  cases ps with
  | nil => cases hw.nonempty
  | cons p ps =>
    have hp : p = h.head := by simpa using hw.nonempty
    exact tiled_of_contiguous (hp.trans hw.first_header) hw.contiguous hw.last_marker

theorem WellFormed.rounded : Rounded 0 (ps.map (readChunk h.mem)) := by
  cases ps with
  | nil => trivial
  | cons p ps =>
    refine ⟨hw.sizes p (by simp), fun d hd => ?_⟩
    obtain ⟨q, hq, rfl⟩ := mem_map.mp hd
    exact hw.sizes q (by simp [hq])

theorem WellFormed.represents : Represents h first (ps.map (readChunk h.mem)) (last + 8) := by
  have hspaced := hw.tiled.spaced
  have hmap : (ps.map (readChunk h.mem)).map Chunk.addr = ps := by
    rw [map_map]
    exact map_id ps
  have hrange : ∀ p ∈ ps, 32 ≤ p ∧ rightMarkerAddr h.mem p < 2 ^ 64 := by
    intro p hp
    have hin := hspaced.mem (mem_map_of_mem hp)
    have hb := hw.bound
    simp only [Chunk.stop, Chunk.marker, readChunk] at hin
    unfold rightMarkerAddr
    omega
  have hlt : ∀ p ∈ ps, p < 2 ^ 64 := fun p hp =>
    Nat.lt_of_le_of_lt (Nat.le_add_right _ _) (hrange p hp).2
  refine ⟨?_, ?_, ?_, hspaced, hw.bound⟩
  · rw [hmap]
    exact hw.nonempty
  · intro c hc
    obtain ⟨p, hp, rfl⟩ := mem_map.mp hc
    obtain ⟨h1, h2⟩ := hrange p hp
    refine ⟨(getSize_eq h1 (hlt p hp)).symm, (getLeftBorderMarker_eq h1 (hlt p hp)).symm, ?_⟩
    unfold rightMarkerAddr at h2
    simp only [readChunk, Chunk.marker, getRightBorderMarker]
    rw [ptrAdd_eq (by omega), Nat.mul_comm]
  · rw [hmap]
    exact hw.linked.congr (fun p hp => (getNextChunkPtr_eq (hrange p hp).1 (hlt p hp)).symm)
      (fun p hp => (getPrevChunkPtr_eq (hrange p hp).1 (hlt p hp)).symm)

end

private theorem contiguous_of_tiled {m : Mem} (ht : Tiled lo cs hi)
    (hsize : ∀ c ∈ cs, getSize m c.addr = c.size) :
    (cs.map Chunk.addr).IsChain fun p q => q = rightMarkerAddr m p + 8 + 8 * HEADER_SIZE := by
  induction cs generalizing lo with
  | nil => exact .nil
  | cons c cs ih =>
    cases cs with
    | nil => exact .singleton _
    | cons d ds =>
      refine isChain_cons_cons.mpr
        ⟨?_, ih ht.2 fun e he => hsize e (mem_cons_of_mem _ he)⟩
      rw [rightMarkerAddr, hsize c (by simp)]
      exact ht.2.1

theorem Tiled.getLast {c : Chunk} (ht : Tiled lo cs hi) (hc : cs.getLast? = some c) :
    c.stop = hi := by
  obtain ⟨xs, rfl⟩ := getLast?_eq_some_iff.mp hc
  obtain ⟨mid, -, -, hend⟩ := tiled_append.mp ht
  exact hend

theorem Represents.wellFormed (hr : Represents h lo cs hi) (ht : Tiled lo cs hi)
    (hround : Rounded 0 cs) : WellFormed h lo (hi - 8) (cs.map Chunk.addr) := by
  have hrange := fun (c : Chunk) (hc : c ∈ cs) => hr.addr_range hc
  have hsize := fun (c : Chunk) (hc : c ∈ cs) => hr.getSize_mem hc
  have hpos : 8 ≤ hi := by
    cases cs with
    | nil => simpa using hr.head
    | cons c cs =>
      have := (hr.spaced.mem (c := c) (by simp)).2
      unfold Chunk.stop at this
      omega
  refine ⟨hr.head, ?_, ?_, ?_, ?_, contiguous_of_tiled ht hsize, ?_, ?_⟩
  · refine hr.linked.congr ?_ ?_
    · intro p hp
      obtain ⟨c, hc, rfl⟩ := mem_map.mp hp
      exact getNextChunkPtr_eq (hrange c hc).1 (hrange c hc).2
    · intro p hp
      obtain ⟨c, hc, rfl⟩ := mem_map.mp hp
      exact getPrevChunkPtr_eq (hrange c hc).1 (hrange c hc).2
  · refine pairwise_map.mpr (hr.spaced.pairwise.imp fun {c d} hcd => ?_)
    unfold Chunk.stop Chunk.marker at hcd
    omega
  · intro p hp
    obtain ⟨c, hc, rfl⟩ := mem_map.mp hp
    rw [hsize c hc]
    cases cs with
    | nil => cases hc
    | cons d ds =>
      rcases mem_cons.mp hc with rfl | hc
      · exact hround.1
      · exact hround.2 c hc
  · cases cs with
    | nil => simpa using hr.head
    | cons c cs =>
      have hhead : c.addr = h.head := by simpa using hr.head
      rw [← hhead]
      exact ht.1
  · intro p hp
    rw [getLast?_map] at hp
    obtain ⟨c, hc, rfl⟩ := Option.map_eq_some_iff.mp hp
    rw [rightMarkerAddr, hsize c (mem_of_getLast? hc), ← ht.getLast hc]
    rfl
  · have := hr.bound
    omega

theorem Tiled.sum_eq (ht : Tiled lo cs hi) (hround : Rounded ρ cs) (hρ : ρ = 0) :
    lo + (cs.map fun c => c.size + METAINFO_SIZE).sum = hi := by
  induction cs generalizing lo ρ with
  | nil => simpa [Tiled] using ht
  | cons c cs ih =>
    have hrest : Rounded 0 cs := by
      cases cs with
      | nil => trivial
      | cons d ds => exact ⟨hround.2 d (by simp), fun e he => hround.2 e (by simp [he])⟩
    have hsum := ih ht.2 hrest rfl
    have hc := hround.1
    have haddr := ht.1
    simp only [Chunk.stop, Chunk.marker, METAINFO_SIZE] at hsum
    rw [map_cons, sum_cons, METAINFO_SIZE]
    omega

theorem WellFormed.totalBytes_eq (hw : WellFormed h first last ps) :
    first + totalBytes h.mem ps = last + 8 := by
  have := hw.tiled.sum_eq hw.rounded rfl
  rw [map_map] at this
  exact this

/-- **Tiling.** From every well-formed heap, whatever its markers hold, a request of
whole words and the release of any listed chunk lead to a well-formed heap between
the same first and last words. -/
theorem wellFormed_preserved (hw : WellFormed h first last ps) :
    (∀ n, n % 8 = 0 → n + METAINFO_SIZE < 2 ^ 64 → ∃ h' p ps', myalloc h n = some (h', p) ∧
      WellFormed h' first last ps' ∧ totalBytes h'.mem ps' = totalBytes h.mem ps) ∧
    ∀ p ∈ ps, ∃ ps', WellFormed (myfree h p) first last ps' ∧
      totalBytes (myfree h p).mem ps' = totalBytes h.mem ps := by
  have hrep := hw.represents
  have htiled := hw.tiled
  have hround := hw.rounded
  have htotal := hw.totalBytes_eq
  constructor
  · intro n hn hwrap
    obtain ⟨m', hm', hrep'⟩ := myalloc_allocChunks hrep hwrap
    obtain ⟨htiled', hround'⟩ := tiled_allocChunks htiled hround hn
    have hw' := hrep'.wellFormed htiled' hround'
    refine ⟨_, _, _, hm', hw', ?_⟩
    have := hw'.totalBytes_eq
    omega
  · intro p hp
    obtain ⟨xs, ys, hcs⟩ := append_of_mem (mem_map_of_mem (f := readChunk h.mem) hp)
    rw [hcs] at hrep htiled hround
    obtain ⟨cs', hstep, hrep'⟩ := myfree_represents hrep fun _ _ => hround.freeFits _
    obtain ⟨htiled', hround'⟩ := hstep.tiled htiled hround
    have hw' := hrep'.wellFormed htiled' hround'
    refine ⟨_, hw', ?_⟩
    have := hw'.totalBytes_eq
    have haddr : (readChunk h.mem p).addr = p := rfl
    rw [haddr] at this
    omega

theorem mysetup_wellFormed (m : Mem) {buf size : Nat} (hword : size % 8 = 0) (hsize : 40 ≤ size)
    (hend : buf + size ≤ 2 ^ 64) :
    WellFormed (mysetup m buf size) buf (buf + size - 8) [buf + 32] := by
  refine (mysetup_represents m hsize hend).wellFormed ⟨rfl, ?_⟩ ⟨?_, by simp⟩
  · simp only [Tiled, Chunk.stop, Chunk.marker]
    omega
  · show (size - 40) % 8 = 0
    omega

/-- The heap of `main` behind its first request, which the end of the one chunk served. -/
def servedHeap : Heap :=
  (myalloc (mysetup ⟨fun _ => 0⟩ 65536 4096) 64).elim ⟨⟨fun _ => 0⟩, 0⟩ Prod.fst

theorem wellFormed_servedHeap : WellFormed servedHeap 65536 69624 [65568, 69560] where
  nonempty := by decide
  linked := ⟨by decide, by decide, by decide, by decide, trivial⟩
  ascending := by decide
  sizes := by decide
  first_header := by decide
  contiguous := by decide
  last_marker p hp := by
    obtain rfl : 69560 = p := by simpa using hp
    decide
  bound := by decide

/-- The second request of the heap, and the release of the chunk that the first one got. -/
theorem wellFormed_preserved_main :
    (∃ h' p ps', myalloc servedHeap 128 = some (h', p) ∧ WellFormed h' 65536 69624 ps' ∧
      totalBytes h'.mem ps' = 4096) ∧
    ∃ ps', WellFormed (myfree servedHeap 69560) 65536 69624 ps' ∧
      totalBytes (myfree servedHeap 69560).mem ps' = 4096 := by
  have hbytes : totalBytes servedHeap.mem [65568, 69560] = 4096 := by decide
  obtain ⟨hserved, hreleased⟩ := wellFormed_preserved wellFormed_servedHeap
  rw [hbytes] at hserved hreleased
  exact ⟨hserved 128 (by decide) (by decide), hreleased 69560 (by decide)⟩

end WellFormed

end LinuxWorkouts.Allocator
