import LinuxWorkouts.SortedList.Sorting
import LinuxWorkouts.SortedList.Threads

/-!
The program `pthreads-problems/problem-3/solution_only_mutex.c`.

Its reader is that of `solution_rw.c`, with the mutex for its lock. The sorter tests the list
without the mutex and holds it from the first pass to the last, so that what `Threads` has as many
turns is one here (`sortSection`) and no line is added in between.
-/

namespace LinuxWorkouts.SortedList

open DoublyLinked NodeHeap BubbleSort Transition List

/-- A turn of `bubble_sort_mt`. No loop of the section has more rounds than there are lines. -/
def lockedSortStep (s : System) : Option System :=
  match s.place with
  | .start => (sortSection .onlyMutex s.added.length s.nodes s.list).map fun r =>
    { s with nodes := r.1, list := r.2, place := .stopTest }
  | _ => sortStep s

def lockedStep (s : System) : Turn → Option System
  | .read curLine node => readStep s curLine node
  | .sort => lockedSortStep s

def ReadsString (_ : System) : Turn → Prop
  | .read (some line) _ => 0 ∉ line
  | _ => True

def InOrder (s : System) : Prop :=
  ∃ as, Chain (next s.nodes) null s.list as ∧
    as.Pairwise fun a b => strcmp (lineOf s.nodes a) (lineOf s.nodes b) ≤ 0

/-- A turn of the sorter that has not returned is possible, and a section under the mutex leaves the
lines in order. -/
def SortsLines (s : System) : Turn → Prop
  | .read _ _ => True
  | .sort => s.place ≠ .finished → ∃ s', lockedSortStep s = some s' ∧
    (s.place = .start → InOrder s')

/-- What holds between two turns. -/
structure Locked (s : System) : Prop where
  inv : ∃ as, Inv s as
  outside : s.place ∈ [.stopTest, .waiting, .start, .finished]
  two : s.place = .start → 2 ≤ s.added.length
  strings : ∀ line ∈ s.added, 0 ∉ line

section Invariant

variable {s s' : System}

theorem readStep_added {curLine : Option Line} {node : Option Nat}
    (h : readStep s curLine node = some s') :
    s'.place = s.place ∧
      (s'.added = s.added ∨ ∃ line, curLine = some line ∧ s'.added = line :: s.added) := by
  cases curLine <;> cases node <;> grind [readStep, readLine, addLine, Option.map_eq_some_iff]

theorem Inv.length_eq {as : List Nat} (h : Inv s as) : as.length = s.added.length := by
  simpa using h.lines.length_eq

theorem Locked.place_ne {place : Place} (h : Locked s)
    (hplace : place ∉ [.stopTest, .waiting, .start, .finished]) : s.place ≠ place :=
  fun heq => hplace (heq ▸ h.outside)

theorem Locked.not_headMoved (h : Locked s) : ¬ HeadMoved s :=
  not_headMoved_of_place (h.place_ne (by decide))

theorem Locked.read {curLine : Option Line} {node : Option Nat} (h : Locked s)
    (hline : ∀ line, curLine = some line → 0 ∉ line) (hstep : readStep s curLine node = some s') :
    Locked s' := by
  obtain ⟨as, hinv⟩ := h.inv
  have hmove : s.place ≠ .moveHead := h.place_ne (by decide)
  obtain ⟨hplace, hadded⟩ := readStep_added hstep
  refine ⟨hinv.readStep (fun _ => ⟨hmove, h.not_headMoved⟩) hstep, hplace ▸ h.outside, ?_, ?_⟩
  · intro hstart
    have := h.two (hplace ▸ hstart)
    grind
  · have := h.strings
    grind

theorem Locked.goOn {place : Place} (h : Locked s)
    (hplace : place ∈ [.stopTest, .waiting, .start, .finished])
    (htwo : place = .start → 2 ≤ s.added.length) : Locked { s with place := place } := by
  obtain ⟨as, hinv⟩ := h.inv
  refine ⟨⟨as, hinv.goOn rfl rfl rfl (h.place_ne (by decide)) ?_ ?_⟩, hplace, htwo, h.strings⟩
  · rintro rfl
    simp at hplace
  · change LocatedAt as s.current s.nextNode place
    cases place <;> simp [LocatedAt] at hplace ⊢

theorem Locked.sortSection (h : Locked s) (hplace : s.place = .start) :
    ∃ s', lockedSortStep s = some s' ∧ Locked s' ∧ InOrder s' := by
  obtain ⟨as, hinv⟩ := h.inv
  have hlength := hinv.length_eq
  have hne : as ≠ [] := ne_nil_of_length_pos (by have := h.two hplace; omega)
  have hline : ∀ a ∈ as, 0 ∉ lineOf s.nodes a := by
    intro a ha
    have hmem := hinv.lines.mem_iff.mp (List.mem_map_of_mem ha)
    obtain ⟨line, hline, heq⟩ := List.mem_map.mp hmem
    rw [lineOf, ← heq]
    exact h.strings line hline
  have hlisted : Listed s.nodes (as ++ []) := by rw [append_nil]; exact hinv.listed
  obtain ⟨m', hsort, hlisted', hdata⟩ := sortLoop_eq .onlyMutex hne hlisted rfl hline
  have hperm : (bubbleSort (key s.nodes) as []).Perm (as ++ []) := bubbleSort_perm as []
  rw [append_nil] at hperm
  have hrun : lockedSortStep s = some { s with
      nodes := m', list := (bubbleSort (key s.nodes) as []).headD null, place := .stopTest } := by
    simp only [lockedSortStep, hplace, SortedList.sortSection, hinv.head h.not_headMoved]
    exact congrArg (Option.map _) (hsort _ hlength.symm.ge _ hlength.symm.ge)
  have hnot : Place.stopTest ≠ .swap ∧ Place.stopTest ≠ .start := by decide
  refine ⟨_, hrun, ⟨⟨_, hlisted', ?_, fun _ => rfl, fun hmoved => absurd hmoved.1 hnot.1, trivial,
    fun hswap => absurd hswap hnot.1⟩, ?_, fun hstart => absurd hstart hnot.2, h.strings⟩,
    ⟨_, hlisted'.linked.chain, ?_⟩⟩
  · change ((bubbleSort (key s.nodes) as []).map (data m')).Perm _
    rw [hdata]
    exact (hperm.map _).trans hinv.lines
  · simp
  · have hsorted : (bubbleSort (key s.nodes) as []).Pairwise (key s.nodes · ≤ key s.nodes ·) :=
      bubbleSort_sorted .nil fun _ _ _ hb => absurd hb not_mem_nil
    refine hsorted.imp_of_mem fun {a b} ha _ hle => ?_
    change strcmp (lineOf m' a) (lineOf m' b) ≤ 0
    rw [lineOf, lineOf, hdata]
    exact (strcmp_nonpos_iff (hline a (hperm.mem_iff.mp ha))).mpr hle

theorem Locked.sort (h : Locked s) (hplace : s.place ≠ .finished) :
    ∃ s', lockedSortStep s = some s' ∧ Locked s' ∧ (s.place = .start → InOrder s') := by
  obtain ⟨as, hinv⟩ := h.inv
  have houtside := h.outside
  simp only [mem_cons, not_mem_nil, or_false, hplace] at houtside
  rcases houtside with hstop | hwait | hstart
  · refine ⟨{ s with place := if s.stopSortThread then .finished else .waiting },
      by simp only [lockedSortStep, hstop, sortStep], h.goOn ?_ ?_, by simp [hstop]⟩
    · split <;> simp
    · split <;> nofun
  · have hlist := hinv.head h.not_headMoved
    cases as with
    | nil => exact ⟨s, by simp [lockedSortStep, hwait, sortStep, hlist], h, by simp [hwait]⟩
    | cons a as =>
      have hlisted : Listed s.nodes ([] ++ a :: as) := hinv.listed
      have hne : a ≠ null := hinv.listed.ne_null mem_cons_self
      rw [headD_cons] at hlist
      refine ⟨{ s with place := if as.headD null = null then .waiting else .start }, ?_,
        h.goOn ?_ ?_, by simp [hwait]⟩
      · simp only [lockedSortStep, hwait, sortStep, hlist, if_neg hne,
          hlisted.readNext_behind, Option.map_some]
      · split <;> simp
      · rw [← hinv.length_eq]
        cases as <;> simp
  · obtain ⟨s', hs', hlocked, horder⟩ := h.sortSection hstart
    exact ⟨s', hs', hlocked, fun _ => horder⟩

theorem Locked.step {turn : Turn} (h : Locked s) (hread : ReadsString s turn)
    (hstep : lockedStep s turn = some s') : Locked s' := by
  cases turn with
  | read curLine node =>
    refine h.read (fun line hline => ?_) hstep
    rw [hline] at hread
    exact hread
  | sort =>
    by_cases hplace : s.place = .finished
    · simp [lockedStep, lockedSortStep, sortStep, hplace] at hstep
    · obtain ⟨t, ht, hlocked, -⟩ := h.sort hplace
      cases ht.symm.trans hstep
      exact hlocked

theorem Locked.stays {turn : Turn} (h : Locked s) (hreader : s.reader = .returned)
    (hplace : s.place = .waiting) (hfew : s.added.length < 2)
    (hstep : lockedStep s turn = some s') :
    s' = s := by
  obtain ⟨as, hinv⟩ := h.inv
  rw [← hinv.length_eq] at hfew
  have hlist := hinv.head h.not_headMoved
  cases turn with
  | read curLine node => simp [lockedStep, readStep, hreader] at hstep
  | sort =>
    simp only [lockedStep, lockedSortStep, hplace, sortStep] at hstep
    split at hstep
    · exact (Option.some.inj hstep).symm
    · next hne =>
        obtain _ | ⟨a, _ | ⟨b, as⟩⟩ := as
        · exact absurd hlist hne
        · have hlisted : Listed s.nodes ([] ++ a :: []) := hinv.listed
          have hnext : readNext s.nodes s.list = some null := hlist ▸ hlisted.readNext_behind
          rw [hnext, Option.map_some, if_pos rfl, ← hplace] at hstep
          exact (Option.some.inj hstep).symm
        · simp at hfew

theorem locked_start : Locked start := ⟨⟨[], inv_start⟩, by decide, nofun, nofun⟩

end Invariant

/-- **Under the mutex every line is kept and every section sorts,** however the two threads take
turns. -/
theorem locked_lines_sorted (turns : List Turn)
    (hread : Along lockedStep ReadsString start turns) :
    Always lockedStep Kept start turns ∧ Along lockedStep SortsLines start turns := by
  refine ⟨always_of_along (fun s h => ?_) (fun s turn s' _ => Locked.step) locked_start hread,
    Along.imp (fun s turn h _ => ?_) (fun s turn s' => Locked.step) locked_start hread⟩
  · obtain ⟨as, hinv⟩ := h.inv
    exact hinv.kept h.not_headMoved
  · cases turn with
    | read curLine node => trivial
    | sort =>
      intro hplace
      obtain ⟨s', hs', -, horder⟩ := h.sort hplace
      exact ⟨s', hs', horder⟩

def twoTurns : List Turn :=
  [.sort, .read (some [98]) (some 8), .sort, .read (some [97]) (some 16), .sort, .sort]

theorem locked_lines_sorted_twoTurns :
    Always lockedStep Kept start twoTurns ∧ Along lockedStep SortsLines start twoTurns :=
  locked_lines_sorted twoTurns (by simp [twoTurns, Along, ReadsString])

/-- **With fewer than two lines the program does not end.** If `read_lines` has returned while the
sorter waits for a second line, `pthread_join` waits for it in every continuation. -/
theorem locked_waits_forever {s : System} (turns rest : List Turn)
    (hread : Along lockedStep ReadsString start turns) (hrun : run lockedStep start turns = some s)
    (hreader : s.reader = .returned) (hplace : s.place = .waiting) (hfew : s.added.length < 2) :
    Always lockedStep (fun s' => s'.place = .waiting) s rest := by
  have hlocked : Locked s :=
    (always_of_along (fun _ => id) (fun s turn s' _ => Locked.step) locked_start hread).run hrun
  refine (always_of_step (I := (· = s)) rest ?_ rfl).imp fun s' hs' => hs' ▸ hplace
  rintro t turn t' rfl hstep
  exact hlocked.stays hreader hplace hfew hstep

def closedTurns : List Turn := [.sort, .read (some [98]) (some 8), .read none none, .read none none]

theorem locked_waits_forever_closed :
    ∃ s, run lockedStep start closedTurns = some s ∧
      ∀ rest, Always lockedStep (fun s' => s'.place = .waiting) s rest :=
  ⟨_, rfl, fun rest => locked_waits_forever closedTurns rest
    (by simp [closedTurns, Along, ReadsString]) rfl rfl rfl (by decide)⟩

end LinuxWorkouts.SortedList
