import LinuxWorkouts.Lib.Ascii
import LinuxWorkouts.Lib.Transition
import LinuxWorkouts.SortedList.Nodes

/-!
The reading and the sorting thread of `pthreads-problems/problem-3/solution_rw.c`.

The sections under the lock, `add_to_head` and `swap`, are one turn each, and so is every other
statement of `bubble_sort_mt`. The sorter tests whether its node is the first one, moves `*list` on
to the next node and only then takes the lock for the swap. A line that is added in between is lost,
or its neighbour is left with a wrong `prev`. `lines_kept` says that this is all that can go wrong:
in every run where no line is added there, every line is in the list, except that between
`*list = next_node` and the swap the sorter's own node is not.
-/

namespace LinuxWorkouts.SortedList

open Ascii DoublyLinked NodeHeap Transition List Option

/-! ### The threads -/

/-- The statement `bubble_sort_mt` executes next. -/
inductive Place where
  | stopTest
  | waiting
  | start
  | passStart
  | fetch
  | loopTest
  | compare
  | takeNext
  | headTest
  | moveHead
  | swap
  | markSwapped
  | currentNext
  | advance
  | passEnd
  | again
  | finished
  deriving DecidableEq, Repr

inductive ReaderPlace where
  | reading
  | stopping
  | returned
  deriving DecidableEq, Repr

/-- The shared variables, the variables of the two threads, and the lines added so far. -/
structure System where
  nodes : Heap Line
  list : Nat
  stopSortThread : Bool
  reader : ReaderPlace
  place : Place
  current : Nat
  nextNode : Nat
  endNode : Nat
  isSwapped : Bool
  added : List Line

/-- `main` before the threads run. -/
def start : System where
  nodes := fun _ => none
  list := null
  stopSortThread := false
  reader := .reading
  place := .stopTest
  current := null
  nextNode := null
  endNode := null
  isSwapped := false
  added := []

/-- One statement of `bubble_sort_mt`; `none` is an access through a null pointer, or the thread has
ended. The `sleep` calls do nothing here. -/
def sortStep (s : System) : Option System :=
  match s.place with
  | .stopTest => some { s with place := if s.stopSortThread then .finished else .waiting }
  | .waiting =>
    if s.list = null then some s
    else (readNext s.nodes s.list).map fun n =>
      { s with place := if n = null then .waiting else .start }
  | .start => some { s with endNode := null, place := .passStart }
  | .passStart => some { s with isSwapped := false, place := .fetch }
  | .fetch => some { s with current := s.list, place := .loopTest }
  | .loopTest => (readNext s.nodes s.current).map fun n =>
    { s with place := if n ≠ s.endNode then .compare else .passEnd }
  | .compare =>
    (readNext s.nodes s.current).bind fun n =>
      (data s.nodes s.current).bind fun line =>
        (data s.nodes n).map fun nextLine =>
          { s with place := if strcmp line nextLine > 0 then .takeNext else .advance }
  | .takeNext => (readNext s.nodes s.current).map fun n =>
    { s with nextNode := n, place := .headTest }
  | .headTest => some { s with place := if s.current = s.list then .moveHead else .swap }
  | .moveHead => some { s with list := s.nextNode, place := .swap }
  | .swap => (swap s.nodes s.current s.nextNode).map fun m =>
    { s with nodes := m, place := .markSwapped }
  | .markSwapped => some { s with isSwapped := true, place := .currentNext }
  | .currentNext => some { s with current := s.nextNode, place := .advance }
  | .advance => (readNext s.nodes s.current).map fun n =>
    { s with current := n, place := .loopTest }
  | .passEnd => some { s with endNode := s.current, place := .again }
  | .again => some { s with place := if s.isSwapped then .passStart else .stopTest }
  | .finished => none

def cExit : Line := ascii "c_exit"

/-- `add_to_head` under the lock; `malloc` returns an unused address for the node or fails, and the
line is copied. -/
def addLine (s : System) (line : Line) : Option Nat → Option System
  | none => some s
  | some node =>
    if node ≠ null ∧ (data s.nodes node).isNone then
      (addToHead s.nodes s.list node line).map fun r =>
        { s with nodes := r.1, list := r.2, added := line :: s.added }
    else none

/-- One round of the loop of `read_lines` with what `fgets` reads, without its newline. An empty
line prints the list. -/
def readLine (s : System) (node : Option Nat) : Option Line → Option System
  | none => some { s with reader := .stopping }
  | some line =>
    if line = cExit then some { s with reader := .stopping }
    else if line = [] then some s
    else addLine s line node

def readStep (s : System) (curLine : Option Line) (node : Option Nat) : Option System :=
  match s.reader with
  | .reading => readLine s node curLine
  | .stopping => some { s with stopSortThread := true, reader := .returned }
  | .returned => none

inductive Turn where
  | read (curLine : Option Line) (node : Option Nat)
  | sort
  deriving DecidableEq, Repr

def step (s : System) : Turn → Option System
  | .read curLine node => readStep s curLine node
  | .sort => sortStep s

/-! ### What is kept -/

/-- Every line that was added is reachable from the head once, except those of the nodes that are
missing. -/
def KeptExcept (missing : List Nat) (s : System) : Prop :=
  ∃ as, Chain (next s.nodes) null s.list as ∧ null ∉ as ∧ (missing ++ as).Nodup ∧
    ((missing ++ as).map (data s.nodes)).Perm (s.added.map some)

def Kept (s : System) : Prop := KeptExcept [] s

def HeadMoved (s : System) : Prop := s.place = .swap ∧ s.list = s.nextNode

instance (s : System) : Decidable (HeadMoved s) := by
  unfold HeadMoved
  infer_instance

/-- The turn takes a line into the list, if there is memory for it. -/
def AddsLine (s : System) : Turn → Prop
  | .read curLine node =>
    s.reader = .reading ∧ node ≠ none ∧ curLine ≠ none ∧ curLine ≠ some cExit ∧ curLine ≠ some []
  | .sort => False

instance (s : System) (turn : Turn) : Decidable (AddsLine s turn) := by
  cases turn <;> unfold AddsLine <;> infer_instance

/-- No line is added while the sorter is between finding its node at the head and the swap. -/
def Undisturbed (s : System) (turn : Turn) : Prop :=
  AddsLine s turn → s.place ≠ .moveHead ∧ ¬ HeadMoved s

instance (s : System) (turn : Turn) : Decidable (Undisturbed s turn) := by
  unfold Undisturbed
  infer_instance

def LocatedAt (as : List Nat) (current nextNode : Nat) : Place → Prop
  | .stopTest | .waiting | .start | .passStart | .fetch | .again | .finished => True
  | .loopTest | .compare | .passEnd | .advance => current = null ∨ current ∈ as
  | .takeNext => ∃ xs n ys, as = xs ++ current :: n :: ys
  | .headTest | .swap => ∃ xs ys, as = xs ++ current :: nextNode :: ys
  | .moveHead => ∃ ys, as = current :: nextNode :: ys
  | .markSwapped | .currentNext => nextNode ∈ as

structure Inv (s : System) (as : List Nat) : Prop where
  listed : Listed s.nodes as
  lines : (as.map (data s.nodes)).Perm (s.added.map some)
  head : ¬ HeadMoved s → s.list = as.headD null
  moved : HeadMoved s → ∃ ys, as = s.current :: s.nextNode :: ys
  located : LocatedAt as s.current s.nextNode s.place
  apart : s.place = .swap → s.current ≠ s.list

theorem inv_start : Inv start [] where
  listed := ⟨trivial, nodup_nil, rfl, fun _ h => absurd h not_mem_nil⟩
  lines := List.Perm.nil
  head _ := rfl
  moved h := by cases h.1
  located := trivial
  apart h := by cases h

section Invariant

variable {s s' : System} {as : List Nat} {turn : Turn}

theorem Inv.kept (h : Inv s as) (hmoved : ¬ HeadMoved s) : Kept s := by
  refine ⟨as, ?_, h.listed.null_notMem, h.listed.nodup, h.lines⟩
  rw [h.head hmoved]
  exact h.listed.linked.chain

theorem Inv.keptExcept (h : Inv s as) (hmoved : HeadMoved s) : KeptExcept [s.current] s := by
  obtain ⟨ys, rfl⟩ := h.moved hmoved
  have hnull := h.listed.null_notMem
  refine ⟨s.nextNode :: ys, ?_, fun hmem => hnull (mem_cons_of_mem _ hmem), h.listed.nodup, h.lines⟩
  rw [hmoved.2]
  exact h.listed.linked.2.2.chain

theorem ne_swap {p : Place} (hplace : s.place = p) (hp : p ≠ .swap) : s.place ≠ .swap :=
  hplace ▸ hp

theorem not_headMoved_of_place (h : s.place ≠ .swap) : ¬ HeadMoved s := fun hmoved => h hmoved.1

section

variable (h : Inv s as)
include h

theorem Inv.locatedAt {p : Place} (hplace : s.place = p) :
    LocatedAt as s.current s.nextNode p := hplace ▸ h.located

theorem Inv.goOn (hnodes : s'.nodes = s.nodes) (hlist : s'.list = s.list)
    (hadded : s'.added = s.added) (hplace : s.place ≠ .swap) (hplace' : s'.place ≠ .swap)
    (hlocated : LocatedAt as s'.current s'.nextNode s'.place) : Inv s' as := by
  refine ⟨?_, ?_, fun _ => ?_, fun hmoved => absurd hmoved.1 hplace', hlocated,
    fun hswap => absurd hswap hplace'⟩
  · rw [hnodes]
    exact h.listed
  · rw [hnodes, hadded]
    exact h.lines
  · rw [hlist]
    exact h.head (not_headMoved_of_place hplace)

/-! ### The sorter -/

theorem Inv.fetch (hplace : s.place = .fetch) :
    Inv { s with current := s.list, place := .loopTest } as := by
  have hne := ne_swap hplace Place.noConfusion
  refine h.goOn rfl rfl rfl hne Place.noConfusion ?_
  change s.list = null ∨ s.list ∈ as
  rw [h.head (not_headMoved_of_place hne)]
  cases as with
  | nil => exact .inl rfl
  | cons a as => exact .inr mem_cons_self

theorem Inv.current_mem (hloc : s.current = null ∨ s.current ∈ as)
    (hsome : (data s.nodes s.current).isSome) : s.current ∈ as := by
  refine hloc.resolve_left fun hnull => ?_
  rw [hnull, h.listed.nullFree] at hsome
  cases hsome

theorem Inv.advance {n : Nat} (hplace : s.place = .advance)
    (hread : readNext s.nodes s.current = some n) :
    Inv { s with current := n, place := .loopTest } as := by
  have hne := ne_swap hplace Place.noConfusion
  have hloc := h.locatedAt hplace
  obtain ⟨hsome, rfl⟩ := readNext_eq_some_iff.mp hread
  refine h.goOn rfl rfl rfl hne Place.noConfusion ?_
  exact h.listed.next_mem (h.current_mem hloc hsome)

theorem Inv.compare {n : Nat} {nextLine : Line} (hplace : s.place = .compare)
    (hread : readNext s.nodes s.current = some n) (hnext : data s.nodes n = some nextLine)
    (out : Bool) : Inv { s with place := if out then .takeNext else .advance } as := by
  have hne := ne_swap hplace Place.noConfusion
  have hloc := h.locatedAt hplace
  obtain ⟨hsome, rfl⟩ := readNext_eq_some_iff.mp hread
  have hmem := h.current_mem hloc hsome
  have hnull : next s.nodes s.current ≠ null := by
    intro heq
    rw [heq, h.listed.nullFree] at hnext
    cases hnext
  obtain ⟨xs, ys, hsplit⟩ := h.listed.split hmem hnull
  cases out with
  | false => exact h.goOn rfl rfl rfl hne Place.noConfusion (.inr hmem)
  | true => exact h.goOn rfl rfl rfl hne Place.noConfusion ⟨xs, _, ys, hsplit⟩

theorem Inv.takeNext {n : Nat} (hplace : s.place = .takeNext)
    (hread : readNext s.nodes s.current = some n) :
    Inv { s with nextNode := n, place := .headTest } as := by
  have hne := ne_swap hplace Place.noConfusion
  obtain ⟨xs, m, ys, rfl⟩ := h.locatedAt hplace
  obtain ⟨-, rfl⟩ := readNext_eq_some_iff.mp hread
  refine h.goOn rfl rfl rfl hne Place.noConfusion ⟨xs, ys, ?_⟩
  change _ = xs ++ s.current :: next s.nodes s.current :: ys
  rw [h.listed.next_eq]

theorem Inv.headTest (hplace : s.place = .headTest) :
    Inv { s with place := if s.current = s.list then .moveHead else .swap } as := by
  have hne := ne_swap hplace Place.noConfusion
  obtain ⟨xs, ys, rfl⟩ := h.locatedAt hplace
  have hlist := h.head (not_headMoved_of_place hne)
  have hnodup := h.listed.nodup
  split
  · next hfirst =>
      refine h.goOn rfl rfl rfl hne Place.noConfusion ?_
      cases xs with
      | nil => exact ⟨ys, rfl⟩
      | cons x xs =>
        have hx : s.current = x := hfirst.trans hlist
        refine absurd ?_ (nodup_cons.mp hnodup).1
        rw [← hx]
        simp
  · next hother =>
      -- `next_node` is not the first one either, so nothing looks as if the head had been moved.
      have hsecond : s.list ≠ s.nextNode := by
        rw [hlist]
        cases xs with
        | nil => exact fun heq => (nodup_cons.mp hnodup).1 (by
            rw [show s.current = s.nextNode from heq]
            exact mem_cons_self)
        | cons x xs => exact fun heq => (nodup_cons.mp hnodup).1 (by
            rw [show x = s.nextNode from heq]
            simp)
      exact ⟨h.listed, h.lines, fun _ => hlist, fun hmoved => absurd hmoved.2 hsecond,
        ⟨xs, ys, rfl⟩, fun _ => hother⟩

theorem Inv.moveHead (hplace : s.place = .moveHead) :
    Inv { s with list := s.nextNode, place := .swap } as := by
  obtain ⟨ys, rfl⟩ := h.locatedAt hplace
  refine ⟨h.listed, h.lines, fun hmoved => absurd ⟨rfl, rfl⟩ hmoved, fun _ => ⟨ys, rfl⟩,
    ⟨[], ys, rfl⟩, fun _ heq => ?_⟩
  have hsame : s.current = s.nextNode := heq
  refine (nodup_cons.mp h.listed.nodup).1 ?_
  rw [hsame]
  exact mem_cons_self

theorem Inv.swap {m : Heap Line} (hplace : s.place = .swap)
    (hswap : SortedList.swap s.nodes s.current s.nextNode = some m) :
    ∃ as', Inv { s with nodes := m, place := .markSwapped } as' := by
  obtain ⟨xs, ys, rfl⟩ := h.locatedAt hplace
  obtain ⟨m', hm', hlisted, hdata⟩ := h.listed.swapped
  obtain rfl : m' = m := Option.some.inj (hm'.symm.trans hswap)
  have hperm : (xs ++ s.nextNode :: s.current :: ys).Perm (xs ++ s.current :: s.nextNode :: ys) :=
    (List.Perm.swap s.current s.nextNode ys).append_left xs
  refine ⟨xs ++ s.nextNode :: s.current :: ys, hlisted, ?_, fun _ => ?_,
    fun hmoved => absurd hmoved.1 Place.noConfusion, ?_,
    fun hplace' => absurd hplace' Place.noConfusion⟩
  · change ((xs ++ s.nextNode :: s.current :: ys).map (data m')).Perm _
    rw [hdata]
    exact (hperm.map _).trans h.lines
  · change s.list = _
    by_cases hmoved : HeadMoved s
    · obtain ⟨zs, hzs⟩ := h.moved hmoved
      cases xs with
      | nil => exact hmoved.2
      | cons x xs =>
        -- The sorter's node cannot be both the first one and a later one.
        have hx : x = s.current := (cons_eq_cons.mp hzs).1
        refine absurd ?_ (nodup_cons.mp h.listed.nodup).1
        rw [hx]
        simp
    · have hlist := h.head hmoved
      cases xs with
      | nil => exact absurd hlist.symm (h.apart hplace)
      | cons x xs => exact hlist
  · change s.nextNode ∈ _
    simp

theorem Inv.sortStep (hstep : SortedList.sortStep s = some s') : ∃ as', Inv s' as' := by
  have hloc := h.located
  unfold SortedList.sortStep at hstep
  cases hplace : s.place <;> simp only [hplace] at hstep hloc
  case stopTest =>
    obtain rfl := Option.some.inj hstep
    refine ⟨as, h.goOn rfl rfl rfl (ne_swap hplace Place.noConfusion) ?_ ?_⟩
    · split <;> exact Place.noConfusion
    · split <;> trivial
  case waiting =>
    split at hstep
    · obtain rfl := Option.some.inj hstep
      exact ⟨as, h⟩
    · obtain ⟨n, -, rfl⟩ := map_eq_some_iff.mp hstep
      refine ⟨as, h.goOn rfl rfl rfl (ne_swap hplace Place.noConfusion) ?_ ?_⟩
      · split <;> exact Place.noConfusion
      · split <;> trivial
  case start =>
    obtain rfl := Option.some.inj hstep
    exact ⟨as, h.goOn rfl rfl rfl (ne_swap hplace Place.noConfusion) Place.noConfusion trivial⟩
  case passStart =>
    obtain rfl := Option.some.inj hstep
    exact ⟨as, h.goOn rfl rfl rfl (ne_swap hplace Place.noConfusion) Place.noConfusion trivial⟩
  case fetch =>
    obtain rfl := Option.some.inj hstep
    exact ⟨as, h.fetch hplace⟩
  case loopTest =>
    obtain ⟨n, -, rfl⟩ := map_eq_some_iff.mp hstep
    refine ⟨as, h.goOn rfl rfl rfl (ne_swap hplace Place.noConfusion) ?_ ?_⟩
    · split <;> exact Place.noConfusion
    · split <;> exact hloc
  case compare =>
    obtain ⟨n, hread, hstep⟩ := bind_eq_some_iff.mp hstep
    obtain ⟨line, -, hstep⟩ := bind_eq_some_iff.mp hstep
    obtain ⟨nextLine, hnext, rfl⟩ := map_eq_some_iff.mp hstep
    have hout := h.compare hplace hread hnext (decide (strcmp line nextLine > 0))
    simp only [decide_eq_true_eq] at hout
    exact ⟨as, hout⟩
  case takeNext =>
    obtain ⟨n, hread, rfl⟩ := map_eq_some_iff.mp hstep
    exact ⟨as, h.takeNext hplace hread⟩
  case headTest =>
    obtain rfl := Option.some.inj hstep
    exact ⟨as, h.headTest hplace⟩
  case moveHead =>
    obtain rfl := Option.some.inj hstep
    exact ⟨as, h.moveHead hplace⟩
  case swap =>
    obtain ⟨m, hswap, rfl⟩ := map_eq_some_iff.mp hstep
    exact h.swap hplace hswap
  case markSwapped =>
    obtain rfl := Option.some.inj hstep
    exact ⟨as, h.goOn rfl rfl rfl (ne_swap hplace Place.noConfusion) Place.noConfusion hloc⟩
  case currentNext =>
    obtain rfl := Option.some.inj hstep
    exact ⟨as, h.goOn rfl rfl rfl (ne_swap hplace Place.noConfusion) Place.noConfusion (.inr hloc)⟩
  case advance =>
    obtain ⟨n, hread, rfl⟩ := map_eq_some_iff.mp hstep
    exact ⟨as, h.advance hplace hread⟩
  case passEnd =>
    obtain rfl := Option.some.inj hstep
    exact ⟨as, h.goOn rfl rfl rfl (ne_swap hplace Place.noConfusion) Place.noConfusion trivial⟩
  case again =>
    obtain rfl := Option.some.inj hstep
    refine ⟨as, h.goOn rfl rfl rfl (ne_swap hplace Place.noConfusion) ?_ ?_⟩
    · split <;> exact Place.noConfusion
    · split <;> trivial
  case finished => cases hstep

end

/-! ### The reader -/

theorem LocatedAt.cons {current nextNode node : Nat} {place : Place}
    (h : LocatedAt as current nextNode place) (hplace : place ≠ .moveHead) :
    LocatedAt (node :: as) current nextNode place := by
  cases place with
  | moveHead => exact absurd rfl hplace
  | stopTest | waiting | start | passStart | fetch | again | finished => trivial
  | loopTest | compare | passEnd | advance => exact Or.imp_right (mem_cons_of_mem _) h
  | takeNext =>
    obtain ⟨xs, n, ys, rfl⟩ := h
    exact ⟨node :: xs, n, ys, rfl⟩
  | headTest | swap =>
    obtain ⟨xs, ys, rfl⟩ := h
    exact ⟨node :: xs, ys, rfl⟩
  | markSwapped | currentNext => exact mem_cons_of_mem _ h

theorem LocatedAt.mem_of_swap {current nextNode : Nat} {place : Place}
    (h : LocatedAt as current nextNode place) (hplace : place = .swap) :
    current ∈ as ∧ nextNode ∈ as := by
  rw [hplace] at h
  obtain ⟨xs, ys, rfl⟩ := h
  simp

theorem Inv.addLine {line : Line} {node : Nat} (h : Inv s as) (hplace : s.place ≠ .moveHead)
    (hmoved : ¬ HeadMoved s) (hstep : SortedList.addLine s line (some node) = some s') :
    Inv s' (node :: as) := by
  obtain ⟨⟨hnull, hfree⟩, hstep⟩ := ite_none_right_eq_some.mp hstep
  have hfree := isNone_iff_eq_none.mp hfree
  obtain ⟨m, hadd, hlisted, hdata⟩ := h.listed.added (h.head hmoved) hfree hnull line
  rw [hadd, map_some] at hstep
  obtain rfl := Option.some.inj hstep
  have hnotin := h.listed.notMem_of_free hfree
  refine ⟨hlisted, ?_, fun _ => rfl, fun hmoved' => ?_, h.located.cons hplace, fun hswap => ?_⟩
  · change ((node :: as).map (data m)).Perm ((line :: s.added).map some)
    have hsame : as.map (data m) = as.map (data s.nodes) := by
      refine map_congr_left fun a ha => ?_
      have hne : a ≠ node := fun heq => hnotin (heq ▸ ha)
      rw [hdata, Function.update_of_ne hne]
    rw [map_cons, map_cons, hsame, hdata, Function.update_self]
    exact h.lines.cons _
  · -- The new head is no node of the sorter's.
    obtain ⟨hswap, heq⟩ := hmoved'
    exact absurd ((show node = s.nextNode from heq) ▸ (h.located.mem_of_swap hswap).2) hnotin
  · intro heq
    exact hnotin ((show s.current = node from heq) ▸ (h.located.mem_of_swap hswap).1)

theorem Inv.reader (h : Inv s as) (stopSortThread : Bool) (reader : ReaderPlace) :
    Inv { s with stopSortThread := stopSortThread, reader := reader } as :=
  ⟨h.listed, h.lines, h.head, h.moved, h.located, h.apart⟩

theorem Inv.readStep {curLine : Option Line} {node : Option Nat} (h : Inv s as)
    (hguard : Undisturbed s (.read curLine node))
    (hstep : SortedList.readStep s curLine node = some s') : ∃ as', Inv s' as' := by
  unfold SortedList.readStep at hstep
  cases hreader : s.reader <;> simp only [hreader] at hstep
  case reading =>
    cases curLine with
    | none =>
      obtain rfl := Option.some.inj hstep
      exact ⟨as, h.reader _ _⟩
    | some line =>
      rw [readLine] at hstep
      split at hstep
      · obtain rfl := Option.some.inj hstep
        exact ⟨as, h.reader _ _⟩
      · next hexit =>
          split at hstep
          · obtain rfl := Option.some.inj hstep
            exact ⟨as, h⟩
          · next hempty =>
              cases node with
              | none =>
                obtain rfl := Option.some.inj hstep
                exact ⟨as, h⟩
              | some node =>
                have hadds : AddsLine s (.read (some line) (some node)) :=
                  ⟨hreader, some_ne_none _, some_ne_none _,
                    fun heq => hexit (Option.some.inj heq),
                    fun heq => hempty (Option.some.inj heq)⟩
                obtain ⟨hplace, hmoved⟩ := hguard hadds
                exact ⟨node :: as, h.addLine hplace hmoved hstep⟩
  case stopping =>
    obtain rfl := Option.some.inj hstep
    exact ⟨as, h.reader _ _⟩
  case returned => cases hstep

end Invariant

/-! ### Runs -/

/-- **Every line is kept** in every run where no line is added between the sorter's finding its node
at the head and the swap. Between `*list = next_node` and the swap the sorter's node is the only
one that is not reachable. -/
theorem lines_kept (turns : List Turn) (hguard : Along step Undisturbed start turns) :
    Always step (fun s => (¬ HeadMoved s → Kept s) ∧ (HeadMoved s → KeptExcept [s.current] s))
      start turns := by
  refine always_of_along (I := fun s => ∃ as, Inv s as) ?_ ?_ ⟨[], inv_start⟩ hguard
  · rintro s ⟨as, h⟩
    exact ⟨h.kept, h.keptExcept⟩
  · rintro s turn s' - ⟨as, h⟩ hundisturbed hstep
    cases turn with
    | read curLine node => exact h.readStep hundisturbed hstep
    | sort => exact h.sortStep hstep

/-- Two lines are exchanged at the head, and a third one is added right behind the swap. -/
theorem lines_kept_afterSwap :
    Always step (fun s => (¬ HeadMoved s → Kept s) ∧ (HeadMoved s → KeptExcept [s.current] s)) start
      (.read (some (ascii "b")) (some 1) :: .read (some (ascii "c")) (some 2) ::
        (replicate 11 .sort ++ .read (some (ascii "d")) (some 3) :: replicate 4 .sort)) :=
  lines_kept _ (by decide)

theorem not_kept_of_length {s : System} {as : List Nat}
    (hchain : Chain (next s.nodes) null s.list as) (hnull : null ∉ as)
    (hlength : as.length ≠ s.added.length) : ¬ Kept s := by
  rintro ⟨bs, hbs, hnull', -, hlines⟩
  have hlen := hlines.length_eq
  rw [nil_append, length_map, length_map, ← hchain.unique hbs hnull hnull'] at hlen
  exact hlength hlen

/-- The line `d` is added when the sorter has found `c` at the head and before it moves the head:
behind the swap the list has only `b` and `c`, and the sorter is not at a swap. -/
theorem line_is_lost :
    ∃ s, run step start
        (.read (some (ascii "b")) (some 1) :: .read (some (ascii "c")) (some 2) ::
          (replicate 9 .sort ++ .read (some (ascii "d")) (some 3) :: replicate 3 .sort)) =
        some s ∧
      s.added = [ascii "d", ascii "c", ascii "b"] ∧ s.place = .currentNext ∧ ¬ HeadMoved s ∧
      ¬ Kept s := by
  refine ⟨_, rfl, rfl, rfl, fun hmoved => Place.noConfusion hmoved.1, ?_⟩
  exact @not_kept_of_length _ [1, 2] ⟨rfl, rfl, rfl⟩ (by decide) (by decide)

end LinuxWorkouts.SortedList
