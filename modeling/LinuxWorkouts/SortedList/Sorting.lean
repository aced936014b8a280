import LinuxWorkouts.Lib.BubbleSort
import LinuxWorkouts.SortedList.Nodes

/-!
The part of `bubble_sort_mt` that runs under the mutex, in `pthreads-problems/problem-3/solution.c`
and `solution_only_mutex.c`.

The two programs differ in their `swap`, which in the second one checks that its nodes are
neighbours. Each pass walks from the first node to `end` and exchanges a node with the next one when
its line is larger; the node stays `current`, and `*list` follows when the first node changes. On
the nodes in their order this is `BubbleSort` with the lines as keys (`sortLoop_eq`).
-/

namespace LinuxWorkouts.SortedList

open DoublyLinked NodeHeap BubbleSort List Option

/-! ### The code -/

inductive Program where
  | solution
  | onlyMutex
deriving DecidableEq, Repr

def Program.swap : Program → Heap Line → Nat → Nat → Option (Heap Line)
  | .solution => exchange
  | .onlyMutex => SortedList.swap

/-- The nodes, `*list`, `current` and `is_swapped`. -/
structure Walk where
  nodes : Heap Line
  list : Nat
  current : Nat
  isSwapped : Bool

/-- The body of the inner loop. -/
def walkStep (program : Program) (w : Walk) : Option Walk :=
  (readNext w.nodes w.current).bind fun nextNode =>
    (data w.nodes w.current).bind fun line =>
      (data w.nodes nextNode).bind fun nextLine =>
        if strcmp line nextLine > 0 then
          (program.swap w.nodes w.current nextNode).bind fun nodes =>
            (readNext nodes nextNode).map fun current =>
              ⟨nodes, if w.current = w.list then nextNode else w.list, current, true⟩
        else some { w with current := nextNode }

def walk (program : Program) (end' : Nat) : Nat → Walk → Option Walk
  | 0, _ => none
  | rounds + 1, w =>
    (readNext w.nodes w.current).bind fun nextNode =>
      if nextNode = end' then some w else (walkStep program w).bind (walk program end' rounds)

/-- The outer loop, for at most `passes` passes: the nodes and `*list`. -/
def sortLoop (program : Program) (rounds : Nat) : Nat → Heap Line → Nat → Nat →
    Option (Heap Line × Nat)
  | 0, _, _, _ => none
  | passes + 1, nodes, list, end' =>
    (walk program end' rounds ⟨nodes, list, list, false⟩).bind fun w =>
      if w.isSwapped then sortLoop program rounds passes w.nodes w.list w.current
      else some (w.nodes, w.list)

/-- The section under the mutex, when no loop takes more than `fuel` rounds. -/
def sortSection (program : Program) (fuel : Nat) (nodes : Heap Line) (list : Nat) :
    Option (Heap Line × Nat) := sortLoop program fuel fuel nodes list null

def lineOf (m : Heap Line) (a : Nat) : Line := (data m a).getD []

/-! ### The order of the lines -/

def bytes (line : Line) : List Nat := line.map UInt8.toNat

theorem bytes_injective : Function.Injective bytes :=
  map_injective_iff.mpr fun _ _ => UInt8.toNat_inj.mp

theorem strcmp_pos_iff {a b : Line} (ha : 0 ∉ a) : strcmp a b > 0 ↔ bytes b < bytes a := by
  induction a, b using strcmp.induct with
  | case1 => simp [strcmp, bytes]
  | case2 b bs => simp [strcmp, bytes]
  | case3 a as =>
    have hpos : 0 < a.toNat := Nat.pos_of_ne_zero fun h =>
      ha (by rw [UInt8.toNat_inj.mp (h.trans UInt8.toNat_zero.symm)]; exact mem_cons_self)
    simp [strcmp, bytes, hpos]
  | case4 as a bs ih =>
    have hcons : bytes (a :: bs) < bytes (a :: as) ↔ bytes bs < bytes as := by
      simp [bytes]
    rw [strcmp, if_pos rfl, ih (fun h => ha (mem_cons_of_mem a h)), hcons]
  | case5 a as b bs hne =>
    have hcons : bytes (b :: bs) < bytes (a :: as) ↔ b.toNat < a.toNat := by
      have hne' : b.toNat ≠ a.toNat := fun h => hne (UInt8.toNat_inj.mp h).symm
      simp [bytes, cons_lt_cons_iff, hne']
    rw [strcmp, if_neg hne, hcons]
    omega

theorem strcmp_nonpos_iff {a b : Line} (ha : 0 ∉ a) : strcmp a b ≤ 0 ↔ bytes a ≤ bytes b := by
  rw [← not_lt, ← not_lt, not_iff_not]
  exact strcmp_pos_iff ha

def key (m : Heap Line) (a : Nat) : List Nat := bytes (lineOf m a)

variable (program : Program) {m m' : Heap Line} {xs tail : List Nat}

theorem key_eq (h : data m' = data m) : key m' = key m := by
  unfold key lineOf
  rw [h]

theorem data_eq_lineOf {a : Nat} (h : (data m a).isSome) : data m a = some (lineOf m a) := by
  obtain ⟨line, hline⟩ := isSome_iff_exists.mp h
  rw [lineOf, hline]
  rfl

/-! ### One pass -/

variable {c x list : Nat} {front ys : List Nat}

theorem Program.swap_listed {l r : Nat} (h : Listed m (xs ++ l :: r :: ys)) :
    ∃ m', program.swap m l r = some m' ∧ Listed m' (xs ++ r :: l :: ys) ∧ data m' = data m := by
  cases program with
  | solution => exact h.relinked
  | onlyMutex => exact h.swapped

theorem Listed.readNext_behind (h : Listed m (front ++ c :: ys)) :
    readNext m c = some (ys.headD null) :=
  readNext_eq_some_iff.mpr ⟨h.allocated c (by simp), (seg_append.mp h.linked).2.2.1.symm⟩

theorem Listed.ne_end (h : Listed m (front ++ x :: (xs ++ tail))) : x ≠ tail.headD null := by
  cases tail with
  | nil => exact h.ne_null (by simp)
  | cons e tail =>
    have hnodup := (nodup_append.mp h.nodup).2.1
    exact fun heq => (nodup_cons.mp hnodup).1 (by simp [show x = e from heq])

theorem Listed.head_moved (h : Listed m (front ++ c :: ys))
    (hlist : list = (front ++ [c]).headD null) :
    (if c = list then x else list) = (front ++ [x] ++ [c]).headD null := by
  cases front with
  | nil => exact if_pos hlist.symm
  | cons first front =>
    have hne : c ≠ list := by
      rintro rfl
      exact (nodup_cons.mp h.nodup).1 (by simp [show c = first from hlist])
    rw [if_neg hne]
    exact hlist

section Step

variable (sw : Bool) (h : Listed m (front ++ c :: x :: ys)) (hline : 0 ∉ lineOf m c)
include h hline

theorem walkStep_of_lt (hlist : list = (front ++ [c]).headD null) (hlt : key m x < key m c) :
    ∃ m', walkStep program ⟨m, list, c, sw⟩ =
        some ⟨m', (front ++ [x] ++ [c]).headD null, c, true⟩ ∧
      Listed m' (front ++ [x] ++ c :: ys) ∧ data m' = data m := by
  obtain ⟨m', hswap, hm', hdata⟩ := program.swap_listed h
  have hnext : readNext m' x = some c := hm'.readNext_left
  refine ⟨m', ?_, by rwa [append_assoc], hdata⟩
  rw [walkStep, h.readNext_left, bind_some, data_eq_lineOf (h.allocated c (by simp)),
    bind_some, data_eq_lineOf (h.allocated x (by simp)), bind_some,
    if_pos ((strcmp_pos_iff hline).mpr hlt), hswap, bind_some, hnext, map_some]
  exact congrArg (fun list => some (Walk.mk m' list c true)) (h.head_moved hlist)

theorem walkStep_of_le (hle : key m c ≤ key m x) :
    walkStep program ⟨m, list, c, sw⟩ = some ⟨m, list, x, sw⟩ := by
  rw [walkStep, h.readNext_left, bind_some, data_eq_lineOf (h.allocated c (by simp)),
    bind_some, data_eq_lineOf (h.allocated x (by simp)), bind_some,
    if_neg (not_lt.mpr ((strcmp_nonpos_iff hline).mpr hle))]

end Step

theorem walk_eq {m₀ : Heap Line} (sw : Bool) (h : Listed m (front ++ c :: (xs ++ tail)))
    (hdata : data m = data m₀) (hlines : ∀ a ∈ c :: xs, 0 ∉ lineOf m₀ a)
    (hlist : list = (front ++ [c]).headD null) :
    ∃ m', (∀ rounds > xs.length,
        walk program (tail.headD null) rounds ⟨m, list, c, sw⟩ =
          some ⟨m', (front ++ (bubble (key m₀) c xs).toList).headD null,
            (bubble (key m₀) c xs).last, sw || (bubble (key m₀) c xs).swapped⟩) ∧
      Listed m' (front ++ ((bubble (key m₀) c xs).toList ++ tail)) ∧ data m' = data m₀ := by
  -- The induction is on the nodes ahead; those the walk has passed are in `front`.
  induction xs generalizing m front c list sw with
  | nil =>
    refine ⟨m, fun rounds hrounds => ?_, h, hdata⟩
    obtain ⟨rounds, rfl⟩ := Nat.exists_eq_succ_of_ne_zero (Nat.ne_zero_of_lt hrounds)
    rw [walk, h.readNext_behind, bind_some, nil_append, if_pos rfl, hlist]
    simp [bubble, Pass.toList]
  | cons x xs ih =>
    have hx : Listed m (front ++ [c] ++ x :: (xs ++ tail)) := by rwa [append_assoc]
    have hwalk : ∀ rounds, walk program (tail.headD null) (rounds + 1) ⟨m, list, c, sw⟩ =
        (walkStep program ⟨m, list, c, sw⟩).bind (walk program (tail.headD null) rounds) := by
      intro rounds
      rw [walk, h.readNext_left, bind_some, if_neg hx.ne_end]
    obtain ⟨hc, hxs⟩ := forall_mem_cons.mp hlines
    have hc' : 0 ∉ lineOf m c := by rwa [lineOf, hdata]
    rcases lt_or_ge (key m₀ x) (key m₀ c) with hlt | hle
    · obtain ⟨m₁, hstep, h₁, hdata₁⟩ := walkStep_of_lt program sw h hc' hlist (key_eq hdata ▸ hlt)
      have hlines' : ∀ a ∈ c :: xs, 0 ∉ lineOf m₀ a :=
        forall_mem_cons.mpr ⟨hc, (forall_mem_cons.mp hxs).2⟩
      obtain ⟨m', hrest, h', hdata'⟩ := ih true h₁ (hdata₁.trans hdata) hlines' rfl
      refine ⟨m', fun rounds hrounds => ?_, ?_, hdata'⟩
      · obtain ⟨rounds, rfl⟩ := Nat.exists_eq_succ_of_ne_zero (Nat.ne_zero_of_lt hrounds)
        rw [hwalk, hstep, bind_some, hrest rounds (Nat.lt_of_succ_lt_succ hrounds),
          toList_of_lt hlt, bubble_cons_of_lt hlt, append_assoc, singleton_append,
          Bool.true_or, Bool.or_true]
      · rwa [toList_of_lt hlt, cons_append, append_cons]
    · obtain ⟨m', hrest, h', hdata'⟩ := ih sw hx hdata hxs (hlist.trans (by cases front <;> rfl))
      refine ⟨m', fun rounds hrounds => ?_, ?_, hdata'⟩
      · obtain ⟨rounds, rfl⟩ := Nat.exists_eq_succ_of_ne_zero (Nat.ne_zero_of_lt hrounds)
        rw [hwalk, walkStep_of_le program sw h hc' (key_eq hdata ▸ hle), bind_some,
          hrest rounds (Nat.lt_of_succ_lt_succ hrounds), toList_of_le hle, bubble_cons_of_le hle,
          append_assoc, singleton_append]
      · rwa [toList_of_le hle, cons_append, append_cons]

theorem pass_eq {m₀ : Heap Line} (h : Listed m (c :: xs ++ tail)) (hdata : data m = data m₀)
    (hlines : ∀ a ∈ c :: xs, 0 ∉ lineOf m₀ a) :
    ∃ m', (∀ rounds > xs.length, walk program (tail.headD null) rounds ⟨m, c, c, false⟩ =
        some ⟨m', (bubble (key m₀) c xs).toList.headD null, (bubble (key m₀) c xs).last,
          (bubble (key m₀) c xs).swapped⟩) ∧
      Listed m' ((bubble (key m₀) c xs).toList ++ tail) ∧ data m' = data m₀ := by
  have h' : Listed m ([] ++ c :: (xs ++ tail)) := h
  have hlist : c = ([] ++ [c]).headD null := rfl
  obtain ⟨m', hwalk, hm', hdata'⟩ := walk_eq program false h' hdata hlines hlist
  exact ⟨m', by simpa only [nil_append, Bool.false_or] using hwalk, hm', hdata'⟩

/-! ### All passes -/

theorem headD_toList_append (p : Pass Nat) (tail : List Nat) (d : Nat) :
    (p.toList ++ tail).headD d = p.toList.headD d := by
  rw [Pass.toList]
  cases p.front <;> rfl

theorem headD_toList_of_ne_nil {p : Pass Nat} (h : p.front ≠ []) (d : Nat) :
    p.toList.headD d = p.front.headD d := by
  obtain ⟨a, as, hfront⟩ := exists_cons_of_ne_nil h
  rw [Pass.toList, hfront]
  rfl

theorem sortLoop_eq {m₀ : Heap Line} {region : List Nat} (hne : region ≠ [])
    (h : Listed m (region ++ tail)) (hdata : data m = data m₀)
    (hlines : ∀ a ∈ region, 0 ∉ lineOf m₀ a) :
    ∃ m', (∀ rounds ≥ region.length, ∀ passes ≥ region.length,
        sortLoop program rounds passes m (region.headD null) (tail.headD null) =
          some (m', (bubbleSort (key m₀) region tail).headD null)) ∧
      Listed m' (bubbleSort (key m₀) region tail) ∧ data m' = data m₀ := by
  induction region, tail using bubbleSort.induct (key m₀) generalizing m with
  | case1 => exact absurd rfl hne
  | case2 tail c xs hswapped ih =>
    obtain ⟨m₁, hpass, h₁, hdata₁⟩ := pass_eq program h hdata hlines
    have hfront := front_ne_nil_of_swapped hswapped
    rw [← front_append] at h₁
    obtain ⟨m', hrest, h', hdata'⟩ := ih hfront h₁ hdata₁ fun a ha => hlines a (mem_of_mem_front ha)
    rw [length_front] at hrest
    refine ⟨m', fun rounds hrounds passes hpasses => ?_, ?_, hdata'⟩
    · obtain ⟨passes, rfl⟩ := Nat.exists_eq_succ_of_ne_zero (Nat.ne_zero_of_lt hpasses)
      rw [sortLoop, headD_cons, hpass rounds hrounds, bind_some, if_pos hswapped,
        headD_toList_of_ne_nil hfront, bubbleSort_cons_of_swapped hswapped]
      exact hrest rounds (Nat.le_of_succ_le hrounds) passes (Nat.le_of_succ_le_succ hpasses)
    · rwa [bubbleSort_cons_of_swapped hswapped]
  | case3 tail c xs hswapped =>
    obtain ⟨m₁, hpass, h₁, hdata₁⟩ := pass_eq program h hdata hlines
    rw [bubbleSort_cons_of_not_swapped (Bool.eq_false_iff.mpr hswapped)]
    refine ⟨m₁, fun rounds hrounds passes hpasses => ?_, h₁, hdata₁⟩
    obtain ⟨passes, rfl⟩ := Nat.exists_eq_succ_of_ne_zero (Nat.ne_zero_of_lt hpasses)
    rw [sortLoop, headD_cons, hpass rounds hrounds, bind_some, if_neg hswapped, headD_toList_append]

/-- **The section sorts the list.** It ends, within as many rounds as there are nodes; the nodes are
the same with the same lines, `*list` is the first of them, and those with one line keep their
order. -/
theorem sortSection_sorts (program : Program) {m : Heap Line} {as : List Nat} {list : Nat}
    (h : Listed m as) (hlist : list = as.headD null) (htwo : 2 ≤ as.length)
    (hlines : ∀ a ∈ as, 0 ∉ lineOf m a) :
    ∃ m' as', (∀ fuel ≥ as.length, sortSection program fuel m list = some (m', as'.headD null)) ∧
      Listed m' as' ∧ as'.Perm as ∧ data m' = data m ∧
      as'.Pairwise (fun a b => strcmp (lineOf m' a) (lineOf m' b) ≤ 0) ∧
      ∀ line, as'.filter (lineOf m' · = line) = as.filter (lineOf m · = line) := by
  have hne : as ≠ [] := ne_nil_of_length_pos (Nat.lt_of_succ_lt htwo)
  rw [← append_nil as] at h
  obtain ⟨m', hsort, h', hdata⟩ := sortLoop_eq program hne h rfl hlines
  have hperm : (bubbleSort (key m) as []).Perm (as ++ []) := bubbleSort_perm as []
  rw [append_nil] at hperm
  have hline : lineOf m' = lineOf m := by
    unfold lineOf
    rw [hdata]
  refine ⟨m', _, fun fuel hfuel => ?_, h', hperm, hdata, ?_, fun line => ?_⟩
  · rw [sortSection, hlist]
    exact hsort fuel hfuel fuel hfuel
  · have hsorted : (bubbleSort (key m) as []).Pairwise (key m · ≤ key m ·) :=
      bubbleSort_sorted .nil fun _ _ _ hb => absurd hb not_mem_nil
    refine hsorted.imp_of_mem fun {a b} ha _ hle => ?_
    rw [hline]
    exact (strcmp_nonpos_iff (hlines a (hperm.mem_iff.mp ha))).mpr hle
  · have hkey : ∀ a, decide (lineOf m a = line) = decide (key m a = bytes line) := fun a =>
      decide_eq_decide.mpr bytes_injective.eq_iff.symm
    simp only [hline, hkey]
    rw [filter_bubbleSort, append_nil]

def twoLines : Heap Line
  | 8 => some ⟨16, null, [98]⟩
  | 16 => some ⟨null, 8, [97]⟩
  | _ => none

theorem listed_twoLines : Listed twoLines [8, 16] where
  linked := ⟨rfl, rfl, rfl, rfl, trivial⟩
  nodup := by decide
  nullFree := rfl
  allocated := by decide

theorem sortSection_sorts_twoLines :
    ∃ m' as', (∀ fuel ≥ 2, sortSection .onlyMutex fuel twoLines 8 = some (m', as'.headD null)) ∧
      Listed m' as' ∧ as'.Perm [8, 16] ∧ data m' = data twoLines ∧
      as'.Pairwise (fun a b => strcmp (lineOf m' a) (lineOf m' b) ≤ 0) ∧
      ∀ line, as'.filter (lineOf m' · = line) = [8, 16].filter (lineOf twoLines · = line) :=
  sortSection_sorts .onlyMutex listed_twoLines rfl (by decide) (by decide)

end LinuxWorkouts.SortedList
