import LinuxWorkouts.Lib.NodeHeap

/-!
The list of lines of `pthreads-problems/problem-3`.

`Listed` says that nodes form a doubly linked list; `Listed.added` and `Listed.swapped` are what
`add_to_head` and `swap` do to it. `swap` does not know the variable `list`: keeping that at the
first node is left to its caller.
-/

namespace LinuxWorkouts.SortedList

open DoublyLinked NodeHeap Function List Option

abbrev Line := List UInt8

/-! ### The code -/

def strcmp : Line → Line → Int
  | [], [] => 0
  | [], b :: _ => -b.toNat
  | a :: _, [] => a.toNat
  | a :: as, b :: bs => if a = b then strcmp as bs else a.toNat - b.toNat

/-- `add_to_head` on the list that starts at `list`, with the new node at the address `malloc`
returns: the nodes and the new head. The copy of the line succeeds: `new_node` ignores a failing
`cpy_str`, and `strcmp` then faults on the line `NULL`. -/
def addToHead (m : Heap Line) (list node : Nat) (val : Line) : Option (Heap Line × Nat) :=
  if list = null then some (alloc m node val, node)
  else
    (setNext (alloc m node val) node list).bind fun m₁ =>
      (setPrev m₁ list node).map fun m₂ => (m₂, node)

/-- `(*r_node)->next->prev = *l_node` if there is a node behind `r`. -/
def relinkNext (m : Heap Line) (l r : Nat) : Option (Heap Line) :=
  if next m r ≠ null then setPrev m (next m r) l else some m

/-- `(*l_node)->prev->next = *r_node` if `l` points back to a node. -/
def relinkPrev (m : Heap Line) (l r : Nat) : Option (Heap Line) :=
  if prev m l ≠ null then setNext m (prev m l) r else some m

/-- The assignments of `swap`. -/
def exchange (m : Heap Line) (l r : Nat) : Option (Heap Line) :=
  (setNext m l (next m r)).bind fun m₁ =>
    (relinkNext m₁ l r).bind fun m₂ =>
      (relinkPrev m₂ l r).bind fun m₃ =>
        (setPrev m₃ r (prev m₃ l)).bind fun m₄ =>
          (setPrev m₄ l r).bind fun m₅ => setNext m₅ r l

def swap (m : Heap Line) (l r : Nat) : Option (Heap Line) :=
  (readNext m l).bind fun n => if n ≠ r then some m else exchange m l r

/-! ### The list -/

/-- The nodes `as` form a doubly linked list. -/
structure Listed (m : Heap Line) (as : List Nat) : Prop where
  linked : Seg (next m) (prev m) null as null
  nodup : as.Nodup
  nullFree : data m null = none
  allocated : ∀ a ∈ as, (data m a).isSome

variable {m : Heap Line} {as xs ys : List Nat} {l r list node : Nat} {val : Line}

section

variable (h : Listed m as)
include h

theorem Listed.null_notMem : null ∉ as := by
  intro hmem
  have hsome := h.allocated null hmem
  rw [h.nullFree] at hsome
  cases hsome

theorem Listed.ne_null {a : Nat} (ha : a ∈ as) : a ≠ null := fun heq => h.null_notMem (heq ▸ ha)

theorem Listed.notMem_of_free (hfree : data m node = none) : node ∉ as := by
  intro hmem
  have hsome := h.allocated node hmem
  rw [hfree] at hsome
  cases hsome

theorem Listed.next_mem {a : Nat} (ha : a ∈ as) : next m a = null ∨ next m a ∈ as := by
  obtain ⟨xs, ys, rfl⟩ := append_of_mem ha
  obtain ⟨-, -, hnext, -⟩ := seg_append.mp h.linked
  rw [hnext]
  cases ys with
  | nil => exact .inl rfl
  | cons y ys => exact .inr (by simp)

theorem Listed.split {a : Nat} (ha : a ∈ as) (hnext : next m a ≠ null) :
    ∃ xs ys, as = xs ++ a :: next m a :: ys := by
  obtain ⟨xs, ys, rfl⟩ := append_of_mem ha
  obtain ⟨-, -, hlink, -⟩ := seg_append.mp h.linked
  cases ys with
  | nil => exact absurd hlink hnext
  | cons y ys => exact ⟨xs, ys, by rw [hlink]; rfl⟩

end

theorem Listed.next_eq (h : Listed m (xs ++ l :: r :: ys)) : next m l = r :=
  (seg_append.mp h.linked).2.2.1

/-! ### `add_to_head` -/

theorem Listed.added (h : Listed m as) (hlist : list = as.headD null)
    (hfree : data m node = none) (hnull : node ≠ null) (val : Line) :
    ∃ m', addToHead m list node val = some (m', node) ∧ Listed m' (node :: as) ∧
      data m' = update (data m) node (some val) := by
  obtain ⟨hnext, hprev, hdata⟩ := views_alloc m node val
  have hnotin := h.notMem_of_free hfree
  have hne : ∀ a ∈ as, a ≠ node := fun a ha heq => hnotin (heq ▸ ha)
  have hnodup : (node :: as).Nodup := nodup_cons.mpr ⟨hnotin, h.nodup⟩
  have hnullFree : update (data m) node (some val) null = none := by
    rw [update_of_ne hnull.symm, h.nullFree]
  have hallocated : ∀ a ∈ node :: as, (update (data m) node (some val) a).isSome := by
    intro a ha
    rcases mem_cons.mp ha with rfl | ha
    · rw [update_self]
      rfl
    · rw [update_of_ne (hne a ha)]
      exact h.allocated a ha
  cases as with
  | nil =>
    refine ⟨alloc m node val, if_pos hlist, ⟨⟨?_, ?_, trivial⟩, hnodup, hdata ▸ hnullFree,
      hdata ▸ hallocated⟩, hdata⟩
    · rw [hprev, update_self]
    · rw [hnext, update_self]
      rfl
  | cons x xs =>
    have hx : list = x := hlist
    have hxne : x ≠ node := hne x mem_cons_self
    have hself : (data (alloc m node val) node).isSome := by
      rw [hdata, update_self]
      rfl
    obtain ⟨m₁, hm₁, hnext₁, hprev₁, hdata₁⟩ := exists_setNext hself list
    have hxsome : (data m₁ list).isSome := by
      rw [hdata₁, hdata, hx, update_of_ne hxne]
      exact h.allocated x mem_cons_self
    obtain ⟨m₂, hm₂, hnext₂, hprev₂, hdata₂⟩ := exists_setPrev hxsome node
    have hdata' : data m₂ = update (data m) node (some val) := hdata₂.trans (hdata₁.trans hdata)
    refine ⟨m₂, ?_, ⟨h.linked.push ?_ ?_ ?_ ?_ ?_, hnodup, hdata' ▸ hnullFree,
      hdata' ▸ hallocated⟩, hdata'⟩
    · have hlistNull : list ≠ null := by
        rw [hx]
        exact h.ne_null mem_cons_self
      rw [addToHead, if_neg hlistNull, hm₁, bind_some, hm₂, map_some]
    · rw [hprev₂, hx, update_of_ne hxne.symm, hprev₁, hprev, update_self]
    · rw [hnext₂, hnext₁, update_self, hlist]
    · intro y hy
      rw [hprev₂, hx, ← Option.some.inj hy, update_self]
    · intro y hy
      rw [hnext₂, hnext₁, update_of_ne (hne y hy), hnext, update_of_ne (hne y hy)]
    · intro y hy
      have hyx : y ≠ x := ne_headD_of_tail (d := null) h.nodup hy
      rw [hprev₂, hx, update_of_ne hyx, hprev₁, hprev, update_of_ne (hne y (mem_of_mem_tail hy))]

/-! ### `swap` -/

theorem relinkNext_spec (h : next m r ≠ null → (data m (next m r)).isSome) :
    ∃ m', relinkNext m l r = some m' ∧ next m' = next m ∧
      prev m' = (if next m r ≠ null then update (prev m) (next m r) l else prev m) ∧
      data m' = data m := by
  unfold relinkNext
  split
  · next hnull => exact exists_setPrev (h hnull) l
  · exact ⟨m, rfl, rfl, rfl, rfl⟩

theorem relinkPrev_spec (h : prev m l ≠ null → (data m (prev m l)).isSome) :
    ∃ m', relinkPrev m l r = some m' ∧
      next m' = (if prev m l ≠ null then update (next m) (prev m l) r else next m) ∧
      prev m' = prev m ∧ data m' = data m := by
  unfold relinkPrev
  split
  · next hnull => exact exists_setNext (h hnull) r
  · exact ⟨m, rfl, rfl, rfl, rfl⟩

theorem exchange_spec (hlr : l ≠ r) (hl : (data m l).isSome) (hr : (data m r).isSome)
    (hnext : next m r ≠ null → (data m (next m r)).isSome) (hnl : next m r ≠ l)
    (hprev : prev m l ≠ null → (data m (prev m l)).isSome) :
    ∃ m', exchange m l r = some m' ∧
      next m' = update
        (if prev m l ≠ null then
          update (update (next m) l (next m r)) (prev m l) r
        else update (next m) l (next m r)) r l ∧
      prev m' = update (update
        (if next m r ≠ null then update (prev m) (next m r) l else prev m)
        r (prev m l)) l r ∧
      data m' = data m := by
  obtain ⟨m₁, hm₁, hnext₁, hprev₁, hdata₁⟩ := exists_setNext hl (next m r)
  have hr₁ : next m₁ r = next m r := by rw [hnext₁, update_of_ne hlr.symm]
  obtain ⟨m₂, hm₂, hnext₂, hprev₂, hdata₂⟩ :=
    relinkNext_spec (m := m₁) (l := l) (r := r) (by rwa [hr₁, hdata₁])
  rw [hr₁, hprev₁] at hprev₂
  have hl₂ : prev m₂ l = prev m l := by
    rw [hprev₂]
    split
    · rw [update_of_ne hnl.symm]
    · rfl
  have hdata₂' : data m₂ = data m := hdata₂.trans hdata₁
  obtain ⟨m₃, hm₃, hnext₃, hprev₃, hdata₃⟩ :=
    relinkPrev_spec (m := m₂) (l := l) (r := r) (by rwa [hl₂, hdata₂'])
  rw [hl₂, hnext₂, hnext₁] at hnext₃
  have hl₃ : prev m₃ l = prev m l := by rw [hprev₃, hl₂]
  have hdata₃' : data m₃ = data m := hdata₃.trans hdata₂'
  obtain ⟨m₄, hm₄, hnext₄, hprev₄, hdata₄⟩ := exists_setPrev (m := m₃) (hdata₃' ▸ hr) (prev m₃ l)
  have hdata₄' : data m₄ = data m := hdata₄.trans hdata₃'
  obtain ⟨m₅, hm₅, hnext₅, hprev₅, hdata₅⟩ := exists_setPrev (m := m₄) (hdata₄' ▸ hl) r
  have hdata₅' : data m₅ = data m := hdata₅.trans hdata₄'
  obtain ⟨m₆, hm₆, hnext₆, hprev₆, hdata₆⟩ := exists_setNext (m := m₅) (hdata₅' ▸ hr) l
  refine ⟨m₆, ?_, ?_, ?_, hdata₆.trans hdata₅'⟩
  · rw [exchange, hm₁, bind_some, hm₂, bind_some, hm₃, bind_some, hm₄,
      bind_some, hm₅, bind_some, hm₆]
  · rw [hnext₆, hnext₅, hnext₄, hnext₃]
  · rw [hprev₆, hprev₅, hprev₄, hl₃, hprev₃, hprev₂]

/-- No node comes up twice around a pair of neighbours. -/
structure Apart (xs : List Nat) (l r : Nat) (ys : List Nat) : Prop where
  pair : l ≠ r
  frontLeft : ∀ x ∈ xs, x ≠ l
  frontRight : ∀ x ∈ xs, x ≠ r
  behindLeft : ∀ y ∈ ys, y ≠ l
  behindRight : ∀ y ∈ ys, y ≠ r
  frontBehind : ∀ x ∈ xs, ∀ y ∈ ys, x ≠ y

theorem apart_of_nodup (h : (xs ++ l :: r :: ys).Nodup) : Apart xs l r ys := by
  obtain ⟨-, hnodupL, hcross⟩ := nodup_append.mp h
  obtain ⟨hlNotin, hnodupR⟩ := nodup_cons.mp hnodupL
  obtain ⟨hrNotin, -⟩ := nodup_cons.mp hnodupR
  refine ⟨fun heq => hlNotin (heq ▸ mem_cons_self), ?_, ?_, ?_, ?_, ?_⟩
  · exact fun x hx => hcross x hx l mem_cons_self
  · exact fun x hx => hcross x hx r (mem_cons_of_mem _ mem_cons_self)
  · exact fun y hy heq => hlNotin (mem_cons_of_mem _ (heq ▸ hy))
  · exact fun y hy heq => hrNotin (heq ▸ hy)
  · exact fun x hx y hy => hcross x hx y (mem_cons_of_mem _ (mem_cons_of_mem _ hy))

section Pair

variable (h : Listed m (xs ++ l :: r :: ys))
include h

theorem Listed.prev_left : prev m l = xs.getLastD null := (seg_append.mp h.linked).2.1

theorem Listed.next_right : next m r = ys.headD null := (seg_append.mp h.linked).2.2.2.2.1

theorem Listed.next_right_mem (hne : next m r ≠ null) : next m r ∈ ys := by
  rw [h.next_right] at hne ⊢
  cases ys with
  | nil => exact absurd rfl hne
  | cons y ys => exact mem_cons_self

theorem Listed.prev_left_mem (hne : prev m l ≠ null) : prev m l ∈ xs := by
  rw [h.prev_left] at hne ⊢
  cases xs using reverseRecOn with
  | nil => exact absurd rfl hne
  | append_singleton xs x => simp

theorem Listed.next_right_ne_left : next m r ≠ l := by
  by_cases hnull : next m r = null
  · rw [hnull]
    exact (h.ne_null (by simp)).symm
  · exact (apart_of_nodup h.nodup).behindLeft _ (h.next_right_mem hnull)

theorem Listed.exchanged {m' : Heap Line}
    (hnext' : next m' = update
      (if prev m l ≠ null then
        update (update (next m) l (next m r)) (prev m l) r
      else update (next m) l (next m r)) r l)
    (hprev' : prev m' = update (update
      (if next m r ≠ null then update (prev m) (next m r) l else prev m)
      r (prev m l)) l r) :
    Seg (next m') (prev m') null (xs ++ r :: l :: ys) null := by
  have hapart := apart_of_nodup h.nodup
  obtain ⟨hnodupX, hnodupL, -⟩ := nodup_append.mp h.nodup
  have hnodupY : ys.Nodup := hnodupL.of_cons.of_cons
  refine h.linked.exchange ?_ ?_ ?_ ?_ ?_ ?_ ?_ ?_ ?_ ?_
  · -- `l` points on to what was behind `r`.
    rw [hnext', update_of_ne hapart.pair]
    split
    · next hne =>
        rw [update_of_ne (hapart.frontLeft _ (h.prev_left_mem hne)).symm, update_self, h.next_right]
    · rw [update_self, h.next_right]
  · rw [hprev', update_self]
  · rw [hnext', update_self]
  · rw [hprev', update_of_ne hapart.pair.symm, update_self, h.prev_left]
  · intro x hx
    have hlast : prev m l = x := by
      rw [h.prev_left, getLastD_eq_getLast?, hx, getD_some]
    have hmem : x ∈ xs := mem_of_getLast? hx
    have hne : prev m l ≠ null := by
      rw [hlast]
      exact h.ne_null (mem_append_left _ hmem)
    rw [hnext', update_of_ne (hapart.frontRight x hmem), if_pos hne, hlast, update_self]
  · intro y hy
    have hfirst : next m r = y := by
      rw [h.next_right, headD_eq_head?_getD, hy, getD_some]
    have hmem : y ∈ ys := mem_of_head? hy
    have hne : next m r ≠ null := by
      rw [hfirst]
      exact h.ne_null (mem_append_right _ (mem_cons_of_mem _ (mem_cons_of_mem _ hmem)))
    rw [hprev', update_of_ne (hapart.behindLeft y hmem),
      update_of_ne (hapart.behindRight y hmem), if_pos hne, hfirst, update_self]
  · intro x hx
    have hmem := mem_of_mem_dropLast hx
    have hlast : x ≠ prev m l := h.prev_left ▸ ne_getLastD_of_dropLast hnodupX hx
    rw [hnext', update_of_ne (hapart.frontRight x hmem)]
    split
    · rw [update_of_ne hlast, update_of_ne (hapart.frontLeft x hmem)]
    · rw [update_of_ne (hapart.frontLeft x hmem)]
  · intro x hx
    rw [hprev', update_of_ne (hapart.frontLeft x hx), update_of_ne (hapart.frontRight x hx)]
    split
    · next hne =>
        rw [update_of_ne (hapart.frontBehind x hx _ (h.next_right_mem hne))]
    · rfl
  · intro y hy
    rw [hnext', update_of_ne (hapart.behindRight y hy)]
    split
    · next hne =>
        rw [update_of_ne (hapart.frontBehind _ (h.prev_left_mem hne) y hy).symm,
          update_of_ne (hapart.behindLeft y hy)]
    · rw [update_of_ne (hapart.behindLeft y hy)]
  · intro y hy
    have hmem := mem_of_mem_tail hy
    have hfirst : y ≠ next m r := h.next_right ▸ ne_headD_of_tail hnodupY hy
    rw [hprev', update_of_ne (hapart.behindLeft y hmem), update_of_ne (hapart.behindRight y hmem)]
    split
    · rw [update_of_ne hfirst]
    · rfl

theorem Listed.relinked :
    ∃ m', exchange m l r = some m' ∧ Listed m' (xs ++ r :: l :: ys) ∧ data m' = data m := by
  have hl : (data m l).isSome := h.allocated l (by simp)
  have hr : (data m r).isSome := h.allocated r (by simp)
  obtain ⟨m', hexchange, hnext', hprev', hdata'⟩ := exchange_spec
    (apart_of_nodup h.nodup).pair hl hr
    (fun hne => h.allocated _ (mem_append_right _
      (mem_cons_of_mem _ (mem_cons_of_mem _ (h.next_right_mem hne)))))
    h.next_right_ne_left
    (fun hne => h.allocated _ (mem_append_left _ (h.prev_left_mem hne)))
  have hperm : (xs ++ r :: l :: ys).Perm (xs ++ l :: r :: ys) :=
    (List.Perm.swap l r ys).append_left xs
  refine ⟨m', hexchange, ⟨h.exchanged hnext' hprev', ?_, ?_, ?_⟩, hdata'⟩
  · exact hperm.nodup_iff.mpr h.nodup
  · rw [hdata']
    exact h.nullFree
  · intro a ha
    rw [hdata']
    exact h.allocated a (hperm.mem_iff.mp ha)

theorem Listed.readNext_left : readNext m l = some r :=
  readNext_eq_some_iff.mpr ⟨h.allocated l (by simp), h.next_eq.symm⟩

theorem Listed.swapped :
    ∃ m', swap m l r = some m' ∧ Listed m' (xs ++ r :: l :: ys) ∧ data m' = data m := by
  have hswap : swap m l r = exchange m l r := by
    rw [swap, h.readNext_left, bind_some, if_neg (not_not.mpr rfl)]
  rw [hswap]
  exact h.relinked

end Pair

end LinuxWorkouts.SortedList
