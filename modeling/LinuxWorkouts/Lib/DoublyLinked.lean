import Mathlib

/-!
Doubly linked segments and singly linked chains over arbitrary link functions.

`Seg next prev before xs after` says that the nodes `xs` are linked both ways, that
the first points back to `before` and the last points on to `after`. The links
are functions, so one development serves every memory a program keeps its nodes
in: a memory update is a change of `next` and `prev`.

* `seg_append` splits a segment at any point;
* `Seg.congr` is the frame rule;
* `Seg.push`, `Seg.concat`, `Seg.unlink` and `Seg.exchange` are the edits, stated by what the
  new link functions must return and where they must agree with the old ones;
* `Chain.congr` is the frame rule of chains, and `Chain.unique` says that the links determine them.
-/

namespace LinuxWorkouts.DoublyLinked

open Function List

variable {α : Type*} {next prev next' prev' : α → α}

/-- The nodes `xs` are linked both ways between `before` and `after`. -/
def Seg (next prev : α → α) : α → List α → α → Prop
  | _, [], _ => True
  | before, x :: xs, after =>
    prev x = before ∧ next x = xs.headD after ∧ Seg next prev x xs after

@[simp] theorem seg_nil (before after : α) : Seg next prev before [] after := trivial

variable {before after : α} {xs ys : List α}

theorem seg_cons {x : α} :
    Seg next prev before (x :: xs) after ↔
      prev x = before ∧ next x = xs.headD after ∧ Seg next prev x xs after := Iff.rfl

theorem getLastD_append (xs ys : List α) (d : α) :
    (xs ++ ys).getLastD d = ys.getLastD (xs.getLastD d) := by
  induction xs generalizing d with
  | nil => rfl
  | cons x xs ih => rw [cons_append, getLastD_cons, getLastD_cons, ih]

theorem ne_getLastD_of_dropLast {q d : α} (hnd : xs.Nodup) (hq : q ∈ xs.dropLast) :
    q ≠ xs.getLastD d := by
  cases xs using reverseRecOn with
  | nil => cases hq
  | append_singleton xs x =>
    rw [dropLast_concat] at hq
    rw [getLastD_concat]
    exact fun h => (nodup_append.mp hnd).2.2 q hq x (by simp) h

theorem ne_headD_of_tail {q d : α} (hnd : xs.Nodup) (hq : q ∈ xs.tail) : q ≠ xs.headD d := by
  cases xs with
  | nil => cases hq
  | cons x xs => exact fun h => (nodup_cons.mp hnd).1 ((show q = x from h) ▸ hq)

theorem seg_append :
    Seg next prev before (xs ++ ys) after ↔
      Seg next prev before xs (ys.headD after) ∧
        Seg next prev (xs.getLastD before) ys after := by
  induction xs generalizing before with
  | nil => simp
  | cons x xs ih =>
    have seam : (xs ++ ys).headD after = xs.headD (ys.headD after) := by
      cases xs <;> rfl
    rw [cons_append, seg_cons, seg_cons, ih, seam, getLastD_cons]
    exact ⟨fun ⟨h1, h2, h3, h4⟩ => ⟨⟨h1, h2, h3⟩, h4⟩, fun ⟨⟨h1, h2, h3⟩, h4⟩ => ⟨h1, h2, h3, h4⟩⟩

theorem Seg.congr (h : Seg next prev before xs after) (hn : ∀ x ∈ xs, next' x = next x)
    (hp : ∀ x ∈ xs, prev' x = prev x) :
    Seg next' prev' before xs after := by
  induction xs generalizing before with
  | nil => trivial
  | cons x xs ih =>
    obtain ⟨h1, h2, h3⟩ := h
    refine ⟨(hp x mem_cons_self).trans h1, (hn x mem_cons_self).trans h2, ?_⟩
    exact ih h3 (fun y hy => hn y (mem_cons_of_mem _ hy))
      (fun y hy => hp y (mem_cons_of_mem _ hy))

theorem Seg.relink {before' : α} (h : Seg next prev before xs after)
    (hn : ∀ x ∈ xs, next' x = next x) (hhead : ∀ x, xs.head? = some x → prev' x = before')
    (hp : ∀ x ∈ xs.tail, prev' x = prev x) : Seg next' prev' before' xs after := by
  cases xs with
  | nil => trivial
  | cons x xs =>
    obtain ⟨-, h2, h3⟩ := h
    refine ⟨hhead x rfl, (hn x mem_cons_self).trans h2, ?_⟩
    exact h3.congr (fun y hy => hn y (mem_cons_of_mem _ hy)) hp

theorem Seg.retarget {after' : α} (h : Seg next prev before xs after)
    (hn : ∀ x ∈ xs.dropLast, next' x = next x)
    (hlast : ∀ x, xs.getLast? = some x → next' x = after') (hp : ∀ x ∈ xs, prev' x = prev x) :
    Seg next' prev' before xs after' := by
  induction xs generalizing before with
  | nil => trivial
  | cons x xs ih =>
    obtain ⟨h1, h2, h3⟩ := h
    refine ⟨(hp x mem_cons_self).trans h1, ?_, ?_⟩
    · cases xs with
      | nil => exact hlast x rfl
      | cons y ys => exact (hn x (by simp)).trans h2
    · refine ih h3 (fun y hy => hn y ?_) (fun y hy => hlast y ?_)
        (fun y hy => hp y (mem_cons_of_mem _ hy))
      · cases xs with
        | nil => cases hy
        | cons z zs => exact mem_cons_of_mem _ hy
      · cases xs with
        | nil => cases hy
        | cons z zs => simpa using hy

theorem Seg.push {q : α} (h : Seg next prev before xs after) (hprev : prev' q = before)
    (hnext : next' q = xs.headD after) (hback : ∀ x, xs.head? = some x → prev' x = q)
    (hn : ∀ x ∈ xs, next' x = next x) (hp : ∀ x ∈ xs.tail, prev' x = prev x) :
    Seg next' prev' before (q :: xs) after :=
  ⟨hprev, hnext, h.relink hn hback hp⟩

theorem Seg.concat {after' q : α} (h : Seg next prev before xs after)
    (hprev : prev' q = xs.getLastD before) (hnext : next' q = after')
    (hlast : ∀ x, xs.getLast? = some x → next' x = q) (hn : ∀ x ∈ xs.dropLast, next' x = next x)
    (hp : ∀ x ∈ xs, prev' x = prev x) :
    Seg next' prev' before (xs ++ [q]) after' :=
  seg_append.mpr ⟨h.retarget hn hlast hp, hprev, hnext, trivial⟩

theorem Seg.unlink {r : α} (h : Seg next prev before (xs ++ r :: ys) after)
    (hlast : ∀ x, xs.getLast? = some x → next' x = ys.headD after)
    (hback : ∀ y, ys.head? = some y → prev' y = xs.getLastD before)
    (hxn : ∀ x ∈ xs.dropLast, next' x = next x) (hxp : ∀ x ∈ xs, prev' x = prev x)
    (hyn : ∀ y ∈ ys, next' y = next y) (hyp : ∀ y ∈ ys.tail, prev' y = prev y) :
    Seg next' prev' before (xs ++ ys) after := by
  obtain ⟨hxs, -, -, hys⟩ := seg_append.mp h
  exact seg_append.mpr ⟨hxs.retarget hxn hlast hxp, hys.relink hyn hback hyp⟩

theorem Seg.exchange {l r : α} (h : Seg next prev before (xs ++ l :: r :: ys) after)
    (hlnext : next' l = ys.headD after) (hlprev : prev' l = r) (hrnext : next' r = l)
    (hrprev : prev' r = xs.getLastD before) (hlast : ∀ x, xs.getLast? = some x → next' x = r)
    (hback : ∀ y, ys.head? = some y → prev' y = l) (hxn : ∀ x ∈ xs.dropLast, next' x = next x)
    (hxp : ∀ x ∈ xs, prev' x = prev x) (hyn : ∀ y ∈ ys, next' y = next y)
    (hyp : ∀ y ∈ ys.tail, prev' y = prev y) :
    Seg next' prev' before (xs ++ r :: l :: ys) after := by
  obtain ⟨hxs, -, -, -, -, hys⟩ := seg_append.mp h
  refine seg_append.mpr ⟨hxs.retarget hxn hlast hxp, hrprev, hrnext, hlprev, hlnext, ?_⟩
  exact hys.relink hyn hback hyp

section Updates

variable [DecidableEq α] {a x y : α}

theorem Seg.bypass (h : Seg next prev before (xs ++ [x] ++ a :: y :: ys) after)
    (hnodup : (xs ++ [x] ++ a :: y :: ys).Nodup) :
    Seg (update next x y) (update prev y x) before (xs ++ [x] ++ y :: ys)
      after := by
  obtain ⟨hnodupX, hnodupR, hcross⟩ := nodup_append.mp hnodup
  have hnodupY : (y :: ys).Nodup := hnodupR.of_cons
  have hXY : ∀ z ∈ xs ++ [x], ∀ w ∈ y :: ys, z ≠ w := fun z hz w hw =>
    hcross z hz w (mem_cons_of_mem _ hw)
  refine h.unlink ?_ ?_ ?_ ?_ ?_ ?_
  · intro z hz
    rw [getLast?_concat] at hz
    rw [← Option.some.inj hz, update_self]
    rfl
  · intro z hz
    rw [← Option.some.inj hz, update_self, getLastD_concat]
  · intro z hz
    have hne := ne_getLastD_of_dropLast (d := x) hnodupX hz
    rw [getLastD_concat] at hne
    exact update_of_ne hne _ _
  · exact fun z hz => update_of_ne (hXY z hz y mem_cons_self) _ _
  · exact fun z hz => update_of_ne (hXY x (by simp) z hz).symm _ _
  · exact fun z hz => update_of_ne (ne_headD_of_tail (d := x) hnodupY hz) _ _

theorem Seg.append_node (h : Seg next prev before xs after) (hnodup : xs.Nodup) (ha : a ∉ xs) :
    Seg (update (update next (xs.getLastD before) a) a after)
      (update prev a (xs.getLastD before)) before (xs ++ [a]) after := by
  have hne : ∀ z ∈ xs, z ≠ a := fun z hz heq => ha (heq ▸ hz)
  refine h.concat ?_ ?_ ?_ ?_ ?_
  · rw [update_self]
  · rw [update_self]
  · intro z hz
    have hlast : xs.getLastD before = z := by
      rw [getLastD_eq_getLast?, hz, Option.getD_some]
    rw [update_of_ne (hne z (mem_of_getLast? hz)), hlast, update_self]
  · intro z hz
    rw [update_of_ne (hne z (mem_of_mem_dropLast hz)),
      update_of_ne (ne_getLastD_of_dropLast hnodup hz)]
  · exact fun z hz => update_of_ne (hne z hz) _ _

end Updates

/-! ### Chains

A chain is linked one way only and ends with the pointer `nil`. -/

/-- The nodes `xs` are linked from `first` to the end of the chain. -/
def Chain (next : α → α) (nil : α) : α → List α → Prop
  | first, [] => first = nil
  | first, x :: xs => first = x ∧ Chain next nil (next x) xs

theorem Chain.congr {nil first : α} (h : Chain next nil first xs)
    (hn : ∀ x ∈ xs, next' x = next x) : Chain next' nil first xs := by
  induction xs generalizing first with
  | nil => exact h
  | cons x xs ih =>
    obtain ⟨h1, h2⟩ := h
    refine ⟨h1, ?_⟩
    rw [hn x mem_cons_self]
    exact ih h2 fun y hy => hn y (mem_cons_of_mem _ hy)

theorem Seg.chain {nil : α} (h : Seg next prev before xs nil) :
    Chain next nil (xs.headD nil) xs := by
  induction xs generalizing before with
  | nil => rfl
  | cons x xs ih =>
    obtain ⟨-, h2, h3⟩ := h
    refine ⟨rfl, ?_⟩
    rw [h2]
    exact ih h3

theorem Chain.unique {nil first : α} (hxs : Chain next nil first xs) (hys : Chain next nil first ys)
    (hx : nil ∉ xs) (hy : nil ∉ ys) : xs = ys := by
  induction xs generalizing first ys with
  | nil =>
    cases ys with
    | nil => rfl
    | cons y ys => exact absurd (hys.1.symm.trans hxs) (fun heq => hy (heq ▸ mem_cons_self))
  | cons x xs ih =>
    obtain ⟨rfl, hxs⟩ := hxs
    cases ys with
    | nil => exact absurd hys (fun heq => hx (heq ▸ mem_cons_self))
    | cons y ys =>
      obtain ⟨rfl, hys⟩ := hys
      rw [ih hxs hys (fun h => hx (mem_cons_of_mem _ h)) (fun h => hy (mem_cons_of_mem _ h))]

theorem Chain.first_eq {nil first : α} (h : Chain next nil first xs) : first = xs.headD nil := by
  cases xs with
  | nil => exact h
  | cons x xs => exact h.1

end LinuxWorkouts.DoublyLinked
