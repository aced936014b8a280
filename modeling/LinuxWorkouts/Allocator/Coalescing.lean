/-
Freeing with coalescing, on lists of chunks.

`Coherent cs` is what every run keeps that only asks for whole words and is only
served from free chunks: both markers of a chunk agree, they are `FREE` or
`ALLOCATED`, and no two neighbours are free. On such a list `myfree` is
`Coalesce`: the freed chunk takes in every free neighbour (`FreeStep.coalesce`).
`Absorbs` is the common form of its cases, from which what freeing keeps is read off
(`Absorbs.coherent`).

`allocated cs` lists the address and size of the allocated chunks. A request adds
one entry and a release removes one (`allocated_carve`, `Absorbs.allocated`);
`coherent_all_free` says what is left when nothing is allocated.
-/

import LinuxWorkouts.Allocator.Tiling

namespace LinuxWorkouts.Allocator

open List

/-- Both markers of every chunk agree, and no two neighbours are free. -/
structure Coherent (cs : List Chunk) : Prop where
  markers : ∀ c ∈ cs, c.right = c.left ∧ (c.left = FREE ∨ c.left = ALLOCATED)
  apart : cs.IsChain fun a b => ¬ (a.left = FREE ∧ b.left = FREE)

/-- The effect of freeing `c`: it takes in the free neighbours it has. -/
inductive Coalesce : List Chunk → Chunk → List Chunk → Prop where
  | mark {xs ys : List Chunk} {c : Chunk} :
      (∀ l, xs.getLast? = some l → l.left ≠ FREE) → (∀ r, ys.head? = some r → r.left ≠ FREE) →
      Coalesce (xs ++ c :: ys) c (xs ++ c.freed :: ys)
  | mergePrev {xs ys : List Chunk} {l c : Chunk} : l.left = FREE →
      (∀ r, ys.head? = some r → r.left ≠ FREE) →
      Coalesce (xs ++ l :: c :: ys) c (xs ++ l.merge c FREE :: ys)
  | mergeNext {xs ys : List Chunk} {c r : Chunk} :
      (∀ l, xs.getLast? = some l → l.left ≠ FREE) → r.left = FREE →
      Coalesce (xs ++ c :: r :: ys) c (xs ++ c.merge r FREE :: ys)
  | mergeBoth {xs ys : List Chunk} {l c r : Chunk} : l.left = FREE → r.left = FREE →
      Coalesce (xs ++ l :: c :: r :: ys) c (xs ++ l.merge (c.merge r FREE) FREE :: ys)

theorem FREE_ne_ALLOCATED : FREE ≠ ALLOCATED := by decide

section

variable {lo hi ρ n : Nat} {cs cs' xs ys : List Chunk} {c : Chunk}

theorem tiled_adjacent {l r : Chunk} (ht : Tiled lo (xs ++ l :: r :: ys) hi) :
    r.addr = l.stop + 32 := by
  obtain ⟨mid, -, -, hr, -⟩ := tiled_append.mp ht
  exact hr

theorem FreeStep.coalesce (hf : FreeStep cs c cs') (ht : Tiled lo cs hi) (hr : Rounded ρ cs)
    (hagree : ∀ d ∈ cs, d.right = d.left) (hmem : c.left = ALLOCATED)
    (hright : c.right = ALLOCATED) : Coalesce cs c cs' := by
  cases hf with
  | keep h =>
    rw [hmem, hright] at h
    exact absurd h (by decide)
  | @mark xs ys _ _ _ hl hr' =>
    refine .mark (fun l hlast => ?_) hr'
    have := hl l hlast
    cases ys with
    | nil =>
      have hm := hagree l (by simp [mem_of_getLast? hlast])
      simpa [askedMarker, hm] using this
    | cons y ys => exact this
  | @mergePrev xs ys l _ v _ _ hask hr' hv =>
    have hv' := hv (merge_stop_eq v hr.behind (tiled_adjacent ht))
    subst hv'
    refine .mergePrev ?_ hr'
    cases ys with
    | nil => exact (hagree l (by simp)).symm.trans hask
    | cons y ys => exact hask
  | @mergeNext xs ys _ r v _ _ hl hrl hv =>
    have hv' := hv (merge_stop_eq v hr.behind (tiled_adjacent ht))
    subst hv'
    exact .mergeNext hl hrl
  | @mergeBoth xs ys l _ r w v _ _ hll hrl hv =>
    have hcs : (c.merge r w).size % 8 = 0 := by
      have h1 := hr.behind
      have h2 : Rounded ρ ((xs ++ [l]) ++ c :: r :: ys) := by simpa using hr
      have h3 := h2.behind
      rw [merge_size]
      omega
    have hv' := hv (merge_stop_eq v hcs (tiled_adjacent (r := c) ht))
    subst hv'
    exact .mergeBoth hll hrl

/-! ### Coalescing as a function -/

def absorb (c : Chunk) : List Chunk → Chunk × List Chunk
  | [] => (c.freed, [])
  | r :: ys => if r.left = FREE then (c.merge r FREE, ys) else (c.freed, r :: ys)

/-- Free the chunk at `p`: it takes in the free chunk behind it and is taken in by
the free chunk in front of it. -/
def coalesce (p : Nat) (cs : List Chunk) : List Chunk :=
  let xs := cs.takeWhile fun d => d.addr ≠ p
  match cs.dropWhile fun d => d.addr ≠ p with
  | [] => cs
  | c :: ys =>
    let (c', ys') := absorb c ys
    match xs.getLast? with
    | none => c' :: ys'
    | some l => if l.left = FREE then xs.dropLast ++ l.merge c' FREE :: ys' else xs ++ c' :: ys'

theorem coalesce_append (hxs : ∀ x ∈ xs, x.addr ≠ c.addr) :
    coalesce c.addr (xs ++ c :: ys) =
      match xs.getLast? with
      | none => (absorb c ys).1 :: (absorb c ys).2
      | some l =>
          if l.left = FREE then xs.dropLast ++ l.merge (absorb c ys).1 FREE :: (absorb c ys).2
          else xs ++ (absorb c ys).1 :: (absorb c ys).2 := by
  have hx : ∀ x ∈ xs, decide (x.addr ≠ c.addr) = true := fun x hx => by simpa using hxs x hx
  have htake : (xs ++ c :: ys).takeWhile (fun d => decide (d.addr ≠ c.addr)) = xs := by
    rw [takeWhile_append_of_pos hx]
    simp
  have hdrop : (xs ++ c :: ys).dropWhile (fun d => decide (d.addr ≠ c.addr)) = c :: ys := by
    rw [dropWhile_append_of_pos hx]
    simp
  simp only [coalesce, htake, hdrop]

theorem absorb_of_not_free (h : ∀ r, ys.head? = some r → r.left ≠ FREE) :
    absorb c ys = (c.freed, ys) := by
  cases ys with
  | nil => rfl
  | cons r ys => rw [absorb, if_neg (h r rfl)]

theorem absorb_of_free {r : Chunk} (h : r.left = FREE) :
    absorb c (r :: ys) = (c.merge r FREE, ys) := by
  rw [absorb, if_pos h]

theorem Coalesce.eq_coalesce (h : Coalesce cs c cs') (hs : Spaced lo cs hi) :
    cs' = coalesce c.addr cs := by
  have hne : ∀ {xs ys : List Chunk}, cs = xs ++ c :: ys → ∀ x ∈ xs, x.addr ≠ c.addr := by
    rintro xs ys rfl x hx
    have hpair := (pairwise_append.mp hs.pairwise).2.2 x hx c (by simp)
    unfold Chunk.stop Chunk.marker at hpair
    omega
  cases h with
  | @mark xs ys _ hl hr =>
    rw [coalesce_append (hne rfl), absorb_of_not_free hr]
    cases hlast : xs.getLast? with
    | none =>
      rw [getLast?_eq_none_iff] at hlast
      simp [hlast]
    | some l => simp [hl l hlast]
  | @mergePrev xs ys l _ hl hr =>
    have hlist : xs ++ l :: c :: ys = (xs ++ [l]) ++ c :: ys := by simp
    rw [hlist, coalesce_append (hne hlist), absorb_of_not_free hr]
    simp [hl, Chunk.merge, Chunk.freed]
  | @mergeNext xs ys _ r hl hr =>
    rw [coalesce_append (hne rfl), absorb_of_free hr]
    cases hlast : xs.getLast? with
    | none =>
      rw [getLast?_eq_none_iff] at hlast
      simp [hlast]
    | some l => simp [hl l hlast]
  | @mergeBoth xs ys l _ r hl hr =>
    have hlist : xs ++ l :: c :: r :: ys = (xs ++ [l]) ++ c :: r :: ys := by simp
    rw [hlist, coalesce_append (hne hlist), absorb_of_free hr]
    simp [hl]

/-! ### Coherence is kept -/

private theorem apart_of_borders {d : Chunk}
    (hx : xs.IsChain fun a b : Chunk => ¬ (a.left = FREE ∧ b.left = FREE))
    (hy : ys.IsChain fun a b : Chunk => ¬ (a.left = FREE ∧ b.left = FREE))
    (hl : ∀ l, xs.getLast? = some l → l.left ≠ FREE)
    (hr : ∀ r, ys.head? = some r → r.left ≠ FREE) :
    (xs ++ d :: ys).IsChain fun a b : Chunk => ¬ (a.left = FREE ∧ b.left = FREE) := by
  refine isChain_append.mpr ⟨hx, isChain_cons.mpr ⟨fun r hr' => ?_, hy⟩, ?_⟩
  · exact fun h => hr r hr' h.2
  · exact fun l hl' d' _ h => hl l hl' h.1

section Apart

variable (hc : (xs ++ c :: ys).IsChain fun a b : Chunk => ¬ (a.left = FREE ∧ b.left = FREE))
include hc

theorem apart_front (hf : c.left = FREE) : ∀ l, xs.getLast? = some l → l.left ≠ FREE :=
  fun l hl h => (isChain_append.mp hc).2.2 l hl c (by simp) ⟨h, hf⟩

theorem apart_behind (hf : c.left = FREE) : ∀ r, ys.head? = some r → r.left ≠ FREE :=
  fun r hr h => (isChain_cons.mp (isChain_append.mp hc).2.1).1 r hr ⟨hf, h⟩

end Apart

/-- Everything freeing a chunk can lead to has one form: `c` and its free neighbours `l` and
`r` give way to one free chunk `d` that reaches from the first of them to the last. -/
structure Absorbs (cs : List Chunk) (c : Chunk) (cs' xs ys : List Chunk) (l r : Option Chunk)
    (d : Chunk) : Prop where
  old : cs = xs ++ l.toList ++ c :: (r.toList ++ ys)
  new : cs' = xs ++ d :: ys
  left_free : ∀ e, l = some e → e.left = FREE
  right_free : ∀ e, r = some e → e.left = FREE
  front : l = none → ∀ e, xs.getLast? = some e → e.left ≠ FREE
  behind : r = none → ∀ e, ys.head? = some e → e.left ≠ FREE
  addr : d.addr = (l.getD c).addr
  marker : d.marker = (r.getD c).marker
  free : d.right = FREE ∧ d.left = FREE

theorem Coalesce.absorbs (h : Coalesce cs c cs') (ht : Tiled lo cs hi) (hr : Rounded ρ cs) :
    ∃ xs ys l r d, Absorbs cs c cs' xs ys l r d := by
  cases h with
  | @mark xs ys _ hl hr' =>
    exact ⟨xs, ys, none, none, c.freed, by simp, rfl, by simp, by simp, fun _ => hl, fun _ => hr',
      rfl, rfl, rfl, rfl⟩
  | @mergePrev xs ys l _ hl hr' =>
    refine ⟨xs, ys, some l, none, l.merge c FREE, by simp, rfl, by simp [hl], by simp, by simp,
      fun _ => hr', rfl, ?_, rfl, rfl⟩
    exact merge_stop_eq FREE hr.behind (tiled_adjacent ht)
  | @mergeNext xs ys _ r hl hrf =>
    refine ⟨xs, ys, none, some r, c.merge r FREE, by simp, rfl, by simp, by simp [hrf],
      fun _ => hl, by simp, rfl, ?_, rfl, rfl⟩
    exact merge_stop_eq FREE hr.behind (tiled_adjacent ht)
  | @mergeBoth xs ys l _ r hl hrf =>
    refine ⟨xs, ys, some l, some r, l.merge (c.merge r FREE) FREE, by simp, rfl, by simp [hl],
      by simp [hrf], by simp, by simp, rfl, ?_, rfl, rfl⟩
    -- first `c` and `r`, then `l` and the two
    have hrs := hr.behind
    have hlist : xs ++ l :: c :: r :: ys = (xs ++ [l]) ++ c :: r :: ys := by simp
    have hr2 : Rounded ρ ((xs ++ [l]) ++ c :: r :: ys) := hlist ▸ hr
    have hcs : (c.merge r FREE).size % 8 = 0 := by
      have := hr2.behind
      rw [merge_size]
      omega
    rw [merge_stop_eq FREE hcs (tiled_adjacent (r := c) ht)]
    exact merge_stop_eq FREE hr2.behind (tiled_adjacent (hlist ▸ ht))

section Absorbs

variable {d : Chunk} {l r : Option Chunk} (ha : Absorbs cs c cs' xs ys l r d)
include ha

theorem Absorbs.forall {P : Chunk → Prop} (hP : ∀ e, e.right = FREE → e.left = FREE → P e)
    (hall : ∀ e ∈ cs, P e) : ∀ e ∈ cs', P e := by
  intro e he
  rw [ha.new, mem_append, mem_cons] at he
  rcases he with he | rfl | he
  · exact hall e (by simp [ha.old, he])
  · exact hP e ha.free.1 ha.free.2
  · exact hall e (by simp [ha.old, he])

theorem Absorbs.apart (hc : cs.IsChain fun a b => ¬ (a.left = FREE ∧ b.left = FREE)) :
    cs'.IsChain fun a b => ¬ (a.left = FREE ∧ b.left = FREE) := by
  rw [ha.old] at hc
  obtain ⟨hx, hy, -⟩ := isChain_append.mp hc
  have hx' := (isChain_append.mp hx).1
  have hy' : ys.IsChain fun a b => ¬ (a.left = FREE ∧ b.left = FREE) := by
    rw [← cons_append] at hy
    exact (isChain_append.mp hy).2.1
  rw [ha.new]
  refine apart_of_borders hx' hy' ?_ ?_
  · cases l with
    | none => exact ha.front rfl
    | some e =>
      have hlist : xs ++ [e] ++ c :: (r.toList ++ ys) = xs ++ e :: (c :: (r.toList ++ ys)) := by
        simp
      exact apart_front (hlist ▸ hc) (ha.left_free e rfl)
  · cases r with
    | none => exact ha.behind rfl
    | some e =>
      have hlist : xs ++ l.toList ++ c :: ([e] ++ ys) = (xs ++ l.toList ++ [c]) ++ e :: ys := by
        simp
      exact apart_behind (hlist ▸ hc) (ha.right_free e rfl)

end Absorbs

theorem Absorbs.coherent {d : Chunk} {l r : Option Chunk} (ha : Absorbs cs c cs' xs ys l r d)
    (hc : Coherent cs) : Coherent cs' :=
  ⟨ha.forall (fun _ h1 h2 => ⟨h1.trans h2.symm, .inl h2⟩) hc.markers, ha.apart hc.apart⟩

theorem coherent_carve (hc : Coherent (xs ++ c :: ys)) (hf : c.left = FREE) :
    Coherent (xs ++ c.shrunk n :: c.carved n :: ys) := by
  have hfront := apart_front hc.apart hf
  obtain ⟨hx, hcy, -⟩ := isChain_append.mp hc.apart
  have hy := (isChain_cons.mp hcy).2
  refine ⟨fun e he => ?_, ?_⟩
  · simp only [mem_append, mem_cons] at he
    rcases he with he | rfl | rfl | he
    · exact hc.markers e (by simp [he])
    · exact ⟨hf.symm, .inl hf⟩
    · exact ⟨rfl, .inr rfl⟩
    · exact hc.markers e (by simp [he])
  · refine apart_of_borders hx (isChain_cons.mpr ⟨fun r _ h => ?_, hy⟩) hfront ?_
    · exact FREE_ne_ALLOCATED h.1.symm
    · intro r hr h
      cases hr
      exact FREE_ne_ALLOCATED h.symm

/-! ### The allocated chunks -/

def allocated (cs : List Chunk) : List (Nat × Nat) :=
  (cs.filter fun c => c.left = ALLOCATED).map fun c => (c.addr, c.size)

@[simp] theorem allocated_append (xs ys : List Chunk) :
    allocated (xs ++ ys) = allocated xs ++ allocated ys := by
  simp [allocated]

theorem allocated_cons_free (cs : List Chunk) (h : c.left = FREE) :
    allocated (c :: cs) = allocated cs := by
  simp [allocated, h, FREE_ne_ALLOCATED]

theorem allocated_cons_allocated (cs : List Chunk) (h : c.left = ALLOCATED) :
    allocated (c :: cs) = (c.addr, c.size) :: allocated cs := by
  simp [allocated, h]

theorem mem_allocated {e : Nat × Nat} :
    e ∈ allocated cs ↔ ∃ c ∈ cs, c.left = ALLOCATED ∧ (c.addr, c.size) = e := by
  simp [allocated, and_assoc]

theorem allocated_carve (xs ys : List Chunk) (n : Nat) (hf : c.left = FREE) :
    allocated (xs ++ c :: ys) = allocated xs ++ allocated ys ∧
      allocated (xs ++ c.shrunk n :: c.carved n :: ys) =
        allocated xs ++ ((c.carved n).addr, n) :: allocated ys := by
  rw [allocated_append, allocated_append, allocated_cons_free _ hf,
    allocated_cons_free (c := c.shrunk n) _ hf, allocated_cons_allocated (c := c.carved n) _ rfl]
  exact ⟨rfl, rfl⟩

theorem coherent_allocChunks (hc : Coherent cs)
    (hserved : ∀ d, cs.find? (fun d => decide (n + METAINFO_SIZE < d.size)) = some d →
      d.left = FREE) :
    Coherent (allocChunks n cs).1 ∧
      (allocated (allocChunks n cs).1).Perm
        (if (allocChunks n cs).2 = 0 then allocated cs
          else ((allocChunks n cs).2, n) :: allocated cs) := by
  by_cases hfit : ∃ c ∈ cs, n + 40 < c.size
  · obtain ⟨xs, c, ys, rfl, hxs, hc'⟩ := exists_first_fit hfit
    have hf := hserved c (find_first_fit hxs hc')
    obtain ⟨hold, hnew⟩ := allocated_carve xs ys n hf
    rw [allocChunks_fits hxs hc', hold, hnew]
    refine ⟨coherent_carve hc hf, ?_⟩
    rw [if_neg (by simp [Chunk.carved])]
    exact perm_middle
  · rw [allocChunks_null fun c hc => Nat.le_of_not_lt fun hlt => hfit ⟨c, hc, hlt⟩]
    exact ⟨hc, by simp⟩

theorem Absorbs.allocated {d : Chunk} {l r : Option Chunk} (ha : Absorbs cs c cs' xs ys l r d)
    (hc : c.left = ALLOCATED) :
    Allocator.allocated cs = Allocator.allocated xs ++ (c.addr, c.size) :: Allocator.allocated ys ∧
      Allocator.allocated cs' = Allocator.allocated xs ++ Allocator.allocated ys := by
  have hl : Allocator.allocated l.toList = [] := by
    cases l with
    | none => rfl
    | some e => exact allocated_cons_free [] (ha.left_free e rfl)
  have hr : Allocator.allocated r.toList = [] := by
    cases r with
    | none => rfl
    | some e => exact allocated_cons_free [] (ha.right_free e rfl)
  rw [ha.old, ha.new, allocated_append, allocated_append, allocated_append,
    allocated_cons_allocated _ hc, allocated_append, allocated_cons_free _ ha.free.2, hl, hr]
  simp

theorem coherent_all_free (hc : Coherent cs) (hnone : allocated cs = []) : cs.length ≤ 1 := by
  have hfree : ∀ c ∈ cs, c.left = FREE := by
    intro c hmem
    rcases (hc.markers c hmem).2 with h | h
    · exact h
    · have : (c.addr, c.size) ∈ allocated cs := mem_allocated.mpr ⟨c, hmem, h, rfl⟩
      rw [hnone] at this
      cases this
  match cs, hc, hfree with
  | [], _, _ => simp
  | [c], _, _ => simp
  | c :: d :: ds, hc, hfree =>
    exact absurd ⟨hfree c (by simp), hfree d (by simp)⟩ (isChain_cons_cons.mp hc.apart).1

end

end LinuxWorkouts.Allocator
