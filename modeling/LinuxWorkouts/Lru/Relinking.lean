import LinuxWorkouts.Lru.Cache

/-!
What the steps of `set` and `get` do to the cache's list.

A hit takes the node out of the list and appends it (`Linked.moved`), provided it is
`Relinkable`. For the head and for the tail of a list of several nodes the code breaks the list
instead: `Linked.moveToHead_head` and `Linked.moveToHead_tail` say what is left of it. A miss
appends the new node, and in a full cache frees the tail (`Linked.set_full`).
-/

namespace LinuxWorkouts.Lru

open DoublyLinked NodeHeap Recency Function List

variable {c : LRUCache} {before a address : Nat} {as xs ys : List Nat}
  {entries left right : List (Entry Int Int)} {e : Entry Int Int} {key value stale : Int}

/-! ### A new node -/

theorem Listed.notMem_of_free (h : Listed c before as entries)
    (hfree : data c.nodes address = none) : address ∉ as := by
  intro hmem
  have hsome := h.isSome hmem
  rw [hfree] at hsome
  cases hsome

theorem Linked.withNewNode (h : Linked c before as entries) (hfree : data c.nodes address = none)
    (hnull : address ≠ null) (key value : Int) :
    Linked (newNode c address key value) before as entries := by
  obtain ⟨hnext, hprev, hdata⟩ := views_alloc c.nodes address (Entry.mk key value)
  have hne : ∀ a ∈ as, a ≠ address := fun a ha heq => h.notMem_of_free hfree (heq ▸ ha)
  have hsame : ∀ a ∈ as, data (alloc c.nodes address ⟨key, value⟩) a = data c.nodes a := by
    intro a ha
    rw [hdata, update_of_ne (hne a ha)]
  refine ⟨⟨?_, h.nodup, ?_, ?_, h.head, h.tail⟩, h.size, h.bound, h.keys, ?_, h.apart, ?_⟩
  · refine h.linked.congr (fun a ha => ?_) (fun a ha => ?_)
    · exact (congrFun hnext a).trans (update_of_ne (hne a ha) _ _)
    · exact (congrFun hprev a).trans (update_of_ne (hne a ha) _ _)
  · exact (congrFun hdata null).trans ((update_of_ne hnull.symm _ _).trans h.nullFree)
  · exact (map_congr_left hsame).trans h.contents
  · intro k a
    refine (h.found k a).trans (and_congr_right fun ha => ?_)
    change _ ↔ (data (alloc c.nodes address ⟨key, value⟩) a).map Entry.key = some k
    rw [hsame a ha]
  · intro hroom
    refine (h.roomy hroom).imp_right fun hsome => ?_
    change (data (alloc c.nodes address ⟨key, value⟩) before).isSome
    rw [hdata]
    by_cases hb : before = address
    · rw [hb, update_self]
      rfl
    · rwa [update_of_ne hb]

/-! ### Hits -/

theorem Linked.reorder (h : Linked c before (xs ++ a :: ys) (left ++ e :: right))
    (hxs : xs.map (data c.nodes) = left.map some) (ha : data c.nodes a = some e)
    (hys : ys.map (data c.nodes) = right.map some) {m : Heap (Entry Int Int)} {before' : Nat}
    (hdata : data m = data c.nodes)
    (hseg : Seg (next m) (prev m) before' (xs ++ ys ++ [a]) null)
    (htail : c.tail = (xs ++ ys ++ [a]).headD null) (hapart : before' ∉ (xs ++ ys ++ [a]).tail)
    (hroomy : (xs ++ a :: ys).length < c.cp → before' = null ∨ (data c.nodes before').isSome) :
    Linked { c with nodes := m, head := a } before' (xs ++ ys ++ [a]) (left ++ right ++ [e]) := by
  have hperm : (xs ++ ys ++ [a]).Perm (xs ++ a :: ys) := by
    rw [append_assoc]
    exact (perm_append_singleton a ys).append_left xs
  have hpermKeys : (left ++ right ++ [e]).Perm (left ++ e :: right) := by
    rw [append_assoc]
    exact (perm_append_singleton e right).append_left left
  have hlength := hperm.length_eq
  refine ⟨⟨hseg, hperm.nodup_iff.mpr h.nodup, ?_, ?_, ?_, htail⟩, ?_, ?_, ?_, ?_, hapart, ?_⟩
  · exact (congrFun hdata null).trans h.nullFree
  · change (xs ++ ys ++ [a]).map (data m) = _
    rw [hdata, map_append, map_append, map_append, map_append, hxs, hys,
      map_singleton, ha, map_singleton]
  · rw [getLastD_concat]
  · exact h.size.trans hlength.symm
  · exact hlength.trans_le h.bound
  · exact (hpermKeys.map Entry.key).nodup_iff.mpr h.keys
  · intro k b
    rw [hperm.mem_iff]
    change _ ↔ _ ∧ (data m b).map Entry.key = some k
    rw [hdata]
    exact h.found k b
  · change _ → _ ∨ (data m before').isSome
    rw [hdata, hlength]
    exact hroomy

theorem Listed.around {x y : Nat}
    (h : Listed c before (xs ++ [x] ++ a :: y :: ys) entries) :
    prev c.nodes a = x ∧ next c.nodes a = y ∧ c.head = (y :: ys).getLastD null := by
  obtain ⟨-, hprev, hnext, -⟩ := seg_append.mp h.linked
  refine ⟨?_, hnext, ?_⟩
  · rw [hprev, getLastD_concat]
  · rw [h.head, getLastD_append, getLastD_cons, getLastD_cons, getLastD_cons]

theorem Linked.moveToHead_inner {x y : Nat}
    (h : Linked c before (xs ++ [x] ++ a :: y :: ys) (left ++ e :: right))
    (hxs : (xs ++ [x]).map (data c.nodes) = left.map some) (ha : data c.nodes a = some e)
    (hys : (y :: ys).map (data c.nodes) = right.map some) :
    ∃ m, moveToHead c a = some { c with nodes := m, head := a } ∧
      Linked { c with nodes := m, head := a } before (xs ++ [x] ++ y :: ys ++ [a])
        (left ++ right ++ [e]) := by
  obtain ⟨hprev, hnext, hhead⟩ := h.toListed.around
  have hx : x ∈ xs ++ [x] ++ a :: y :: ys := by simp
  have hy : y ∈ xs ++ [x] ++ a :: y :: ys := by simp
  have hheadMem : c.head ∈ y :: ys := by
    rw [hhead, getLastD_cons]
    exact getLastD_mem_cons
  have hheadSome : (data c.nodes c.head).isSome :=
    h.toListed.isSome (mem_append_right _ (mem_cons_of_mem _ hheadMem))
  obtain ⟨m, hmove, hnextM, hprevM, hdataM⟩ := moveToHead_spec (c := c) (a := a)
    (by rw [ha]; rfl) hheadSome (fun _ => hnext ▸ h.toListed.isSome hy)
    (fun _ => hprev ▸ h.toListed.isSome hx)
  rw [hprev, hnext, if_pos (h.toListed.ne_null hx)] at hnextM
  rw [hprev, hnext, if_pos (h.toListed.ne_null hy)] at hprevM
  have hsub : (xs ++ [x] ++ y :: ys).Sublist (xs ++ [x] ++ a :: y :: ys) :=
    (sublist_cons_self a _).append_left _
  have hfresh : a ∉ xs ++ [x] ++ y :: ys := by
    have hmiddle := nodup_middle.mp h.nodup
    exact (nodup_cons.mp hmiddle).1
  have hlast : (xs ++ [x] ++ y :: ys).getLastD before = c.head := by
    rw [getLastD_append, getLastD_cons, hhead, getLastD_cons]
  have hseg := (h.linked.bypass h.nodup).append_node (hsub.nodup h.nodup) hfresh
  rw [hlast, ← hnextM, ← hprevM] at hseg
  refine ⟨m, hmove, h.reorder hxs ha hys hdataM hseg ?_ ?_ ?_⟩
  · rw [h.tail]
    cases xs <;> rfl
  · have hapart := h.apart
    cases xs with
    | nil =>
      simp only [nil_append, tail_cons, cons_append, mem_cons, mem_append, not_or] at hapart ⊢
      tauto
    | cons z zs =>
      simp only [tail_cons, cons_append, mem_cons, mem_append, not_or] at hapart ⊢
      tauto
  · exact h.roomy

theorem Linked.moveToHead_only (h : Linked c before [a] [e]) (ha : data c.nodes a = some e)
    (hback : prev c.nodes a = null ∨ (data c.nodes (prev c.nodes a)).isSome) :
    ∃ m, moveToHead c a = some { c with nodes := m, head := a } ∧
      Linked { c with nodes := m, head := a } a [a] [e] := by
  obtain ⟨hprev, hnext, -⟩ := h.linked
  have hsome : (data c.nodes a).isSome := h.toListed.isSome mem_cons_self
  have hhead : c.head = a := h.head
  obtain ⟨m, hmove, hnextM, hprevM, hdataM⟩ := moveToHead_spec (c := c) (a := a) hsome
    (hhead ▸ hsome) (fun hne => absurd hnext hne) (fun hne => hback.resolve_left hne)
  have hsplit : Linked c before ([] ++ a :: []) ([] ++ e :: []) := h
  refine ⟨m, hmove, hsplit.reorder rfl ha rfl hdataM ⟨?_, ?_, trivial⟩ h.tail not_mem_nil
    (fun _ => .inr hsome)⟩
  · rw [hprevM, update_self, hhead]
  · rw [hnextM, update_self]
    rfl

theorem Linked.moved (h : Linked c before (xs ++ a :: ys) (left ++ e :: right))
    (hxs : xs.map (data c.nodes) = left.map some) (ha : data c.nodes a = some e)
    (hys : ys.map (data c.nodes) = right.map some) (hrel : Relinkable c a) :
    ∃ m before', moveToHead c a = some { c with nodes := m, head := a } ∧
      Linked { c with nodes := m, head := a } before' (xs ++ ys ++ [a]) (left ++ right ++ [e]) := by
  have hhead := h.head
  have htail := h.tail
  rw [getLastD_append, getLastD_cons] at hhead
  cases xs using reverseRecOn with
  | nil =>
    have hleft : left = [] := by simpa using hxs.symm
    subst hleft
    cases ys with
    | nil =>
      have hright : right = [] := by simpa using hys.symm
      subst hright
      rcases hrel with ⟨hne, -⟩ | ⟨-, -, hback⟩
      · exact absurd hhead.symm hne
      · obtain ⟨m, hmove, hlinked⟩ := Linked.moveToHead_only h ha hback
        exact ⟨m, a, hmove, hlinked⟩
    | cons y ys =>
      -- The node is the tail, and so the head too.
      rcases hrel with ⟨-, hne⟩ | ⟨heq, -⟩
      · exact absurd htail.symm hne
      · have hmem : a ∈ y :: ys := by
          rw [heq, hhead, getLastD_cons]
          exact getLastD_mem_cons
        exact absurd hmem (nodup_cons.mp h.nodup).1
  | append_singleton xs x =>
    cases ys with
    | nil =>
      rcases hrel with ⟨hne, -⟩ | ⟨-, heq, -⟩
      · exact absurd hhead.symm hne
      · have hmem : a ∈ xs ++ [x] := by
          rw [heq, htail]
          cases xs <;> exact mem_cons_self
        exact absurd rfl ((nodup_append.mp h.nodup).2.2 a hmem a mem_cons_self)
    | cons y ys =>
      obtain ⟨m, hmove, hlinked⟩ := h.moveToHead_inner hxs ha hys
      exact ⟨m, before, hmove, hlinked⟩

theorem moveToHead_eq_some {c' : LRUCache} (h : moveToHead c a = some c') :
    next c'.nodes a = null ∧ c'.tail = c.tail ∧ c'.mp = c.mp ∧ c'.cp = c.cp := by
  obtain ⟨m₁, -, h⟩ := Option.bind_eq_some_iff.mp h
  obtain ⟨m₂, -, h⟩ := Option.bind_eq_some_iff.mp h
  obtain ⟨m₃, -, h⟩ := Option.bind_eq_some_iff.mp h
  obtain ⟨m₄, hm₄, h⟩ := Option.bind_eq_some_iff.mp h
  obtain ⟨m₅, hm₅, rfl⟩ := Option.map_eq_some_iff.mp h
  refine ⟨?_, rfl, rfl, rfl⟩
  rw [(views_setPrev hm₅).1, (views_setNext hm₄).1, update_self]

theorem Listed.moveToHead_tail {c' : LRUCache} (h : Listed c before (a :: as) entries)
    (hmove : moveToHead c a = some c') : Chain (next c'.nodes) null c'.tail [a] := by
  obtain ⟨hnext, htail, -, -⟩ := moveToHead_eq_some hmove
  exact ⟨htail.trans h.tail, hnext⟩

theorem Listed.moveToHead_head {x : Nat} (h : Listed c before (xs ++ [x] ++ [a]) entries) :
    ∃ c', moveToHead c a = some c' ∧ Chain (next c'.nodes) null c'.tail (xs ++ [x]) := by
  obtain ⟨hseg, hprev, hnext, -⟩ := seg_append.mp h.linked
  rw [getLastD_concat] at hprev
  have hx : x ∈ xs ++ [x] ++ [a] := by simp
  have ha : a ∈ xs ++ [x] ++ [a] := by simp
  have hhead : c.head = a := by rw [h.head, getLastD_concat]
  obtain ⟨m, hmove, hnextM, -, -⟩ := moveToHead_spec (c := c) (a := a) (h.isSome ha)
    (hhead ▸ h.isSome ha) (fun hne => absurd hnext hne) (fun _ => hprev ▸ h.isSome hx)
  rw [hprev, hnext, if_pos (h.ne_null hx), hhead, update_idem] at hnextM
  obtain ⟨hnodup, -, hapart⟩ := nodup_append.mp h.nodup
  have hne : ∀ z ∈ xs ++ [x], z ≠ a := fun z hz => hapart z hz a mem_cons_self
  refine ⟨_, hmove, ?_⟩
  have hcut : Seg (next m) (prev c.nodes) before (xs ++ [x]) null := by
    refine hseg.retarget ?_ ?_ (fun _ _ => rfl)
    · intro z hz
      have hz' := ne_getLastD_of_dropLast (d := null) hnodup hz
      rw [getLastD_concat] at hz'
      rw [hnextM, update_of_ne (hne z (mem_of_mem_dropLast hz)), update_of_ne hz']
    · intro z hz
      rw [getLast?_concat] at hz
      rw [← Option.some.inj hz, hnextM, update_of_ne (hne x (by simp)), update_self]
      rfl
  have htail : c.tail = (xs ++ [x]).headD null := by
    rw [h.tail]
    cases xs <;> rfl
  change Chain (next m) null c.tail (xs ++ [x])
  rw [htail]
  exact hcut.chain

theorem Linked.valued (h : Linked c before (as ++ [a]) (entries ++ [e])) (value : Int) :
    ∃ c', setValue c a value = some c' ∧
      Linked c' before (as ++ [a]) (entries ++ [⟨e.key, value⟩]) ∧ c'.cp = c.cp := by
  have hcontents := h.contents
  rw [map_append, map_append] at hcontents
  obtain ⟨hfirst, hlast⟩ := append_inj' hcontents rfl
  have ha : data c.nodes a = some e := singleton_inj.mp hlast
  obtain ⟨m, hm, hnext, hprev, hdata⟩ :=
    exists_setData (m := c.nodes) (a := a) (by rw [ha]; rfl) ⟨e.key, value⟩
  have hne : ∀ b ∈ as, b ≠ a := fun b hb =>
    (nodup_append.mp h.nodup).2.2 b hb a mem_cons_self
  have hkey : ∀ b, (data m b).map Entry.key = (data c.nodes b).map Entry.key := by
    intro b
    by_cases hb : b = a
    · rw [hb, hdata, update_self, ha]
      rfl
    · rw [hdata, update_of_ne hb]
  have hsome : ∀ b, (data m b).isSome = (data c.nodes b).isSome := by
    intro b
    rw [← Option.isSome_map (f := Entry.key), hkey, Option.isSome_map]
  refine ⟨{ c with nodes := m }, ?_, ?_, rfl⟩
  · rw [setValue, ha, Option.bind_some, hm, Option.map_some]
  · refine ⟨⟨?_, h.nodup, ?_, ?_, h.head, h.tail⟩, h.size, h.bound, ?_, ?_, h.apart, ?_⟩
    · exact h.linked.congr (fun b _ => congrFun hnext b) (fun b _ => congrFun hprev b)
    · have hnull := hsome null
      rw [h.nullFree] at hnull
      exact Option.isNone_iff_eq_none.mp (by simpa using hnull)
    · change (as ++ [a]).map (data m) = _
      have hsame : as.map (data m) = as.map (data c.nodes) :=
        map_congr_left fun b hb => by rw [hdata, update_of_ne (hne b hb)]
      rw [map_append, map_append, hsame, hfirst, map_singleton, map_singleton, hdata, update_self]
    · have hkeys := h.keys
      rwa [map_append] at hkeys ⊢
    · intro k b
      change _ ↔ _ ∧ (data m b).map Entry.key = some k
      rw [hkey]
      exact h.found k b
    · intro hroom
      change _ ∨ (data m before).isSome
      rw [hsome]
      exact h.roomy hroom

/-! ### Misses -/

theorem Listed.keys_eq (h : Listed c before as entries) :
    as.map (fun a => (data c.nodes a).map Entry.key) = (entries.map Entry.key).map some := by
  have hmap := congrArg (map (Option.map Entry.key)) h.contents
  rw [map_map, map_map] at hmap
  rw [map_map]
  exact hmap

theorem Linked.isSome_mp (h : Linked c before as entries) (k : Int) :
    (c.mp k).isSome ↔ k ∈ entries.map Entry.key := by
  rw [← mem_map_of_injective (Option.some_injective Int), ← h.toListed.keys_eq, mem_map,
    Option.isSome_iff_exists]
  exact exists_congr (h.found k)

theorem Linked.key_notMem (h : Linked c before as entries) (hmiss : c.mp key = none) :
    key ∉ entries.map Entry.key := by
  rw [← h.isSome_mp, hmiss]
  exact Bool.false_ne_true

theorem Listed.appended (h : Listed c before as entries) (hne : as ≠ [])
    (hnew : data c.nodes a = some e) (hnext : next c.nodes a = null) (hnotin : a ∉ as) :
    ∃ m, append c a = some { c with nodes := m, head := a } ∧ data m = data c.nodes ∧
      Listed { c with nodes := m, head := a } before (as ++ [a]) (entries ++ [e]) := by
  have hhead : c.head ∈ as := by
    rw [h.head]
    cases as with
    | nil => exact absurd rfl hne
    | cons x xs =>
      rw [getLastD_cons]
      exact getLastD_mem_cons
  have hother : ∀ b ∈ as, b ≠ a := fun b hb heq => hnotin (heq ▸ hb)
  obtain ⟨m₁, hm₁, hnext₁, hprev₁, hdata₁⟩ := exists_setNext (h.isSome hhead) a
  obtain ⟨m₂, hm₂, hnext₂, hprev₂, hdata₂⟩ :=
    exists_setPrev (m := m₁) (a := a) (by rw [hdata₁, hnew]; rfl) c.head
  have hdata : data m₂ = data c.nodes := hdata₂.trans hdata₁
  refine ⟨m₂, ?_, hdata, ?_, ?_, ?_, ?_, ?_, ?_⟩
  · rw [append, hm₁, Option.bind_some, hm₂, Option.map_some]
  · refine h.linked.concat ?_ ?_ ?_ ?_ ?_
    · change prev m₂ a = _
      rw [hprev₂, update_self, h.head]
      cases as with
      | nil => exact absurd rfl hne
      | cons x xs => rw [getLastD_cons, getLastD_cons]
    · change next m₂ a = null
      rw [hnext₂, hnext₁, update_of_ne (hother _ hhead).symm, hnext]
    · intro b hb
      change next m₂ b = a
      have hbhead : b = c.head := by
        rw [h.head, getLastD_eq_getLast?, hb, Option.getD_some]
      rw [hnext₂, hnext₁, hbhead, update_self]
    · intro b hb
      change next m₂ b = _
      have hbhead : b ≠ c.head := h.head ▸ ne_getLastD_of_dropLast h.nodup hb
      rw [hnext₂, hnext₁, update_of_ne hbhead]
    · intro b hb
      change prev m₂ b = _
      rw [hprev₂, update_of_ne (hother b hb), hprev₁]
  · exact nodup_append.mpr ⟨h.nodup, nodup_singleton a,
      fun b hb b' hb' => mem_singleton.mp hb' ▸ hother b hb⟩
  · exact (congrFun hdata null).trans h.nullFree
  · change (as ++ [a]).map (data m₂) = _
    rw [hdata, map_append, h.contents, map_append, map_singleton, hnew, map_singleton]
  · rw [getLastD_concat]
  · rw [h.tail]
    cases as with
    | nil => exact absurd rfl hne
    | cons x xs => rfl

theorem Listed.evicted (h : Listed c before (a :: as) (e :: entries)) (hne : as ≠ [])
    (stale : Int) :
    ∃ m, evict c stale = some
        { c with nodes := m, tail := as.headD null, mp := update c.mp stale none } ∧
      data m = update (data c.nodes) a none ∧
      Listed { c with nodes := m, tail := as.headD null, mp := update c.mp stale none }
        a as entries := by
  obtain ⟨-, hnext, hseg⟩ := h.linked
  obtain ⟨hnotin, hnodup⟩ := nodup_cons.mp h.nodup
  have htail : c.tail = a := h.tail
  have hother : ∀ b ∈ as, b ≠ a := fun b hb heq => hnotin (heq ▸ hb)
  obtain ⟨m, hm, hnextM, hprevM, hdataM⟩ := exists_free (h.isSome mem_cons_self)
  have hfirst : as.headD null ≠ null := by
    cases as with
    | nil => exact absurd rfl hne
    | cons x xs => exact h.ne_null (mem_cons_of_mem _ mem_cons_self)
  have hcontents : data c.nodes a = some e ∧ as.map (data c.nodes) = entries.map some :=
    cons_eq_cons.mp h.contents
  refine ⟨m, ?_, hdataM, ?_, hnodup, ?_, ?_, ?_, rfl⟩
  · rw [evict, htail, hm, Option.map_some, hnext, if_pos hfirst]
  · refine hseg.congr (fun b hb => ?_) (fun b hb => ?_)
    · change next m b = _
      rw [hnextM, update_of_ne (hother b hb)]
    · change prev m b = _
      rw [hprevM, update_of_ne (hother b hb)]
  · change data m null = none
    rw [hdataM, update_of_ne (h.ne_null mem_cons_self).symm, h.nullFree]
  · change as.map (data m) = _
    rw [← hcontents.2]
    refine map_congr_left fun b hb => ?_
    rw [hdataM, update_of_ne (hother b hb)]
  · change c.head = _
    rw [h.head]
    cases as with
    | nil => exact absurd rfl hne
    | cons x xs => rw [getLastD_cons, getLastD_cons, getLastD_cons]

section Index

variable {mp : Int → Option Nat} {keyOf keyOf' : Nat → Option Int}

theorem found_index (hfound : ∀ k b, mp k = some b ↔ b ∈ as ∧ keyOf b = some k)
    (hsame : ∀ b ∈ as, keyOf' b = keyOf b) (hnew : keyOf' a = some key)
    (hmiss : ∀ b ∈ as, keyOf b ≠ some key) (k : Int) (b : Nat) :
    update mp key (some a) k = some b ↔ b ∈ as ++ [a] ∧ keyOf' b = some k := by
  rw [mem_append, mem_singleton]
  by_cases hk : k = key
  · subst hk
    rw [update_self, Option.some_inj]
    constructor
    · rintro rfl
      exact ⟨.inr rfl, hnew⟩
    · rintro ⟨hb | rfl, hkey⟩
      · exact absurd ((hsame b hb).symm.trans hkey) (hmiss b hb)
      · rfl
  · rw [update_of_ne hk, hfound]
    constructor
    · rintro ⟨hb, hkey⟩
      exact ⟨.inl hb, (hsame b hb).trans hkey⟩
    · rintro ⟨hb | rfl, hkey⟩
      · exact ⟨hb, (hsame b hb).symm.trans hkey⟩
      · exact absurd (Option.some.inj (hkey.symm.trans hnew)) hk

theorem found_erase (hfound : ∀ k b, mp k = some b ↔ b ∈ a :: as ∧ keyOf b = some k)
    (hfirst : keyOf a = some key) (hothers : ∀ b ∈ as, keyOf b ≠ some key) (k : Int) (b : Nat) :
    update mp key none k = some b ↔ b ∈ as ∧ keyOf b = some k := by
  by_cases hk : k = key
  · subst hk
    rw [update_self]
    constructor
    · exact fun hcontra => absurd hcontra.symm (Option.some_ne_none b)
    · rintro ⟨hb, hkey⟩
      exact absurd hkey (hothers b hb)
  · rw [update_of_ne hk, hfound, mem_cons]
    constructor
    · rintro ⟨rfl | hb, hkey⟩
      · exact absurd (Option.some.inj (hkey.symm.trans hfirst)) hk
      · exact ⟨hb, hkey⟩
    · rintro ⟨hb, hkey⟩
      exact ⟨.inr hb, hkey⟩

end Index

end LinuxWorkouts.Lru
