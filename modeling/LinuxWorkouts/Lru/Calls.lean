import LinuxWorkouts.Lru.Relinking

/-!
`set` and `get` on a cache with known entries.

For each way a call can go there is one lemma that says what it does to the entries: `get_hit`,
`set_hit`, `set_room` and `set_full`. `InOrder` is what a user of the cache relies on, and
`Listed.inOrder` and `not_inOrder_of_length` say when the list has it.
-/

namespace LinuxWorkouts.Lru

open DoublyLinked NodeHeap Recency Function List Option

variable {c : LRUCache} {before a address : Nat} {as xs ys : List Nat}
  {entries left right : List (Entry Int Int)} {e : Entry Int Int} {key value stale : Int}

/-- The list from `tail` along `next` to `head` has the keys in this order, each once, and they are
the keys of the map. -/
def InOrder (c : LRUCache) (keys : List Int) : Prop :=
  ∃ as, Chain (next c.nodes) null c.tail as ∧ null ∉ as ∧ as.getLastD null = c.head ∧
    as.map (fun a => (data c.nodes a).map Entry.key) = keys.map some ∧ keys.Nodup ∧
    ∀ k, (c.mp k).isSome ↔ k ∈ keys

theorem Linked.inOrder (h : Linked c before as entries) : InOrder c (entries.map Entry.key) :=
  ⟨as, h.tail ▸ h.linked.chain, h.toListed.null_notMem, h.head.symm, h.toListed.keys_eq, h.keys,
    h.isSome_mp⟩

theorem not_inOrder_of_length {keys : List Int} (hchain : Chain (next c.nodes) null c.tail as)
    (hnull : null ∉ as) (hlength : as.length ≠ keys.length) : ¬ InOrder c keys := by
  rintro ⟨bs, hbs, hnull', -, hkeys, -, -⟩
  have hlen := congrArg length hkeys
  rw [length_map, length_map, ← hchain.unique hbs hnull hnull'] at hlen
  exact hlength hlen

/-! ### Hits -/

theorem Linked.hit (h : Linked c before as entries) (hmp : c.mp key = some a) :
    ∃ xs ys left e right, as = xs ++ a :: ys ∧ entries = left ++ e :: right ∧ e.key = key ∧
      xs.map (data c.nodes) = left.map some ∧ data c.nodes a = some e ∧
      ys.map (data c.nodes) = right.map some := by
  obtain ⟨hmem, hkey⟩ := (h.found key a).mp hmp
  obtain ⟨xs, ys, rfl⟩ := append_of_mem hmem
  obtain ⟨left, e, right, hentries, hxs, ha, hys⟩ := h.toListed.split
  rw [ha] at hkey
  exact ⟨xs, ys, left, e, right, rfl, hentries, Option.some.inj hkey, hxs, ha, hys⟩

theorem Linked.moveToHead_breaks (h : Linked c before (xs ++ a :: ys) entries)
    (hrel : ¬ Relinkable c a) {c' : LRUCache} (hmove : moveToHead c a = some c') :
    ∃ bs, Chain (next c'.nodes) null c'.tail bs ∧ null ∉ bs ∧ bs.length ≠ entries.length := by
  have hhead := h.head
  have htail := h.tail
  have hlength := h.toListed.length_eq
  have hnull := h.toListed.null_notMem
  rw [getLastD_append, getLastD_cons] at hhead
  cases xs using reverseRecOn with
  | nil =>
    cases ys with
    | nil =>
      -- The only node points back to a freed one.
      have hback : ¬ (prev c.nodes a = null ∨ (data c.nodes (prev c.nodes a)).isSome) :=
        fun hback => hrel (.inr ⟨hhead.symm, htail.symm, hback⟩)
      obtain ⟨hprev, hfreed⟩ := not_or.mp hback
      have hnone := moveToHead_eq_none h.linked.2.1 hprev (not_isSome_iff_eq_none.mp hfreed)
      rw [hnone] at hmove
      cases hmove
    | cons y ys =>
      refine ⟨[a], h.toListed.moveToHead_tail hmove, ?_, ?_⟩
      · rw [mem_singleton]
        exact (h.toListed.ne_null mem_cons_self).symm
      · rw [← hlength]
        simp
  | append_singleton xs x =>
    cases ys with
    | nil =>
      obtain ⟨c₁, hc₁, hchain⟩ := h.toListed.moveToHead_head
      have heq : c₁ = c' := Option.some.inj (hc₁.symm.trans hmove)
      subst heq
      refine ⟨xs ++ [x], hchain, fun hmem => hnull (mem_append_left _ hmem), ?_⟩
      rw [← hlength]
      simp
    | cons y ys =>
      -- Inside the list every node can be relinked.
      exfalso
      apply hrel
      obtain ⟨-, hnodupR, hcross⟩ := nodup_append.mp h.nodup
      have hmemHead : c.head ∈ y :: ys := by
        rw [hhead, getLastD_cons]
        exact getLastD_mem_cons
      have hmemTail : c.tail ∈ xs ++ [x] := by
        rw [htail]
        cases xs <;> exact mem_cons_self
      refine .inl ⟨fun heq => ?_, fun heq => ?_⟩
      · exact (nodup_cons.mp hnodupR).1 (heq ▸ hmemHead)
      · exact hcross c.tail hmemTail a mem_cons_self heq.symm

theorem Linked.get_hit (h : Linked c before (xs ++ a :: ys) (left ++ e :: right))
    (hmp : c.mp key = some a) (hxs : xs.map (data c.nodes) = left.map some)
    (ha : data c.nodes a = some e) (hys : ys.map (data c.nodes) = right.map some)
    (hrel : Relinkable c a) :
    ∃ c' before', get c key = some (c', e.value) ∧ c'.cp = c.cp ∧
      Linked c' before' (xs ++ ys ++ [a]) (left ++ right ++ [e]) := by
  obtain ⟨m, before', hmove, hlinked⟩ := h.moved hxs ha hys hrel
  refine ⟨{ c with nodes := m, head := a }, before', ?_, rfl, hlinked⟩
  have hcontents :
      (xs ++ ys).map (data m) ++ [data m a] = (left ++ right).map some ++ [some e] := by
    simpa using hlinked.contents
  have hlast : data m a = some e := singleton_inj.mp (append_inj' hcontents rfl).2
  simp only [get, hmp, hmove, bind_some]
  rw [hlast, map_some]

theorem Linked.set_hit (h : Linked c before (xs ++ a :: ys) (left ++ e :: right))
    (hmp : c.mp key = some a) (hkey : e.key = key) (hxs : xs.map (data c.nodes) = left.map some)
    (ha : data c.nodes a = some e) (hys : ys.map (data c.nodes) = right.map some)
    (hfree : data c.nodes address = none) (hnull : address ≠ null)
    (hrel : Relinkable (newNode c address key value) a) (stale : Int) :
    ∃ c' before', set c key value address stale = some c' ∧ c'.cp = c.cp ∧
      Linked c' before' (xs ++ ys ++ [a]) (left ++ right ++ [⟨key, value⟩]) := by
  have hnew := h.withNewNode hfree hnull key value
  have hnotin := h.toListed.notMem_of_free hfree
  have hsame : ∀ b ∈ xs ++ a :: ys,
      data (newNode c address key value).nodes b = data c.nodes b := by
    intro b hb
    change data (alloc c.nodes address ⟨key, value⟩) b = _
    have hne : b ≠ address := fun heq => hnotin (heq ▸ hb)
    rw [(views_alloc _ _ _).2.2, update_of_ne hne]
  have hxs' : xs.map (data (newNode c address key value).nodes) = left.map some := by
    rw [← hxs]
    exact map_congr_left fun b hb => hsame b (mem_append_left _ hb)
  have hys' : ys.map (data (newNode c address key value).nodes) = right.map some := by
    rw [← hys]
    exact map_congr_left fun b hb =>
      hsame b (mem_append_right _ (mem_cons_of_mem _ hb))
  have ha' : data (newNode c address key value).nodes a = some e :=
    (hsame a (mem_append_right _ mem_cons_self)).trans ha
  obtain ⟨m, before', hmove, hlinked⟩ := hnew.moved hxs' ha' hys' hrel
  obtain ⟨c', hset, hlinked', hcp⟩ := hlinked.valued value
  rw [hkey] at hlinked'
  refine ⟨c', before', ?_, hcp, hlinked'⟩
  simp only [set, hmp, hmove, bind_some]
  exact hset

/-! ### Misses -/

theorem Linked.indexed (h : Linked c before as entries) (hmiss : c.mp key = none)
    (hfree : data c.nodes a = none) {c₁ : LRUCache} {before' : Nat}
    (hlisted : Listed c₁ before' (as ++ [a]) (entries ++ [⟨key, value⟩]))
    (hdata : data c₁.nodes = update (data c.nodes) a (some ⟨key, value⟩))
    (hmp : c₁.mp = c.mp) (hcp : c₁.cp = c.cp) (hsize : c₁.actSize = c.actSize + 1)
    (hroom : as.length < c.cp) (hapart : before' ∉ (as ++ [a]).tail)
    (hroomy : before' = null ∨ (data c₁.nodes before').isSome) :
    Linked (index c₁ key a) before' (as ++ [a]) (entries ++ [⟨key, value⟩]) := by
  have hnotin := h.toListed.notMem_of_free hfree
  have hkey := h.key_notMem hmiss
  refine ⟨⟨hlisted.linked, hlisted.nodup, hlisted.nullFree, hlisted.contents, hlisted.head,
    hlisted.tail⟩, ?_, ?_, ?_, ?_, hapart, fun _ => hroomy⟩
  · change c₁.actSize = _
    rw [hsize, h.size, length_append, length_singleton]
  · change _ ≤ c₁.cp
    rw [hcp, length_append, length_singleton]
    exact hroom
  · rw [map_append, nodup_append]
    refine ⟨h.keys, nodup_singleton _, fun k hk k' hk' => ?_⟩
    intro heq
    rw [heq, mem_singleton.mp hk'] at hk
    exact hkey hk
  · change ∀ k b, update c₁.mp key (some a) k = some b ↔
      b ∈ as ++ [a] ∧ (data c₁.nodes b).map Entry.key = some k
    rw [hmp, hdata]
    refine found_index h.found (fun b hb => ?_) ?_ (fun b hb hcontra => ?_)
    · have hne : b ≠ a := fun heq => hnotin (heq ▸ hb)
      rw [update_of_ne hne]
    · rw [update_self]
      rfl
    · have hfound := (h.found key b).mpr ⟨hb, hcontra⟩
      rw [hmiss] at hfound
      cases hfound

theorem views_newNode (c : LRUCache) (a : Nat) (key value : Int) :
    data (newNode c a key value).nodes = update (data c.nodes) a (some ⟨key, value⟩) ∧
      next (newNode c a key value).nodes a = null ∧
      prev (newNode c a key value).nodes a = null := by
  obtain ⟨hnext, hprev, hdata⟩ := views_alloc c.nodes a (Entry.mk key value)
  refine ⟨hdata, (congrFun hnext a).trans ?_, (congrFun hprev a).trans ?_⟩
  · exact update_self ..
  · exact update_self ..

theorem set_of_miss (hmiss : c.mp key = none) (value stale : Int) :
    set c key value a stale =
      (insert (newNode c a key value) a stale).map fun c₁ => index c₁ key a := by
  simp only [set, hmiss]

theorem Linked.set_room (h : Linked c before as entries) (hmiss : c.mp key = none)
    (hfree : data c.nodes a = none) (hnull : a ≠ null) (hroom : as.length < c.cp)
    (value stale : Int) :
    ∃ c' before', set c key value a stale = some c' ∧ c'.cp = c.cp ∧
      Linked c' before' (as ++ [a]) (entries ++ [⟨key, value⟩]) := by
  have hnotin := h.toListed.notMem_of_free hfree
  have hnew := h.withNewNode hfree hnull key value
  obtain ⟨hdata, hend, hstart⟩ := views_newNode c a key value
  have hmp : (newNode c a key value).mp = c.mp := rfl
  have hcp : (newNode c a key value).cp = c.cp := rfl
  have hsize : (newNode c a key value).actSize = c.actSize := rfl
  rw [set_of_miss hmiss]
  generalize newNode c a key value = c₁ at *
  have hself : data c₁.nodes a = some ⟨key, value⟩ := by rw [hdata, update_self]
  cases as with
  | nil =>
    have hentries : entries = [] := length_eq_zero_iff.mp h.toListed.length_eq.symm
    subst hentries
    have htail : c₁.tail = null := hnew.tail
    have hlisted : Listed { c₁ with head := a, tail := a, actSize := c₁.actSize + 1 } null [a]
        [⟨key, value⟩] := by
      refine ⟨⟨hstart, hend, trivial⟩, nodup_singleton a, hnew.nullFree, ?_, rfl, rfl⟩
      exact congrArg (fun x => [x]) hself
    refine ⟨index { c₁ with head := a, tail := a, actSize := c₁.actSize + 1 } key a, null, ?_, hcp,
      h.indexed hmiss hfree hlisted hdata hmp hcp ?_ hroom not_mem_nil (.inl rfl)⟩
    · rw [insert, if_pos htail, map_some]
    · exact congrArg (· + 1) hsize
  | cons x xs =>
    obtain ⟨m, happend, hdataM, happended⟩ :=
      hnew.toListed.appended (cons_ne_nil x xs) hself hend hnotin
    have htail : c₁.tail ≠ null := by
      rw [hnew.tail]
      exact hnew.toListed.ne_null mem_cons_self
    have hlt : c₁.actSize < c₁.cp := by
      rw [hnew.size, hcp]
      exact hroom
    have hlisted : Listed { c₁ with nodes := m, head := a, actSize := c₁.actSize + 1 } before
        (x :: xs ++ [a]) (entries ++ [⟨key, value⟩]) :=
      ⟨happended.linked, happended.nodup, happended.nullFree, happended.contents,
        happended.head, happended.tail⟩
    refine ⟨index { c₁ with nodes := m, head := a, actSize := c₁.actSize + 1 } key a, before, ?_,
      hcp, h.indexed hmiss hfree hlisted (hdataM.trans hdata) hmp hcp ?_ hroom ?_ ?_⟩
    · rw [insert, if_neg htail, happend, bind_some, if_pos hlt, map_some]
    · exact congrArg (· + 1) hsize
    · -- The new node is not the one the first node points back to.
      rw [cons_append, tail_cons, mem_append, mem_singleton, not_or]
      refine ⟨h.apart, fun heq => ?_⟩
      rcases h.roomy hroom with hb | hb
      · exact hnull (heq.symm.trans hb)
      · rw [heq, hfree] at hb
        cases hb
    · change _ ∨ (data m before).isSome
      rw [hdataM]
      exact hnew.roomy (hcp ▸ hroom)

theorem Linked.set_evicts {b : Nat} {bs : List Nat} {f : Entry Int Int}
    (h : Linked c before (b :: bs) (f :: entries)) (hmiss : c.mp key = none)
    (hfree : data c.nodes a = none) (hnull : a ≠ null) (hfull : ¬ (b :: bs).length < c.cp)
    (value stale : Int) :
    ∃ c', set c key value a stale = some c' ∧ c'.cp = c.cp ∧ c'.actSize = c.actSize ∧
      c'.mp = update (update c.mp stale none) key (some a) ∧
      data c'.nodes =
        update (update (data c.nodes) a (some ⟨key, value⟩)) b none ∧
      Listed c' b (bs ++ [a]) (entries ++ [⟨key, value⟩]) := by
  have hnotin := h.toListed.notMem_of_free hfree
  have hnew := h.withNewNode hfree hnull key value
  obtain ⟨hdata, hend, -⟩ := views_newNode c a key value
  have hmp : (newNode c a key value).mp = c.mp := rfl
  have hcp : (newNode c a key value).cp = c.cp := rfl
  have hsize : (newNode c a key value).actSize = c.actSize := rfl
  rw [set_of_miss hmiss]
  generalize newNode c a key value = c₁ at *
  have hself : data c₁.nodes a = some ⟨key, value⟩ := by rw [hdata, update_self]
  obtain ⟨m, happend, hdataM, hlisted⟩ :=
    hnew.toListed.appended (cons_ne_nil b bs) hself hend hnotin
  have hmany : bs ++ [a] ≠ [] := append_ne_nil_of_right_ne_nil bs (cons_ne_nil a [])
  obtain ⟨m', hevict, hdataM', hlisted'⟩ := hlisted.evicted hmany stale
  have htail : c₁.tail ≠ null := by
    rw [hnew.tail]
    exact hnew.toListed.ne_null mem_cons_self
  have hge : ¬ c₁.actSize < c₁.cp := by
    rw [hnew.size, hcp]
    exact hfull
  refine ⟨index { c₁ with
      nodes := m', head := a, tail := (bs ++ [a]).headD null
      mp := update c₁.mp stale none } key a, ?_, hcp, hsize, ?_, ?_,
    ⟨hlisted'.linked, hlisted'.nodup, hlisted'.nullFree, hlisted'.contents, hlisted'.head,
      hlisted'.tail⟩⟩
  · rw [insert, if_neg htail, happend, bind_some, if_neg hge, hevict, map_some]
    rfl
  · exact congrArg (fun mp => update (update mp stale none) key (some a)) hmp
  · refine hdataM'.trans ?_
    change update (data m) b none = _
    rw [hdataM, hdata]

theorem Linked.set_full {b : Nat} {bs : List Nat} {f : Entry Int Int}
    (h : Linked c before (b :: bs) (f :: entries)) (hmiss : c.mp key = none)
    (hfree : data c.nodes a = none) (hnull : a ≠ null) (hfull : ¬ (b :: bs).length < c.cp)
    (value : Int) :
    ∃ c', set c key value a f.key = some c' ∧ c'.cp = c.cp ∧
      Linked c' b (bs ++ [a]) (entries ++ [⟨key, value⟩]) := by
  obtain ⟨c', hset, hcp, hsize, hmp, hdata, hlisted⟩ :=
    h.set_evicts hmiss hfree hnull hfull value f.key
  have hnotin := h.toListed.notMem_of_free hfree
  have hcontents : data c.nodes b = some f ∧ bs.map (data c.nodes) = entries.map some :=
    cons_eq_cons.mp h.contents
  obtain ⟨hb, -⟩ := nodup_cons.mp h.nodup
  have hlength : (bs ++ [a]).length = (b :: bs).length := by
    rw [length_append, length_singleton, length_cons]
  have hbkey : (data c.nodes b).map Entry.key = some f.key := by rw [hcontents.1, map_some]
  have hkey := h.key_notMem hmiss
  rw [map_cons, mem_cons, not_or] at hkey
  have hkeys := h.keys
  rw [map_cons, nodup_cons] at hkeys
  have hothers : ∀ d ∈ bs, (data c.nodes d).map Entry.key ≠ some f.key := by
    intro d hd hcontra
    have hmem : data c.nodes d ∈ entries.map some := hcontents.2 ▸ mem_map_of_mem hd
    obtain ⟨g, hg, hgd⟩ := mem_map.mp hmem
    rw [← hgd, map_some, some_inj] at hcontra
    exact hkeys.1 (hcontra ▸ mem_map_of_mem hg)
  refine ⟨c', hset, hcp, hlisted, ?_, ?_, ?_, ?_, ?_, ?_⟩
  · rw [hsize, h.size, hlength]
  · rw [hcp, hlength]
    exact h.bound
  · rw [map_append, nodup_append]
    refine ⟨hkeys.2, nodup_singleton _, fun k hk k' hk' => ?_⟩
    intro heq
    rw [heq, mem_singleton.mp hk'] at hk
    exact hkey.2 hk
  · rw [hmp, hdata]
    refine found_index (found_erase h.found hbkey hothers) (fun d hd => ?_) ?_
      (fun d hd hcontra => ?_)
    · have hda : d ≠ a := fun heq => hnotin (mem_cons_of_mem _ (heq ▸ hd))
      have hdb : d ≠ b := fun heq => hb (heq ▸ hd)
      rw [update_of_ne hdb, update_of_ne hda]
    · have hab : a ≠ b := fun heq => hnotin (heq ▸ mem_cons_self)
      rw [update_of_ne hab, update_self]
      rfl
    · have hfound := (h.found key d).mpr ⟨mem_cons_of_mem _ hd, hcontra⟩
      rw [hmiss] at hfound
      cases hfound
  · intro hmem
    rcases mem_append.mp (mem_of_mem_tail hmem) with hmem | hmem
    · exact hb hmem
    · exact hnotin (mem_singleton.mp hmem ▸ mem_cons_self)
  · intro hroom
    rw [hcp, hlength] at hroom
    exact absurd hroom hfull

end LinuxWorkouts.Lru
