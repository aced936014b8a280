import LinuxWorkouts.Lib.Transition
import LinuxWorkouts.Lru.Calls

/-!
The cache against what a least-recently-used cache is for.

A session makes calls on the cache and keeps the specification beside it: `uses` has every key that
was ever set with its latest value, in the order of the last use, and `expected` is what the `get`
calls should have returned. `cache_refines_iff` says that the session is `Correct` throughout
exactly if every call is `Safe`: a key that is there is neither at the head nor at the tail of a
list of several nodes, and a key that has to be evicted is what is read from the freed node.
-/

namespace LinuxWorkouts.Lru

open DoublyLinked NodeHeap Recency Transition List Option

/-- A call of `set`, with the address `new` returns and the key that is read behind `delete`, or of
`get`. -/
inductive Call where
  | set (key value : Int) (address : Nat) (stale : Int)
  | get (key : Int)
  deriving DecidableEq, Repr

structure Session where
  cache : LRUCache
  faulted : Bool
  replies : List Int
  uses : List (Entry Int Int)
  expected : List Int

def Session.new (cp : Nat) : Session where
  cache := LRUCache.new cp
  faulted := false
  replies := []
  uses := []
  expected := []

/-! ### The specification -/

/-- The entries a cache should hold: those of the keys used last. -/
def mostRecent (s : Session) : List (Entry Int Int) := s.uses.rtake s.cache.cp

def reply (s : Session) (key : Int) : Int := ((find (mostRecent s) key).map Entry.value).getD (-1)

def usesAfterGet (s : Session) (key : Int) : List (Entry Int Int) :=
  ((find (mostRecent s) key).map (touch s.uses)).getD s.uses

/-! ### Sessions -/

def afterSet (s : Session) (key value : Int) : Option LRUCache → Session
  | some c => { s with cache := c, uses := touch s.uses ⟨key, value⟩ }
  | none => { s with faulted := true }

def afterGet (s : Session) (key : Int) : Option (LRUCache × Int) → Session
  | some r =>
    { s with
      cache := r.1
      replies := s.replies ++ [r.2]
      uses := usesAfterGet s key
      expected := s.expected ++ [reply s key] }
  | none => { s with faulted := true }

/-- One call; `new` returns an address that is not in use. Behind a write to a freed node the
session says nothing more. -/
def step (s : Session) (call : Call) : Option Session :=
  if s.faulted then some s
  else
    match call with
    | .set key value address stale =>
      if address ≠ null ∧ (data s.cache.nodes address).isNone then
        some (afterSet s key value (set s.cache key value address stale))
      else none
    | .get key => some (afterGet s key (get s.cache key))

/-- The replies are the expected ones, and the list is in the order of the uses. -/
def Correct (s : Session) : Prop :=
  s.faulted = false ∧ s.replies = s.expected ∧
    InOrder s.cache ((mostRecent s).map Entry.key)

/-- A hit on a node that can be relinked, a miss with room, or a miss that reads the right key from
the node it has freed. -/
def Safe (s : Session) : Call → Prop
  | .set key value address stale =>
    (∀ node ∈ s.cache.mp key, Relinkable (newNode s.cache address key value) node) ∧
      (s.cache.mp key = none → s.cache.actSize < s.cache.cp ∨
        (data s.cache.nodes s.cache.tail).map Entry.key = some stale)
  | .get key => ∀ node ∈ s.cache.mp key, Relinkable s.cache node

instance (s : Session) (call : Call) : Decidable (Safe s call) := by
  cases call <;> unfold Safe <;> infer_instance

/-- The cache holds the most recent entries. -/
structure Refines (s : Session) : Prop where
  running : s.faulted = false
  answered : s.replies = s.expected
  capacity : 1 ≤ s.cache.cp
  nodup : (s.uses.map Entry.key).Nodup
  linked : ∃ before as, Linked s.cache before as (mostRecent s)

theorem refines_new {cp : Nat} (hcp : 1 ≤ cp) : Refines (Session.new cp) where
  running := rfl
  answered := rfl
  capacity := hcp
  nodup := nodup_nil
  linked := by
    have hempty : mostRecent (Session.new cp) = [] := rtake_nil _
    rw [hempty]
    exact ⟨null, [], linked_new cp⟩

theorem Refines.correct {s : Session} (h : Refines s) : Correct s := by
  obtain ⟨before, as, hlinked⟩ := h.linked
  exact ⟨h.running, h.answered, hlinked.inOrder⟩

section Calls

variable {s s' : Session} {key value stale : Int} {address : Nat}

section

variable (h : Refines s)
include h

theorem step_set (hstep : step s (.set key value address stale) = some s') :
    address ≠ null ∧ data s.cache.nodes address = none ∧
      s' = afterSet s key value (set s.cache key value address stale) := by
  rw [step, if_neg (by rw [h.running]; exact Bool.false_ne_true)] at hstep
  obtain ⟨⟨hnull, hfree⟩, hs'⟩ := ite_none_right_eq_some.mp hstep
  exact ⟨hnull, isNone_iff_eq_none.mp hfree, (Option.some.inj hs').symm⟩

theorem step_get (hstep : step s (.get key) = some s') : s' = afterGet s key (get s.cache key) := by
  rw [step, if_neg (by rw [h.running]; exact Bool.false_ne_true)] at hstep
  exact (Option.some.inj hstep).symm

theorem Refines.get_miss (hmiss : s.cache.mp key = none) :
    Refines (afterGet s key (get s.cache key)) := by
  obtain ⟨before, as, hlinked⟩ := h.linked
  have hfind : find (mostRecent s) key = none := find_eq_none_iff.mpr (hlinked.key_notMem hmiss)
  have hget : get s.cache key = some (s.cache, -1) := by simp only [get, hmiss]
  have huses : usesAfterGet s key = s.uses := by rw [usesAfterGet, hfind]; rfl
  have hreply : reply s key = -1 := by rw [reply, hfind]; rfl
  rw [hget, afterGet, huses, hreply]
  exact ⟨h.running, congrArg (· ++ [-1]) h.answered, h.capacity, h.nodup, before, as, hlinked⟩

theorem mostRecent_hit {left right : List (Entry Int Int)} {e e' : Entry Int Int}
    (hsplit : mostRecent s = left ++ e' :: right) (hkey : e.key = e'.key) {c : LRUCache}
    (hcp : c.cp = s.cache.cp) : (touch s.uses e).rtake c.cp = left ++ right ++ [e] := by
  rw [hcp]
  exact rtake_touch_hit h.nodup hsplit hkey

theorem Refines.get_hit {a : Nat} (hmp : s.cache.mp key = some a) (hrel : Relinkable s.cache a) :
    Refines (afterGet s key (get s.cache key)) := by
  obtain ⟨before, as, hlinked⟩ := h.linked
  obtain ⟨xs, ys, left, e, right, rfl, hsplit, hkey, hxs, ha, hys⟩ := hlinked.hit hmp
  have hkeys := hlinked.keys
  rw [hsplit] at hlinked hkeys
  have hfind : find (mostRecent s) key = some e := by
    rw [hsplit, ← hkey]
    exact find_split hkeys
  obtain ⟨c, before', hget, hcp, hlinked'⟩ := hlinked.get_hit hmp hxs ha hys hrel
  have huses : usesAfterGet s key = touch s.uses e := by rw [usesAfterGet, hfind]; rfl
  have hreply : reply s key = e.value := by rw [reply, hfind]; rfl
  rw [hget, afterGet, huses, hreply]
  refine ⟨h.running, congrArg (· ++ [e.value]) h.answered, ?_, nodup_touch h.nodup e, before',
    xs ++ ys ++ [a], ?_⟩
  · exact h.capacity.trans_eq hcp.symm
  · change Linked c before' _ ((touch s.uses e).rtake c.cp)
    rw [mostRecent_hit h hsplit rfl hcp]
    exact hlinked'

theorem Refines.set_hit {a : Nat} (hmp : s.cache.mp key = some a) (hnull : address ≠ null)
    (hfree : data s.cache.nodes address = none)
    (hrel : Relinkable (newNode s.cache address key value) a) :
    Refines (afterSet s key value (set s.cache key value address stale)) := by
  obtain ⟨before, as, hlinked⟩ := h.linked
  obtain ⟨xs, ys, left, e, right, rfl, hsplit, hkey, hxs, ha, hys⟩ := hlinked.hit hmp
  rw [hsplit] at hlinked
  obtain ⟨c, before', hset, hcp, hlinked'⟩ :=
    hlinked.set_hit hmp hkey hxs ha hys hfree hnull hrel stale
  rw [hset, afterSet]
  refine ⟨h.running, h.answered, ?_, nodup_touch h.nodup _, before', xs ++ ys ++ [a], ?_⟩
  · exact h.capacity.trans_eq hcp.symm
  · change Linked c before' _ ((touch s.uses ⟨key, value⟩).rtake c.cp)
    rw [mostRecent_hit h hsplit hkey.symm hcp]
    exact hlinked'

theorem mostRecent_miss {before : Nat} {as : List Nat}
    (hlinked : Linked s.cache before as (mostRecent s)) (hmiss : s.cache.mp key = none)
    {c : LRUCache} (hcp : c.cp = s.cache.cp) (value : Int) :
    (touch s.uses ⟨key, value⟩).rtake c.cp =
      (if as.length < s.cache.cp then mostRecent s else (mostRecent s).tail) ++ [⟨key, value⟩] := by
  rw [hcp, hlinked.toListed.length_eq]
  exact rtake_touch_miss h.capacity (hlinked.key_notMem hmiss)

theorem Refines.set_miss (hmiss : s.cache.mp key = none) (hnull : address ≠ null)
    (hfree : data s.cache.nodes address = none) (hread : s.cache.actSize < s.cache.cp ∨
      (data s.cache.nodes s.cache.tail).map Entry.key = some stale) :
    Refines (afterSet s key value (set s.cache key value address stale)) := by
  obtain ⟨before, as, hlinked⟩ := h.linked
  have hrecent := fun (c : LRUCache) (hcp : c.cp = s.cache.cp) =>
    mostRecent_miss h hlinked hmiss hcp value
  by_cases hroom : as.length < s.cache.cp
  · obtain ⟨c, before', hset, hcp, hlinked'⟩ := hlinked.set_room hmiss hfree hnull hroom value stale
    rw [hset, afterSet]
    refine ⟨h.running, h.answered, h.capacity.trans_eq hcp.symm, nodup_touch h.nodup _, before',
      as ++ [address], ?_⟩
    change Linked c before' _ ((touch s.uses ⟨key, value⟩).rtake c.cp)
    rw [hrecent c hcp, if_pos hroom]
    exact hlinked'
  · have hstale := hread.resolve_left (hlinked.size ▸ hroom)
    rw [hlinked.tail] at hstale
    have hlength := hlinked.toListed.length_eq
    cases as with
    | nil => exact absurd (Nat.lt_of_lt_of_le Nat.zero_lt_one h.capacity) hroom
    | cons b bs =>
      obtain ⟨f, entries, hentries⟩ : ∃ f entries, mostRecent s = f :: entries :=
        exists_cons_of_length_eq_add_one hlength.symm
      rw [hentries] at hlinked
      have hf : data s.cache.nodes b = some f := (cons_eq_cons.mp hlinked.contents).1
      have hkey : f.key = stale := by
        rw [headD_cons, hf] at hstale
        exact Option.some.inj hstale
      obtain ⟨c, hset, hcp, hlinked'⟩ := hlinked.set_full hmiss hfree hnull hroom value
      rw [← hkey, hset, afterSet]
      refine ⟨h.running, h.answered, h.capacity.trans_eq hcp.symm, nodup_touch h.nodup _, b,
        bs ++ [address], ?_⟩
      change Linked c b _ ((touch s.uses ⟨key, value⟩).rtake c.cp)
      rw [hrecent c hcp, if_neg hroom, hentries]
      exact hlinked'

theorem Refines.step {call : Call} (hsafe : Safe s call) (hstep : step s call = some s') :
    Refines s' := by
  cases call with
  | set key value address stale =>
    obtain ⟨hnull, hfree, rfl⟩ := step_set h hstep
    cases hmp : s.cache.mp key with
    | none => exact h.set_miss hmp hnull hfree (hsafe.2 hmp)
    | some a => exact h.set_hit hmp hnull hfree (hsafe.1 a hmp)
  | get key =>
    obtain rfl := step_get h hstep
    cases hmp : s.cache.mp key with
    | none => exact h.get_miss hmp
    | some a => exact h.get_hit hmp (hsafe a hmp)

end

/-! ### Calls that are not safe -/

theorem not_correct_of_length {bs : List Nat}
    (hchain : Chain (next s.cache.nodes) null s.cache.tail bs)
    (hnull : null ∉ bs) (hlength : bs.length ≠ (mostRecent s).length) : ¬ Correct s := by
  rintro ⟨-, -, horder⟩
  refine not_inOrder_of_length hchain hnull ?_ horder
  rwa [length_map]

theorem not_correct_of_faulted (h : s.faulted = true) : ¬ Correct s := by
  rintro ⟨hrunning, -, -⟩
  rw [h] at hrunning
  cases hrunning

theorem Refines.get_breaks {a : Nat} (h : Refines s) (hmp : s.cache.mp key = some a)
    (hrel : ¬ Relinkable s.cache a) : ¬ Correct (afterGet s key (get s.cache key)) := by
  obtain ⟨before, as, hlinked⟩ := h.linked
  obtain ⟨xs, ys, left, e, right, rfl, hsplit, hkey, -, -, -⟩ := hlinked.hit hmp
  have hget : get s.cache key = (moveToHead s.cache a).bind fun c₁ =>
      (data c₁.nodes a).map fun e => (c₁, e.value) := by simp only [get, hmp]
  cases hresult : get s.cache key with
  | none => exact not_correct_of_faulted rfl
  | some r =>
    rw [hget] at hresult
    obtain ⟨c, hmove, hread⟩ := bind_eq_some_iff.mp hresult
    obtain ⟨e', -, rfl⟩ := map_eq_some_iff.mp hread
    obtain ⟨bs, hchain, hnull, hlength⟩ := hlinked.moveToHead_breaks hrel hmove
    obtain ⟨-, -, -, hcp⟩ := moveToHead_eq_some hmove
    have hkeys := hlinked.keys
    rw [hsplit] at hkeys
    have hfind : find (mostRecent s) key = some e := by
      rw [hsplit, ← hkey]
      exact find_split hkeys
    have huses : usesAfterGet s key = touch s.uses e := by rw [usesAfterGet, hfind]; rfl
    rw [afterGet, huses]
    refine not_correct_of_length hchain hnull ?_
    change bs.length ≠ ((touch s.uses e).rtake c.cp).length
    rw [mostRecent_hit h hsplit rfl hcp]
    rw [hsplit] at hlength
    simpa using hlength

theorem Refines.set_breaks {a : Nat} (h : Refines s) (hmp : s.cache.mp key = some a)
    (hnull : address ≠ null) (hfree : data s.cache.nodes address = none)
    (hrel : ¬ Relinkable (newNode s.cache address key value) a) :
    ¬ Correct (afterSet s key value (set s.cache key value address stale)) := by
  obtain ⟨before, as, hlinked⟩ := h.linked
  obtain ⟨xs, ys, left, e, right, rfl, hsplit, hkey, -, -, -⟩ := hlinked.hit hmp
  have hset : set s.cache key value address stale =
      (moveToHead (newNode s.cache address key value) a).bind fun c₁ => setValue c₁ a value := by
    simp only [set, hmp]
  cases hresult : set s.cache key value address stale with
  | none => exact not_correct_of_faulted rfl
  | some c' =>
    rw [hset] at hresult
    obtain ⟨c, hmove, hvalue⟩ := bind_eq_some_iff.mp hresult
    obtain ⟨e', -, hvalue⟩ := bind_eq_some_iff.mp hvalue
    obtain ⟨m, hm, rfl⟩ := map_eq_some_iff.mp hvalue
    have hnew := hlinked.withNewNode hfree hnull key value
    obtain ⟨bs, hchain, hnull', hlength⟩ := hnew.moveToHead_breaks hrel hmove
    obtain ⟨-, -, -, hcp⟩ := moveToHead_eq_some hmove
    rw [← (views_setData hm).1] at hchain
    refine not_correct_of_length hchain hnull' ?_
    change bs.length ≠ ((touch s.uses ⟨key, value⟩).rtake c.cp).length
    rw [mostRecent_hit h hsplit hkey.symm hcp]
    rw [hsplit] at hlength
    simpa using hlength

theorem Refines.set_misreads (h : Refines s) (hmiss : s.cache.mp key = none)
    (hnull : address ≠ null) (hfree : data s.cache.nodes address = none)
    (hfull : ¬ s.cache.actSize < s.cache.cp)
    (hread : (data s.cache.nodes s.cache.tail).map Entry.key ≠ some stale) :
    ¬ Correct (afterSet s key value (set s.cache key value address stale)) := by
  obtain ⟨before, as, hlinked⟩ := h.linked
  have hrecent := fun (c : LRUCache) (hcp : c.cp = s.cache.cp) =>
    mostRecent_miss h hlinked hmiss hcp value
  rw [hlinked.size] at hfull
  rw [hlinked.tail] at hread
  have hlength := hlinked.toListed.length_eq
  have hkey := hlinked.key_notMem hmiss
  have hkeys := hlinked.keys
  cases as with
  | nil => exact absurd (Nat.lt_of_lt_of_le Nat.zero_lt_one h.capacity) hfull
  | cons b bs =>
    obtain ⟨f, entries, hentries⟩ : ∃ f entries, mostRecent s = f :: entries :=
      exists_cons_of_length_eq_add_one hlength.symm
    rw [hentries] at hlinked hkey hkeys
    rw [map_cons, mem_cons, not_or] at hkey
    rw [map_cons, nodup_cons] at hkeys
    have hf : data s.cache.nodes b = some f := (cons_eq_cons.mp hlinked.contents).1
    have hstale : f.key ≠ stale := by
      rw [headD_cons, hf] at hread
      exact fun heq => hread (congrArg some heq)
    obtain ⟨c, hset, hcp, -, hmp, -, -⟩ := hlinked.set_evicts hmiss hfree hnull hfull value stale
    rw [hset, afterSet]
    rintro ⟨-, -, -, -, -, -, -, -, hindex⟩
    -- The evicted key is still in the map.
    have hleft : (c.mp f.key).isSome := by
      rw [hmp, Function.update_of_ne (Ne.symm hkey.1), Function.update_of_ne hstale,
        hlinked.isSome_mp]
      exact mem_cons_self
    have hmem := (hindex f.key).mp hleft
    change f.key ∈ ((touch s.uses ⟨key, value⟩).rtake c.cp).map Entry.key at hmem
    rw [hrecent c hcp, if_neg hfull, hentries, tail_cons, map_append, mem_append] at hmem
    rcases hmem with hmem | hmem
    · exact hkeys.1 hmem
    · exact hkey.1 (mem_singleton.mp hmem).symm

theorem Refines.step_breaks {call : Call} (h : Refines s) (hstep : Lru.step s call = some s')
    (hsafe : ¬ Safe s call) : ¬ Correct s' := by
  cases call with
  | set key value address stale =>
    obtain ⟨hnull, hfree, rfl⟩ := step_set h hstep
    cases hmp : s.cache.mp key with
    | none =>
      have hread : ¬ (s.cache.actSize < s.cache.cp ∨
          (data s.cache.nodes s.cache.tail).map Entry.key = some stale) := by
        intro hread
        refine hsafe ⟨fun node hnode => ?_, fun _ => hread⟩
        rw [hmp] at hnode
        cases hnode
      obtain ⟨hfull, hstale⟩ := not_or.mp hread
      exact h.set_misreads hmp hnull hfree hfull hstale
    | some a =>
      refine h.set_breaks hmp hnull hfree fun hrel => hsafe ⟨fun node hnode => ?_, fun hnone => ?_⟩
      · rw [hmp] at hnode
        exact Option.some.inj hnode ▸ hrel
      · rw [hmp] at hnone
        cases hnone
  | get key =>
    obtain rfl := step_get h hstep
    cases hmp : s.cache.mp key with
    | none =>
      refine absurd (fun node hnode => ?_) hsafe
      rw [hmp] at hnode
      cases hnode
    | some a =>
      refine h.get_breaks hmp fun hrel => hsafe fun node hnode => ?_
      rw [hmp] at hnode
      exact Option.some.inj hnode ▸ hrel

end Calls

/-! ### Sessions from an empty cache -/

/-- **The cache refines its specification exactly in sessions of safe calls.** -/
theorem cache_refines_iff (cp : Nat) (hcp : 1 ≤ cp) (calls : List Call)
    (hrun : (run step (Session.new cp) calls).isSome) :
    Always step Correct (Session.new cp) calls ↔ Along step Safe (Session.new cp) calls := by
  obtain ⟨s, hs⟩ := isSome_iff_exists.mp hrun
  constructor
  · intro h
    refine along_of_always_of_run (I := Refines) ?_ ?_ (refines_new hcp) hs h
    · exact fun _ _ _ hrefines hsafe hstep => hrefines.step hsafe hstep
    · exact fun _ _ _ hrefines hstep hsafe => hrefines.step_breaks hstep hsafe
  · intro h
    refine always_of_along (I := Refines) (fun _ hrefines => hrefines.correct) ?_
      (refines_new hcp) h
    exact fun _ _ _ _ hrefines hsafe hstep => hrefines.step hsafe hstep

/-- Keys 1, 2 and 3 fill the cache, 2 is read in the middle of the list, and 4 evicts 1. -/
theorem cache_refines_evicting :
    Always step Correct (Session.new 3)
      [.set 1 10 1 0, .set 2 20 2 0, .set 3 30 3 0, .get 2, .set 4 40 4 1, .get 1] :=
  (cache_refines_iff 3 (by decide) _ (by decide)).mpr (by decide)

/-- Key 1 is at the tail of the list when it is read, and stays there: it is evicted next, although
2 was used less recently. The key is read correctly from the freed node. -/
theorem cache_evicts_most_recent :
    (run step (Session.new 2)
        [.set 1 10 1 0, .set 2 20 2 0, .get 1, .set 3 30 3 1, .get 1]).map
      (fun s => (s.faulted, s.replies, s.expected)) = some (false, [10, -1], [10, 10]) ∧
    ¬ Always step Correct (Session.new 2)
      [.set 1 10 1 0, .set 2 20 2 0, .get 1, .set 3 30 3 1, .get 1] := by
  have hrun : (run step (Session.new 2)
      [.set 1 10 1 0, .set 2 20 2 0, .get 1, .set 3 30 3 1, .get 1]).map
        (fun s => (s.faulted, s.replies, s.expected)) = some (false, [10, -1], [10, 10]) := by
    decide
  refine ⟨hrun, fun h => ?_⟩
  obtain ⟨s, hs, heq⟩ := map_eq_some_iff.mp hrun
  obtain ⟨-, hreplies, -⟩ := h.run hs
  simp only [Prod.mk.injEq] at heq
  rw [heq.2.1, heq.2.2] at hreplies
  exact absurd hreplies (by decide)

end LinuxWorkouts.Lru
