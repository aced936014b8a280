import LinuxWorkouts.Lib.Owners
import LinuxWorkouts.SharedPtr.Handles

/-!
Ownership by reference counting.

The invariant is that every counter is the number of the live handles that refer to it, and that
the handles of one counter are the handles of one object. `dropReference` is proved once to leave
the invariant true of the memory without its handle; `reset` and `operator=` are that, followed by
what the constructors do.
-/

namespace LinuxWorkouts.SharedPtr

open Owners Transition Function Option List

def counterOwners (s : Program) (counter : Address) : Set Address :=
  owners s.handles Handle.objCounter counter

def objectOwners (s : Program) (ptr : Address) : Set Address := owners s.handles Handle.ptr ptr

/-- The counts are right, nothing undefined has happened, and the objects that are still there are
those that a live handle refers to. -/
structure Accurate (s : Program) : Prop where
  noFault : s.fault = none
  counted : ∀ c n, s.counters c = some n → n = (counterOwners s c).ncard ∧ 0 < n
  allocated : ∀ a h, s.handles a = some h → (s.counters h.objCounter).isSome
  owned : ∀ p, p ≠ null → (s.objects p = .owned ↔ (objectOwners s p).Nonempty)

/-- The handles of a counter are the handles of one object, and there is none at the null
address. -/
structure Consistent (handles : Address → Option Handle) : Prop where
  nullFree : handles null = none
  sameObject : ∀ a b h k, handles a = some h → handles b = some k →
    h.objCounter = k.objCounter → h.ptr = k.ptr
  sameCounter : ∀ a b h k, handles a = some h → handles b = some k →
    h.ptr = k.ptr → h.ptr ≠ null → h.objCounter = k.objCounter

/-- The invariant. -/
structure Owned (s : Program) : Prop extends Accurate s where
  consistent : Consistent s.handles

variable {n : Nat} {handles : Address → Option Handle} {b : Address} {k : Handle}

section Counting

variable {s : Program} {a c : Address} {h : Handle}

theorem ncard_owners_lt (hnull : s.handles null = none) (c : Address) :
    (counterOwners s c).ncard < 2 ^ 64 := by
  have hne : counterOwners s c ≠ Set.univ := by
    intro huniv
    have hmem : null ∈ counterOwners s c := huniv ▸ Set.mem_univ null
    obtain ⟨h, hh, -⟩ := hmem
    rw [hnull] at hh
    cases hh
  have hlt := Set.ncard_lt_card hne
  rwa [Nat.card_eq_fintype_card, Fintype.card_fin] at hlt

theorem sizeT_pred (hpos : 0 < n) (hlt : n < 2 ^ 64) : sizeT (n + (2 ^ 64 - 1)) = n - 1 := by
  rw [sizeT]
  omega

theorem sizeT_of_lt (hlt : n < 2 ^ 64) : sizeT n = n := Nat.mod_eq_of_lt hlt

theorem Owned.counter (hs : Owned s) (ha : s.handles a = some h) :
    ∃ n, s.counters h.objCounter = some (n + 1) ∧
      (counterOwners s h.objCounter).ncard = n + 1 ∧ n + 1 < 2 ^ 64 := by
  obtain ⟨m, hm⟩ := isSome_iff_exists.mp (hs.allocated a h ha)
  obtain ⟨hcount, hpos⟩ := hs.counted _ m hm
  obtain ⟨n, rfl⟩ := Nat.exists_eq_succ_of_ne_zero hpos.ne'
  exact ⟨n, hm, hcount.symm, lt_of_eq_of_lt hcount (ncard_owners_lt hs.consistent.nullFree _)⟩

end Counting

/-! ### Giving up a handle -/

section Drop

variable {s s' : Program} {a : Address} {h : Handle}

def deletedObjects (s : Program) (ptr : Address) : Address → Ownership :=
  if ptr = null then s.objects else update s.objects ptr .deleted

theorem dropReference_eq (hs : Owned s) (ha : s.handles a = some h) :
    ((counterOwners s h.objCounter).ncard = 1 ∧
      dropReference s h = .ok { s with
        counters := update s.counters h.objCounter none
        objects := deletedObjects s h.ptr }) ∨
    ∃ n, 0 < n ∧ (counterOwners s h.objCounter).ncard = n + 1 ∧
      dropReference s h = .ok { s with
        counters := update s.counters h.objCounter (some n) } := by
  obtain ⟨n, hcounter, hcount, hlt⟩ := hs.counter ha
  have hdec : cntDecrement s h.objCounter = .ok (writeCounter s h.objCounter n) := by
    rw [cntDecrement, readCounter, hcounter]
    have hpos : 0 < n + 1 := Nat.succ_pos n
    change Except.ok (writeCounter s h.objCounter (sizeT (n + 1 + (2 ^ 64 - 1)))) = _
    rw [sizeT_pred hpos hlt, Nat.add_sub_cancel]
  have hread : readCounter (writeCounter s h.objCounter n) h.objCounter = .ok n := by
    simp [readCounter, writeCounter]
  have hdrop : dropReference s h =
      if n = 0 then
        (deleteObject (writeCounter s h.objCounter n) h.ptr).bind fun s =>
          deleteCounter s h.objCounter
      else .ok (writeCounter s h.objCounter n) := by
    rw [dropReference, hdec, Except.bind, hread, Except.bind]
  rcases Nat.eq_zero_or_pos n with rfl | hpos
  · refine .inl ⟨hcount, ?_⟩
    rw [hdrop, if_pos rfl]
    by_cases hnull : h.ptr = null
    · rw [deleteObject, if_pos hnull, deletedObjects, if_pos hnull]
      simp [Except.bind, deleteCounter, writeCounter]
    · -- The object is still there, because the handle refers to it.
      have hobj : s.objects h.ptr = .owned := (hs.owned h.ptr hnull).mpr ⟨a, mem_owners_of_eq ha⟩
      have hdel : (writeCounter s h.objCounter 0).objects h.ptr ≠ .deleted := by
        change s.objects h.ptr ≠ .deleted
        rw [hobj]
        decide
      rw [deleteObject, if_neg hnull, if_neg hdel, deletedObjects, if_neg hnull]
      simp [Except.bind, deleteCounter, writeCounter]
  · refine .inr ⟨n, hpos, hcount, ?_⟩
    rw [hdrop, if_neg hpos.ne']
    rfl

theorem handles_of_clear (hb : update handles a none b = some k) : b ≠ a ∧ handles b = some k := by
  by_cases hba : b = a
  · subst hba
    rw [update_self] at hb
    cases hb
  · rw [update_of_ne hba] at hb
    exact ⟨hba, hb⟩

theorem Consistent.clear (hc : Consistent handles) (a : Address) :
    Consistent (update handles a none) := by
  refine ⟨?_, ?_, ?_⟩
  · by_cases hnull : null = a
    · rw [← hnull, update_self]
    · rw [update_of_ne hnull, hc.nullFree]
  · intro b c k l hb hc'
    exact hc.sameObject b c k l (handles_of_clear hb).2 (handles_of_clear hc').2
  · intro b c k l hb hc'
    exact hc.sameCounter b c k l (handles_of_clear hb).2 (handles_of_clear hc').2

theorem owners_ptr_clear {p : Address} (ha : s.handles a = some h) (hp : h.ptr ≠ p) :
    owners (update s.handles a none) Handle.ptr p = objectOwners s p := by
  rw [owners_clear, objectOwners, Set.sdiff_singleton_eq_self]
  rintro ⟨k, hk, hkp⟩
  rw [ha] at hk
  cases hk
  exact hp hkp

theorem Owned.remove_shared (hs : Owned s) (ha : s.handles a = some h) (hpos : 0 < n)
    (hcount : (counterOwners s h.objCounter).ncard = n + 1) :
    Owned (removeHandle
      { s with counters := update s.counters h.objCounter (some n) } a) := by
  refine ⟨⟨hs.noFault, ?_, ?_, ?_⟩, hs.consistent.clear a⟩
  · intro c m hm
    change update s.counters h.objCounter (some n) c = some m at hm
    change m = (owners (update s.handles a none) Handle.objCounter c).ncard ∧ 0 < m
    by_cases hc : c = h.objCounter
    · subst hc
      rw [update_self] at hm
      cases hm
      have hclear : (owners (update s.handles a none) Handle.objCounter
          h.objCounter).ncard + 1 = (counterOwners s h.objCounter).ncard := ncard_clear_self ha rfl
      exact ⟨by omega, hpos⟩
    · rw [update_of_ne hc] at hm
      rw [ncard_clear_other ha (Ne.symm hc)]
      exact hs.counted c m hm
  · intro b k hb
    obtain ⟨-, hb⟩ := handles_of_clear hb
    change (update s.counters h.objCounter (some n) k.objCounter).isSome
    by_cases hc : k.objCounter = h.objCounter
    · rw [hc, update_self]
      rfl
    · rw [update_of_ne hc]
      exact hs.allocated b k hb
  · intro p hp
    change s.objects p = .owned ↔ (owners (update s.handles a none) Handle.ptr p).Nonempty
    rw [hs.owned p hp]
    by_cases hptr : h.ptr = p
    · -- Another handle of the same counter refers to the same object.
      obtain ⟨b, hb, hba⟩ : ∃ b ∈ counterOwners s h.objCounter, b ≠ a :=
        Set.exists_ne_of_one_lt_ncard (by omega) a
      obtain ⟨k, hk, hkc⟩ := hb
      have hkp : k.ptr = p := (hs.consistent.sameObject b a k h hk ha hkc).trans hptr
      constructor
      · intro _
        exact ⟨b, k, by rw [update_of_ne hba, hk], hkp⟩
      · intro _
        exact ⟨b, k, hk, hkp⟩
    · rw [owners_ptr_clear ha hptr]

theorem Owned.remove_last (hs : Owned s) (ha : s.handles a = some h)
    (hcount : (counterOwners s h.objCounter).ncard = 1) :
    Owned (removeHandle
      { s with
        counters := update s.counters h.objCounter none
        objects := deletedObjects s h.ptr } a) := by
  -- Nobody else refers to the counter.
  have hother : ∀ b k, b ≠ a → s.handles b = some k → k.objCounter ≠ h.objCounter := by
    intro b k hba hb hc
    exact hba (eq_of_ncard_eq_one hcount ⟨k, hb, hc⟩ ⟨h, ha, rfl⟩)
  refine ⟨⟨hs.noFault, ?_, ?_, ?_⟩, hs.consistent.clear a⟩
  · intro c m hm
    change update s.counters h.objCounter none c = some m at hm
    change m = (owners (update s.handles a none) Handle.objCounter c).ncard ∧ 0 < m
    by_cases hc : c = h.objCounter
    · subst hc
      rw [update_self] at hm
      cases hm
    · rw [update_of_ne hc] at hm
      rw [ncard_clear_other ha (Ne.symm hc)]
      exact hs.counted c m hm
  · intro b k hb
    obtain ⟨hba, hb⟩ := handles_of_clear hb
    change (update s.counters h.objCounter none k.objCounter).isSome
    rw [update_of_ne (hother b k hba hb)]
    exact hs.allocated b k hb
  · intro p hp
    change deletedObjects s h.ptr p = .owned ↔
      (owners (update s.handles a none) Handle.ptr p).Nonempty
    by_cases hptr : h.ptr = p
    · have hnull : h.ptr ≠ null := hptr ▸ hp
      rw [deletedObjects, if_neg hnull, ← hptr, update_self]
      constructor
      · intro howned
        cases howned
      · rintro ⟨b, k, hb, hkp⟩
        obtain ⟨hba, hb⟩ := handles_of_clear hb
        have hc := hs.consistent.sameCounter a b h k ha hb hkp.symm hnull
        exact absurd hc.symm (hother b k hba hb)
    · rw [owners_ptr_clear ha hptr, ← hs.owned p hp, deletedObjects]
      split
      · rfl
      · rw [update_of_ne (Ne.symm hptr)]

theorem Owned.dropReference (hs : Owned s) (ha : s.handles a = some h) :
    ∃ s₁, dropReference s h = .ok s₁ ∧ s₁.handles = s.handles ∧ Owned (removeHandle s₁ a) ∧
      ∀ p, s₁.objects p = s.objects p ∨ (s.objects p = .owned ∧ s₁.objects p = .deleted) := by
  obtain ⟨hcount, heq⟩ | ⟨n, hpos, hcount, heq⟩ := dropReference_eq hs ha
  · refine ⟨_, heq, rfl, hs.remove_last ha hcount, fun p => ?_⟩
    change deletedObjects s h.ptr p = s.objects p ∨ (_ ∧ deletedObjects s h.ptr p = .deleted)
    unfold deletedObjects
    split
    · exact .inl rfl
    · next hnull =>
        by_cases hp : p = h.ptr
        · subst hp
          exact .inr ⟨(hs.owned _ hnull).mpr ⟨a, mem_owners_of_eq ha⟩, update_self ..⟩
        · exact .inl (update_of_ne hp ..)
  · exact ⟨_, heq, rfl, hs.remove_shared ha hpos hcount, fun p => .inl rfl⟩

end Drop

/-! ### Taking up a handle -/

section Fill

variable {s : Program} {a : Address} {h : Handle}

theorem handles_of_fill (hb : update handles a (some h) b = some k) :
    (b = a ∧ k = h) ∨ (b ≠ a ∧ handles b = some k) := by
  by_cases hba : b = a
  · subst hba
    rw [update_self] at hb
    cases hb
    exact .inl ⟨rfl, rfl⟩
  · rw [update_of_ne hba] at hb
    exact .inr ⟨hba, hb⟩

theorem Consistent.fill (hc : Consistent handles) (hnull : a ≠ null)
    (hobject : ∀ b k, handles b = some k → k.objCounter = h.objCounter → k.ptr = h.ptr)
    (hcounter : ∀ b k, handles b = some k → k.ptr = h.ptr → h.ptr ≠ null →
      k.objCounter = h.objCounter) :
    Consistent (update handles a (some h)) := by
  refine ⟨?_, ?_, ?_⟩
  · rw [update_of_ne (Ne.symm hnull), hc.nullFree]
  · intro b c k l hb hcl hkl
    rcases handles_of_fill hb with ⟨-, rfl⟩ | ⟨-, hbk⟩
    · rcases handles_of_fill hcl with ⟨-, rfl⟩ | ⟨-, hcl'⟩
      · rfl
      · exact (hobject c l hcl' hkl.symm).symm
    · rcases handles_of_fill hcl with ⟨-, rfl⟩ | ⟨-, hcl'⟩
      · exact hobject b k hbk hkl
      · exact hc.sameObject b c k l hbk hcl' hkl
  · intro b c k l hb hcl hkl hk
    rcases handles_of_fill hb with ⟨-, rfl⟩ | ⟨-, hbk⟩
    · rcases handles_of_fill hcl with ⟨-, rfl⟩ | ⟨-, hcl'⟩
      · rfl
      · exact (hcounter c l hcl' hkl.symm hk).symm
    · rcases handles_of_fill hcl with ⟨-, rfl⟩ | ⟨-, hcl'⟩
      · exact hcounter b k hbk hkl (hkl ▸ hk)
      · exact hc.sameCounter b c k l hbk hcl' hkl hk

theorem Owned.fill {objects : Address → Ownership} (hs : Owned s) (hfree : s.handles a = none)
    (hconsistent : Consistent (update s.handles a (some h)))
    (hobjects : ∀ p, p ≠ null → (objects p = .owned ↔ h.ptr = p ∨ s.objects p = .owned)) :
    Owned { s with
      handles := update s.handles a (some h)
      counters := update s.counters h.objCounter
        (some ((counterOwners s h.objCounter).ncard + 1))
      objects := objects } := by
  refine ⟨⟨hs.noFault, ?_, ?_, ?_⟩, hconsistent⟩
  · intro c m hm
    change update s.counters h.objCounter _ c = some m at hm
    change m = (owners (update s.handles a (some h)) Handle.objCounter c).ncard ∧ 0 < m
    by_cases hc : c = h.objCounter
    · subst hc
      rw [update_self] at hm
      cases hm
      exact ⟨(ncard_fill_self hfree rfl).symm, Nat.succ_pos _⟩
    · rw [update_of_ne hc] at hm
      rw [owners_fill_other hfree (Ne.symm hc)]
      exact hs.counted c m hm
  · intro b k hb
    change (update s.counters h.objCounter _ k.objCounter).isSome
    by_cases hc : k.objCounter = h.objCounter
    · rw [hc, update_self]
      rfl
    · rw [update_of_ne hc]
      rcases handles_of_fill hb with ⟨-, rfl⟩ | ⟨-, hb⟩
      · exact absurd rfl hc
      · exact hs.allocated b k hb
  · intro p hp
    change objects p = .owned ↔ (owners (update s.handles a (some h)) Handle.ptr p).Nonempty
    rw [hobjects p hp]
    by_cases hptr : h.ptr = p
    · rw [owners_fill_self hfree hptr]
      exact iff_of_true (.inl hptr) (Set.insert_nonempty ..)
    · rw [owners_fill_other hfree hptr]
      exact (or_iff_right hptr).trans (hs.owned p hp)

theorem Owned.adopt {ptr counter : Address} (hs : Owned s) (hfree : s.handles a = none)
    (hnull : a ≠ null) (hcounter : freeCounter s counter = true)
    (hobject : ptr ≠ null → s.objects ptr = .unowned) : Owned (adopt s a ptr counter) := by
  have hnone : s.counters counter = none := by
    simp only [freeCounter, Bool.and_eq_true, decide_eq_true_eq] at hcounter
    exact hcounter.2
  have hunused : ∀ b k, s.handles b = some k → k.objCounter ≠ counter := by
    intro b k hb hk
    have hsome := hs.allocated b k hb
    rw [hk, hnone] at hsome
    cases hsome
  have hunowned : ∀ b k, s.handles b = some k → ptr ≠ null → k.ptr ≠ ptr := by
    intro b k hb hptr hk
    have howned := (hs.owned ptr hptr).mpr ⟨b, k, hb, hk⟩
    rw [hobject hptr] at howned
    cases howned
  have hconsistent : Consistent (update s.handles a (some ⟨ptr, counter⟩)) := by
    refine hs.consistent.fill hnull ?_ ?_
    · exact fun b k hb hk => absurd hk (hunused b k hb)
    · exact fun b k hb hk hptr => absurd hk (hunowned b k hb hptr)
  have hobjects : ∀ p, p ≠ null →
      ((if ptr = null then s.objects else update s.objects ptr .owned) p = .owned ↔
        ptr = p ∨ s.objects p = .owned) := by
    intro p hp
    by_cases hptr : ptr = p
    · subst hptr
      rw [if_neg hp, update_self]
      exact iff_of_true rfl (.inl rfl)
    · rw [or_iff_right hptr]
      split
      · rfl
      · rw [update_of_ne (Ne.symm hptr)]
  have hempty : counterOwners s counter = ∅ := by
    rw [Set.eq_empty_iff_forall_notMem]
    rintro b ⟨k, hb, hk⟩
    exact hunused b k hb hk
  have hfill := hs.fill hfree hconsistent hobjects
  rw [hempty, Set.ncard_empty] at hfill
  exact hfill

theorem Owned.share {other : Address} (hs : Owned s) (hfree : s.handles a = none) (hnull : a ≠ null)
    (hother : s.handles other = some h) :
    ∃ s', share s a h = .ok s' ∧ Owned s' ∧ s'.objects = s.objects := by
  obtain ⟨n, hcounter, hcount, -⟩ := hs.counter hother
  have hconsistent : Consistent (update s.handles a (some h)) := by
    refine hs.consistent.fill hnull ?_ ?_
    · exact fun b k hb hk => hs.consistent.sameObject b other k h hb hother hk
    · exact fun b k hb hk hptr =>
        hs.consistent.sameCounter b other k h hb hother hk (hk ▸ hptr)
  have hobjects : ∀ p, p ≠ null → (s.objects p = .owned ↔ h.ptr = p ∨ s.objects p = .owned) := by
    intro p hp
    refine ⟨.inr, ?_⟩
    rintro (hptr | howned)
    · exact (hs.owned p hp).mpr ⟨other, h, hother, hptr⟩
    · exact howned
  have hfill := hs.fill hfree hconsistent hobjects
  rw [hcount] at hfill
  have hlt : n + 1 + 1 < 2 ^ 64 := by
    have hone : (owners (update s.handles a (some h)) Handle.objCounter
        h.objCounter).ncard = (counterOwners s h.objCounter).ncard + 1 := ncard_fill_self hfree rfl
    rw [← hcount, ← hone]
    exact ncard_owners_lt (s := setHandle s a h) hconsistent.nullFree h.objCounter
  refine ⟨_, ?_, hfill, rfl⟩
  have hcounter' : (setHandle s a h).counters h.objCounter = some (n + 1) := hcounter
  rw [SharedPtr.share, cntIncrement, readCounter, hcounter']
  change Except.ok (writeCounter (setHandle s a h) h.objCounter (sizeT (n + 1 + 1))) = _
  rw [sizeT_of_lt hlt]
  rfl

end Fill

/-! ### Calls and runs -/

/-- The raw pointer a call is given was not given to a handle before. -/
def FirstUse (s : Program) (call : Call) : Prop :=
  ∀ p, call.rawPointer = some p → s.objects p = .unowned

/-- What a call does to the objects: it takes over the one it is given, and it may delete some that
were owned. -/
def ObjectsChange (call : Call) (s s' : Program) : Prop :=
  ∀ p, (call.rawPointer = some p ∧ s.objects p = .unowned ∧ s'.objects p = .owned) ∨
    (call.rawPointer ≠ some p ∧
      (s'.objects p = s.objects p ∨ (s.objects p = .owned ∧ s'.objects p = .deleted)))

section Calls

variable {s s' s₁ : Program} {call : Call} {calls : List Call} {a ptr counter : Address}

theorem objectsChange_of_none (hcall : call.rawPointer = none)
    (h : ∀ p, s'.objects p = s.objects p ∨ (s.objects p = .owned ∧ s'.objects p = .deleted)) :
    ObjectsChange call s s' := by
  intro p
  refine .inr ⟨?_, h p⟩
  rw [hcall]
  exact (some_ne_none p).symm

theorem objectsChange_adopt (hcall : call.rawPointer = if ptr = null then none else some ptr)
    (hfirst : FirstUse s call)
    (hbefore : ∀ p, s₁.objects p = s.objects p ∨
      (s.objects p = .owned ∧ s₁.objects p = .deleted)) :
    ObjectsChange call s (adopt s₁ a ptr counter) := by
  by_cases hnull : ptr = null
  · rw [if_pos hnull] at hcall
    refine objectsChange_of_none hcall fun p => ?_
    simp only [adopt, if_pos hnull]
    exact hbefore p
  · rw [if_neg hnull] at hcall
    intro p
    simp only [adopt, if_neg hnull]
    by_cases hp : p = ptr
    · subst hp
      exact .inl ⟨hcall, hfirst p hcall, update_self ..⟩
    · refine .inr ⟨?_, ?_⟩
      · rw [hcall]
        exact fun h => hp (Option.some.inj h).symm
      · rw [update_of_ne hp]
        exact hbefore p

theorem adopt_removeHandle (s : Program) (a ptr counter : Address) :
    adopt (removeHandle s a) a ptr counter = adopt s a ptr counter := by
  simp only [adopt, removeHandle, update_idem]

theorem share_removeHandle (s : Program) (a : Address) (h : Handle) :
    share (removeHandle s a) a h = share s a h := by
  simp only [share, setHandle, removeHandle, update_idem]

theorem Owned.handle_ne_null (hs : Owned s) {a : Address} {h : Handle} (ha : s.handles a = some h) :
    a ≠ null := by
  rintro rfl
  rw [hs.consistent.nullFree] at ha
  cases ha

theorem Owned.assign {h : Handle} (hs : Owned s) (ha : s.handles a = some h)
    (hb : s.handles b = some k) (hne : a ≠ b) :
    ∃ s', ((SharedPtr.dropReference s h).bind fun s₁ => SharedPtr.share s₁ a k) = .ok s' ∧
      Owned s' ∧
      ∀ p, s'.objects p = s.objects p ∨ (s.objects p = .owned ∧ s'.objects p = .deleted) := by
  obtain ⟨s₁, hdrop, hhandles, hs₁, hobjects⟩ := hs.dropReference ha
  -- The other handle is still there.
  have hb₁ : (removeHandle s₁ a).handles b = some k := by
    change update s₁.handles a none b = some k
    rw [update_of_ne (Ne.symm hne), hhandles, hb]
  obtain ⟨s', hshare, hs', hobjects'⟩ := hs₁.share (update_self ..) (hs.handle_ne_null ha) hb₁
  rw [share_removeHandle] at hshare
  refine ⟨s', by rw [hdrop, Except.bind, hshare], hs', fun p => ?_⟩
  rw [hobjects']
  exact hobjects p

theorem Owned.readopt {h : Handle} (hs : Owned s) (ha : s.handles a = some h)
    (hs₁ : Owned (removeHandle s₁ a))
    (hobjects : ∀ p, s₁.objects p = s.objects p ∨
      (s.objects p = .owned ∧ s₁.objects p = .deleted)) (hfree : freeCounter s₁ counter)
    (hptr : ptr ≠ null → s.objects ptr = .unowned) : Owned (SharedPtr.adopt s₁ a ptr counter) := by
  rw [← adopt_removeHandle]
  refine hs₁.adopt (update_self ..) (hs.handle_ne_null ha) hfree fun hne => ?_
  -- Nothing that is unowned changes when the old object is given up.
  rcases hobjects ptr with heq | ⟨howned, -⟩
  · exact heq.trans (hptr hne)
  · rw [hptr hne] at howned
    cases howned

theorem Owned.runCall {result : Except Fault Program} (hs : Owned s) (hfirst : FirstUse s call)
    (hcall : runCall s call = some result) :
    ∃ s', result = .ok s' ∧ Owned s' ∧ ObjectsChange call s s' := by
  have hsame : ∀ s₁ : Program, s₁.objects = s.objects → ∀ p, s₁.objects p = s.objects p ∨
      (s.objects p = .owned ∧ s₁.objects p = .deleted) := fun s₁ h p => .inl (congrFun h p)
  cases call with
  | construct self ptr counter =>
    simp only [SharedPtr.runCall] at hcall
    split at hcall
    · next hok =>
        cases hcall
        refine ⟨_, rfl, hs.adopt hok.2.1 hok.1 hok.2.2 fun hptr => ?_, ?_⟩
        · exact hfirst ptr (if_neg hptr)
        · exact objectsChange_adopt rfl hfirst (hsame s rfl)
    · cases hcall
  | copy self other =>
    simp only [SharedPtr.runCall] at hcall
    split at hcall
    · next hok =>
        obtain ⟨h, hother, rfl⟩ := map_eq_some_iff.mp hcall
        obtain ⟨s', hshare, hs', hobjects⟩ := hs.share hok.2 hok.1 hother
        exact ⟨s', hshare, hs', objectsChange_of_none rfl (hsame s' hobjects)⟩
    · cases hcall
  | assign self other =>
    simp only [SharedPtr.runCall] at hcall
    split at hcall
    · next h k hself hother =>
        split at hcall
        · cases hcall
          exact ⟨s, rfl, hs, objectsChange_of_none rfl (hsame s rfl)⟩
        · next hne =>
            cases hcall
            obtain ⟨s', hassign, hs', hobjects⟩ := hs.assign hself hother hne
            exact ⟨s', hassign, hs', objectsChange_of_none rfl hobjects⟩
    · cases hcall
  | reset self ptr counter =>
    simp only [SharedPtr.runCall] at hcall
    obtain ⟨h, hself, hcall⟩ := bind_eq_some_iff.mp hcall
    obtain ⟨s₁, hdrop, hhandles, hs₁, hobjects⟩ := hs.dropReference hself
    rw [hdrop] at hcall
    simp only at hcall
    split at hcall
    · next hfree =>
        cases hcall
        refine ⟨_, rfl, ?_, objectsChange_adopt rfl hfirst hobjects⟩
        exact hs.readopt hself hs₁ hobjects hfree fun hptr => hfirst ptr (if_neg hptr)
    · cases hcall
  | destroy self =>
    simp only [SharedPtr.runCall] at hcall
    obtain ⟨h, hself, rfl⟩ := map_eq_some_iff.mp hcall
    obtain ⟨s₁, hdrop, hhandles, hs₁, hobjects⟩ := hs.dropReference hself
    rw [hdrop]
    exact ⟨_, rfl, hs₁, objectsChange_of_none rfl hobjects⟩

theorem Owned.step (hs : Owned s) (hfirst : FirstUse s call) (hstep : step s call = some s') :
    Owned s' ∧ ObjectsChange call s s' := by
  unfold SharedPtr.step at hstep
  rw [hs.noFault] at hstep
  obtain ⟨result, hcall, hresult⟩ := map_eq_some_iff.mp hstep
  obtain ⟨s₁, rfl, hs₁, hobjects⟩ := hs.runCall hfirst hcall
  cases hresult
  exact ⟨hs₁, hobjects⟩

theorem owned_start : Owned start := by
  refine ⟨⟨rfl, ?_, ?_, ?_⟩, rfl, ?_, ?_⟩
  · intro c n hn
    cases hn
  · intro a h ha
    cases ha
  · intro p _
    constructor
    · intro howned
      cases howned
    · rintro ⟨a, h, ha, -⟩
      cases ha
  · intro a b h k ha
    cases ha
  · intro a b h k ha
    cases ha

theorem along_firstUse (hs : Owned s) (hnodup : (calls.filterMap Call.rawPointer).Nodup)
    (hunowned : ∀ p ∈ calls.filterMap Call.rawPointer, s.objects p = .unowned) :
    Along SharedPtr.step FirstUse s calls := by
  induction calls generalizing s with
  | nil => trivial
  | cons call calls ih =>
    have hfirst : FirstUse s call := by
      intro p hp
      exact hunowned p (mem_filterMap.mpr ⟨call, mem_cons_self, hp⟩)
    refine ⟨hfirst, fun s' hstep => ?_⟩
    obtain ⟨hs', hobjects⟩ := hs.step hfirst hstep
    have hrest : (calls.filterMap Call.rawPointer).Nodup := by
      rw [filterMap_cons] at hnodup
      split at hnodup
      · exact hnodup
      · exact hnodup.of_cons
    refine ih hs' hrest fun p hp => ?_
    have hp' : s.objects p = .unowned := by
      obtain ⟨c, hc, hcp⟩ := mem_filterMap.mp hp
      exact hunowned p (mem_filterMap.mpr ⟨c, mem_cons_of_mem _ hc, hcp⟩)
    rcases hobjects p with ⟨hraw, -⟩ | ⟨-, heq | ⟨howned, -⟩⟩
    · rw [filterMap_cons_some hraw] at hnodup
      exact absurd hp (nodup_cons.mp hnodup).1
    · exact heq.trans hp'
    · rw [hp'] at howned
      cases howned

theorem not_unowned_of_run (hs : Owned s) (hg : Along SharedPtr.step FirstUse s calls)
    (hrun : run SharedPtr.step s calls = some s') {p : Address}
    (hp : p ∈ calls.filterMap Call.rawPointer ∨ s.objects p ≠ .unowned) :
    s'.objects p ≠ .unowned := by
  induction calls generalizing s with
  | nil =>
    cases hrun
    rcases hp with hp | hp
    · cases hp
    · exact hp
  | cons call calls ih =>
    obtain ⟨s₁, hstep, hrun⟩ := bind_eq_some_iff.mp hrun
    obtain ⟨hs₁, hobjects⟩ := hs.step hg.1 hstep
    refine ih hs₁ (hg.2 s₁ hstep) hrun ?_
    rcases hobjects p with ⟨-, -, howned⟩ | ⟨hraw, hchange⟩
    · right
      rw [howned]
      decide
    · rcases hp with hp | hp
      · left
        obtain ⟨c, hc, hcp⟩ := mem_filterMap.mp hp
        rcases mem_cons.mp hc with rfl | hc
        · exact absurd hcp hraw
        · exact mem_filterMap.mpr ⟨c, hc, hcp⟩
      · right
        rcases hchange with heq | ⟨-, hdeleted⟩
        · rw [heq]
          exact hp
        · rw [hdeleted]
          decide

/-- The call deletes exactly the objects that lose their last handle in it. -/
def DeletesLast (s : Program) (call : Call) : Prop :=
  ∀ s', SharedPtr.step s call = some s' → ∀ p, p ≠ null →
    ((s.objects p ≠ .deleted ∧ s'.objects p = .deleted) ↔
      ((objectOwners s p).Nonempty ∧ ¬ (objectOwners s' p).Nonempty))

theorem Owned.deletesLast (hs : Owned s) (hfirst : FirstUse s call) : DeletesLast s call := by
  intro s' hstep p hp
  obtain ⟨hs', hobjects⟩ := hs.step hfirst hstep
  rw [← hs.owned p hp, ← hs'.owned p hp]
  rcases hobjects p with ⟨-, hbefore, hafter⟩ | ⟨-, heq | ⟨hbefore, hafter⟩⟩
  · simp [hbefore, hafter]
  · simp [heq]
  · simp [hbefore, hafter]

end Calls

/-- **Ownership.** For every sequence of calls on any number of handles in which no raw pointer is
given away twice: in every state the counters are right and nothing undefined has happened; every
call deletes exactly the objects that lose their last handle in it; and once no handle is left,
every object that was given away has been deleted. -/
theorem sharedPtr_owns (calls : List Call) (hraw : (calls.filterMap Call.rawPointer).Nodup) :
    Always step Accurate start calls ∧ Along step DeletesLast start calls ∧
      ∀ s, run step start calls = some s → (∀ a, s.handles a = none) →
        ∀ p ∈ calls.filterMap Call.rawPointer, s.objects p = .deleted := by
  have hg : Along step FirstUse start calls := along_firstUse owned_start hraw fun p _ => rfl
  have hkeep : ∀ s call s', Owned s → FirstUse s call → step s call = some s' → Owned s' :=
    fun s call s' hs hfirst hstep => (hs.step hfirst hstep).1
  have hall : Always step Owned start calls :=
    always_of_along (fun _ h => h) (fun s call s' _ => hkeep s call s') owned_start hg
  refine ⟨hall.imp fun s hs => hs.toAccurate, ?_, ?_⟩
  · exact hg.imp (fun s call hs hfirst => hs.deletesLast hfirst) hkeep owned_start
  · intro s hrun hempty p hp
    have hs : Owned s := hall.run hrun
    have hnull : p ≠ null := by
      obtain ⟨call, -, hcall⟩ := mem_filterMap.mp hp
      cases call with
      | construct self ptr counter =>
        simp only [Call.rawPointer] at hcall
        split at hcall
        · cases hcall
        · next hne => exact Option.some.inj hcall ▸ hne
      | reset self ptr counter =>
        simp only [Call.rawPointer] at hcall
        split at hcall
        · cases hcall
        · next hne => exact Option.some.inj hcall ▸ hne
      | copy self other => cases hcall
      | assign self other => cases hcall
      | destroy self => cases hcall
    have hgiven := not_unowned_of_run owned_start hg hrun (.inl hp)
    have hnone : s.objects p ≠ .owned := by
      intro howned
      obtain ⟨a, h, ha, -⟩ := (hs.owned p hnull).mp howned
      rw [hempty a] at ha
      cases ha
    cases hobject : s.objects p with
    | unowned => exact absurd hobject hgiven
    | owned => exact absurd hobject hnone
    | deleted => rfl

/-- The program of the source: `sp1` owns the number, `test` makes three copies, assigns one to
another and destroys them, and `sp1` is destroyed at the end of `main`. -/
theorem sharedPtr_owns_main :
    ∃ calls : List Call,
      calls = [.construct 16 64 128, .copy 32 16, .copy 40 16, .copy 48 16, .assign 48 40,
        .destroy 48, .destroy 40, .destroy 32, .destroy 16] ∧
      (calls.filterMap Call.rawPointer).Nodup ∧ (run step start calls).isSome ∧
      Always step Accurate start calls ∧ Along step DeletesLast start calls ∧
      ∀ s, run step start calls = some s → (∀ a, s.handles a = none) →
        ∀ p ∈ calls.filterMap Call.rawPointer, s.objects p = .deleted := by
  refine ⟨_, rfl, by decide, by decide, sharedPtr_owns _ (by decide)⟩

end LinuxWorkouts.SharedPtr
