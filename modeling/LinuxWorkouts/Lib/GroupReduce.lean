import Mathlib

/-!
Reducing groups of neighbours in one pass.

`stream` goes over a list once: it starts an accumulator at the first element of a run with one key,
lets the run's other elements be absorbed and gives the accumulator out where the key changes. If
every key comes up in one run only, `Contiguous`, then there is one result for every key, and it is
the fold over all elements with that key (`stream_spec`). `gather` brings a list into such an order.
-/

namespace LinuxWorkouts.GroupReduce

open List

variable {α β κ : Type*}

def Contiguous : List κ → Prop
  | [] => True
  | k :: ks => (k ∈ ks → ks.head? = some k) ∧ Contiguous ks

theorem Contiguous.of_map {κ' : Type*} {f : κ → κ'} (hf : Function.Injective f) {ks : List κ}
    (h : Contiguous (ks.map f)) : Contiguous ks := by
  induction ks with
  | nil => trivial
  | cons k ks ih =>
    obtain ⟨hnext, hrest⟩ := h
    refine ⟨fun hmem => ?_, ih hrest⟩
    have hhead := hnext (mem_map_of_mem hmem)
    rw [head?_map] at hhead
    obtain ⟨k', hk', heq⟩ := Option.map_eq_some_iff.mp hhead
    rw [hk', hf heq]

section Stream

variable [DecidableEq κ] (key : α → κ) (start : α → β) (absorb : β → α → β)

def streamLoop : List α → κ → β → List (κ × β)
  | [], k, acc => [(k, acc)]
  | a :: as, k, acc =>
    if key a ≠ k then (k, acc) :: streamLoop as (key a) (start a)
    else streamLoop as k (absorb acc a)

def stream : List α → List (κ × β)
  | [] => []
  | a :: as => streamLoop key start absorb as (key a) (start a)

def IsFold (group : List α) (b : β) : Prop :=
  ∃ a rest, group = a :: rest ∧ b = rest.foldl absorb (start a)

variable {key} {as : List α}

theorem streamLoop_spec {k : κ} (acc : β) (h : Contiguous (k :: as.map key)) :
    ((streamLoop key start absorb as k acc).map Prod.fst).Nodup ∧
      (∀ k', k' ∈ (streamLoop key start absorb as k acc).map Prod.fst ↔
        k' = k ∨ k' ∈ as.map key) ∧
      ∀ r ∈ streamLoop key start absorb as k acc,
        (r.1 = k ∧ r.2 = (as.filter (key · = k)).foldl absorb acc) ∨
          (r.1 ≠ k ∧ IsFold start absorb (as.filter (key · = r.1)) r.2) := by
  induction as generalizing k acc with
  | nil => simp [streamLoop]
  | cons a as ih =>
    obtain ⟨hnext, hrest⟩ := h
    rw [streamLoop]
    split
    · next hne =>
        -- The run is over, so its key does not come up again.
        have hgone : k ∉ (a :: as).map key := fun hmem => hne (Option.some.inj (hnext hmem))
        obtain ⟨hnodup, hkeys, hfolds⟩ := ih (start a) hrest
        have hkeys' : ∀ k', k' ∈ (streamLoop key start absorb as (key a) (start a)).map Prod.fst ↔
            k' ∈ (a :: as).map key := by
          intro k'
          rw [hkeys, map_cons, mem_cons]
        refine ⟨?_, ?_, ?_⟩
        · rw [map_cons, nodup_cons]
          exact ⟨fun hmem => hgone ((hkeys' k).mp hmem), hnodup⟩
        · intro k'
          rw [map_cons, mem_cons, hkeys']
        · intro r hr
          rcases mem_cons.mp hr with rfl | hr
          · refine .inl ⟨rfl, ?_⟩
            have hempty : (a :: as).filter (key · = k) = [] := by
              rw [filter_eq_nil_iff]
              intro b hb hbk
              exact hgone (of_decide_eq_true hbk ▸ mem_map_of_mem hb)
            rw [hempty, foldl_nil]
          · have hmem := (hkeys' r.1).mp (mem_map_of_mem hr)
            refine .inr ⟨fun heq => hgone (heq ▸ hmem), ?_⟩
            rcases hfolds r hr with ⟨hkey, hval⟩ | ⟨hkey, hfold⟩
            · refine ⟨a, as.filter (key · = r.1), ?_, ?_⟩
              · rw [filter_cons_of_pos (by simp [hkey])]
              · rw [hval, hkey]
            · rwa [filter_cons_of_neg (by simpa using Ne.symm hkey)]
    · next heq =>
        have heq : key a = k := not_not.mp heq
        have hrun : Contiguous (k :: as.map key) := by
          rw [← heq]
          exact hrest
        obtain ⟨hnodup, hkeys, hfolds⟩ := ih (absorb acc a) hrun
        refine ⟨hnodup, ?_, ?_⟩
        · intro k'
          rw [hkeys, map_cons, mem_cons, heq]
          tauto
        · intro r hr
          rcases hfolds r hr with ⟨hkey, hval⟩ | ⟨hkey, hfold⟩
          · refine .inl ⟨hkey, ?_⟩
            rw [hval, filter_cons_of_pos (by simp [heq]), foldl_cons]
          · refine .inr ⟨hkey, ?_⟩
            rwa [filter_cons_of_neg (by simpa [heq] using Ne.symm hkey)]

theorem stream_spec (h : Contiguous (as.map key)) :
    ((stream key start absorb as).map Prod.fst).Nodup ∧
      (∀ k, k ∈ (stream key start absorb as).map Prod.fst ↔ k ∈ as.map key) ∧
      ∀ r ∈ stream key start absorb as, IsFold start absorb (as.filter (key · = r.1)) r.2 := by
  cases as with
  | nil => simp [stream]
  | cons a as =>
    obtain ⟨hnodup, hkeys, hfolds⟩ := streamLoop_spec start absorb (start a) h
    refine ⟨hnodup, ?_, ?_⟩
    · intro k
      rw [map_cons, mem_cons]
      exact hkeys k
    · intro r hr
      rcases hfolds r hr with ⟨hkey, hval⟩ | ⟨hkey, hfold⟩
      · refine ⟨a, as.filter (key · = r.1), ?_, ?_⟩
        · rw [filter_cons_of_pos (by simp [hkey])]
        · rw [hval, hkey]
      · rwa [filter_cons_of_neg (by simpa using Ne.symm hkey)]

end Stream

/-! ### Bringing groups together -/

section Gather

variable [DecidableEq κ] (key : α → κ)

def insertGrouped (a : α) : List α → List α
  | [] => [a]
  | b :: l => if key b = key a then a :: b :: l else b :: insertGrouped a l

def gather (l : List α) : List α := l.foldr (insertGrouped key) []

theorem insertGrouped_perm (a : α) (l : List α) : (insertGrouped key a l).Perm (a :: l) := by
  induction l with
  | nil => exact List.Perm.refl _
  | cons b l ih =>
    rw [insertGrouped]
    split
    · exact List.Perm.refl _
    · exact (ih.cons b).trans (List.Perm.swap a b l)

theorem gather_perm (l : List α) : (gather key l).Perm l := by
  induction l with
  | nil => exact List.Perm.refl _
  | cons a l ih => exact (insertGrouped_perm key a (gather key l)).trans (ih.cons a)

theorem contiguous_insertGrouped {a : α} {l : List α} (h : Contiguous (l.map key)) :
    Contiguous ((insertGrouped key a l).map key) := by
  induction l with
  | nil => exact ⟨fun hmem => absurd hmem not_mem_nil, trivial⟩
  | cons b l ih =>
    obtain ⟨hnext, hrest⟩ := h
    rw [insertGrouped]
    split
    · next heq =>
        refine ⟨fun _ => ?_, hnext, hrest⟩
        exact congrArg some heq
    · next hne =>
        refine ⟨fun hmem => ?_, ih hrest⟩
        rw [((insertGrouped_perm key a l).map key).mem_iff, map_cons, mem_cons] at hmem
        have hhead := hnext (hmem.resolve_left hne)
        -- The next element has another key than the new one, so it stays the next one.
        cases l with
        | nil => cases hhead
        | cons c l =>
          have hc : key c = key b := Option.some.inj hhead
          rw [insertGrouped, if_neg (by rw [hc]; exact hne)]
          exact congrArg some hc

theorem contiguous_gather (l : List α) : Contiguous ((gather key l).map key) := by
  induction l with
  | nil => trivial
  | cons a l ih => exact contiguous_insertGrouped key ih

end Gather

end LinuxWorkouts.GroupReduce
