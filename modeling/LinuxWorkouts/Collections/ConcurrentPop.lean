import LinuxWorkouts.Collections.Vector
import LinuxWorkouts.Lib.Goroutines

/-!
Concurrent calls of `pop_multithread`.

`pop_multithread` reads the size, lets `top_multithread` read it twice more and fetch the element
under the read lock, and decrements the size without a lock. The steps of a call are these three
reads, the section behind the lock and the decrement; a run is any list of the calls whose turn it
is. Two calls that read the same size for their index deliver the same element, and both decrement.
`pops_distinct` is the condition under which they do not: a call reads its index only while no
other call holds one.
-/

namespace LinuxWorkouts.Collections

open Goroutines Transition

/-! ### The code -/

/-- The codes of the locked functions: one of their own, and those of the functions they call. -/
inductive MultithreadCode
  | lockInitErr
  | plain (code : ErrorCode)
  deriving DecidableEq, Repr

/-- Where a call of `pop_multithread` stands. It has returned once it is `popped`, with `NO_ERR`
and the element at `index` in `*value`, or `failed`. -/
inductive PopCall
  | popTest
  | topTest
  | indexing
  | getting (index : Nat)
  | decrementing (index : Nat) (value : List UInt8)
  | popped (index : Nat) (value : List UInt8)
  | failed (code : MultithreadCode)
  | faulted
  deriving DecidableEq, Repr

/-- One vector and the calls on it. -/
structure PopState (T : Nat) where
  inst : Vector
  lockInit : Bool
  hasValue : Fin T → Bool
  calls : Fin T → PopCall

variable {n T : Nat}

/-- `size - 1` in a `size_t`. -/
def sizeTPred (size : Nat) : Nat := sizeT (size + (2 ^ 64 - 1))

/-- `get_multithread`. There is no turn for a call that waits for the end of a reallocation. -/
def getMultithread (n : Nat) (s : PopState T) (i : Fin T) (index : Nat) : Option PopCall :=
  if !s.hasValue i then some (.failed (.plain .nullPtrErr))
  else if !s.lockInit then some (.failed .lockInitErr)
  else if s.inst.reallocProcess then none
  else
    match get n s.inst index with
    | some ⟨.noErr, some value⟩ => some (.decrementing index value)
    | some reply => some (.failed (.plain reply.code))
    | none => some .faulted

def PopState.move (s : PopState T) (i : Fin T) (call : PopCall) : PopState T :=
  { s with calls := Function.update s.calls i call }

def sizeTest (s : PopState T) (next : PopCall) : PopCall :=
  if s.inst.size = 0 then .failed (.plain .zeroSizeVector) else next

def Vector.withSize (inst : Vector) (size : Nat) : Vector := { inst with size := size }

def PopState.decrement (s : PopState T) : PopState T :=
  { s with inst := s.inst.withSize (sizeTPred s.inst.size) }

/-- The next step of call `i`. -/
def popStep (n : Nat) (s : PopState T) (i : Fin T) : Option (PopState T) :=
  match s.calls i with
  | .popTest => some (s.move i (sizeTest s .topTest))
  | .topTest => some (s.move i (sizeTest s .indexing))
  | .indexing => some (s.move i (.getting (sizeTPred s.inst.size)))
  | .getting index => (getMultithread n s i index).map (s.move i)
  | .decrementing index value => some (s.decrement.move i (.popped index value))
  | .popped _ _ | .failed _ | .faulted => none

/-- All calls are made and none has begun. -/
def popStart (inst : Vector) (lockInit : Bool) (hasValue : Fin T → Bool) : PopState T :=
  ⟨inst, lockInit, hasValue, fun _ => .popTest⟩

/-! ### What is delivered -/

def PopCall.isPopped : PopCall → Bool
  | .popped _ _ => true
  | _ => false

def poppedCount (s : PopState T) : Nat := ∑ i, if (s.calls i).isPopped then 1 else 0

/-- The calls that returned `NO_ERR` have elements of the vector, no two the same one, and the size
is less by their number. -/
structure Delivered (xs : List (Element n)) (s : PopState T) : Prop where
  element : ∀ i index value, s.calls i = .popped index value →
    ∃ x, xs[index]? = some x ∧ value = x.toList
  distinct : ∀ i j index value value', s.calls i = .popped index value →
    s.calls j = .popped index value' → i = j
  size : s.inst.size + poppedCount s = xs.length

/-! ### The condition -/

def PopState.reads (s : PopState T) (i : Fin T) : Bool := s.lockInit && s.hasValue i

/-- The call has read its index and has not yet decremented the size. -/
def PopCall.holdsIndex : PopCall → Bool
  | .getting _ => true
  | .decrementing _ _ => true
  | _ => false

/-- A call that reads the size of a vector that is not empty for its index is alone with it. -/
def AloneAtIndex (s : PopState T) (i : Fin T) : Prop :=
  s.calls i = .indexing → s.reads i = true → s.inst.size ≠ 0 →
    ∀ j, s.reads j = true → (s.calls j).holdsIndex = false

instance decidableAloneAtIndex (s : PopState T) (i : Fin T) : Decidable (AloneAtIndex s i) := by
  unfold AloneAtIndex
  infer_instance

/-! ### The invariant -/

/-- What holds in every state of a run that meets the condition: the elements below the size are
still there, and an index that is held is the last one. -/
structure PopInv (xs : List (Element n)) (s : PopState T) : Prop where
  represents : Represents s.inst (xs.take s.inst.size)
  delivered : Delivered xs s
  gone : ∀ i index value, s.calls i = .popped index value → s.inst.size ≤ index
  getting : ∀ i index, s.calls i = .getting index → s.reads i = true → s.inst.size ≠ 0 →
    index + 1 = s.inst.size
  decrementing : ∀ i index value, s.calls i = .decrementing index value →
    s.reads i = true ∧ index + 1 = s.inst.size ∧ ∃ x, xs[index]? = some x ∧ value = x.toList
  alone : s.inst.size ≠ 0 → ∀ i j, s.reads i = true → s.reads j = true →
    (s.calls i).holdsIndex = true → (s.calls j).holdsIndex = true → i = j

section Steps

variable {xs : List (Element n)} {s s' : PopState T} {i : Fin T} {call : PopCall}

@[simp] theorem move_calls_self (s : PopState T) (i : Fin T) (call : PopCall) :
    (s.move i call).calls i = call := Function.update_self ..

theorem move_calls_ne {j : Fin T} (s : PopState T) (call : PopCall) (h : j ≠ i) :
    (s.move i call).calls j = s.calls j := Function.update_of_ne h ..

/-- A standing after the move is the new one, or that of another call. -/
theorem move_calls_cases {j : Fin T} {c : PopCall} (h : (s.move i call).calls j = c) :
    (j = i ∧ call = c) ∨ (j ≠ i ∧ s.calls j = c) := by
  by_cases hji : j = i
  · subst hji
    rw [move_calls_self] at h
    exact .inl ⟨rfl, h⟩
  · rw [move_calls_ne s call hji] at h
    exact .inr ⟨hji, h⟩

theorem decrement_move_calls_cases {j : Fin T} {c : PopCall}
    (h : (s.decrement.move i call).calls j = c) :
    (j = i ∧ call = c) ∨ (j ≠ i ∧ s.calls j = c) := by
  have hcalls : s.decrement.calls = s.calls := by
    unfold PopState.decrement
    rfl
  rw [← hcalls]
  exact move_calls_cases h

theorem decrement_move_reads (s : PopState T) (i j : Fin T) (call : PopCall) :
    (s.decrement.move i call).reads j = s.reads j := by
  unfold PopState.reads PopState.move PopState.decrement
  rfl

theorem sizeTPred_of_pos {size : Nat} (hpos : size ≠ 0) (hlt : size < 2 ^ 64) :
    sizeTPred size = size - 1 := by
  rw [sizeTPred, sizeT]
  omega

section

variable (h : PopInv xs s)
include h

theorem PopInv.move (hold : (s.calls i).isPopped = false) (hnew : call.isPopped = false)
    (hget : ∀ index, call = .getting index → s.reads i = true → s.inst.size ≠ 0 →
      index + 1 = s.inst.size) (hdec : ∀ index value, call = .decrementing index value →
      s.reads i = true ∧ index + 1 = s.inst.size ∧ ∃ x, xs[index]? = some x ∧ value = x.toList)
    (halone : call.holdsIndex = true → s.reads i = true → s.inst.size ≠ 0 →
      ∀ j, j ≠ i → s.reads j = true → (s.calls j).holdsIndex = false) :
    PopInv xs (s.move i call) := by
  have hpopped : ∀ j index value, (s.move i call).calls j = .popped index value →
      s.calls j = .popped index value := by
    intro j index value hj
    rcases move_calls_cases hj with ⟨-, hcall⟩ | ⟨-, hj⟩
    · rw [hcall] at hnew
      cases hnew
    · exact hj
  refine ⟨h.represents, ⟨?_, ?_, ?_⟩, ?_, ?_, ?_, ?_⟩
  · exact fun j index value hj => h.delivered.element j index value (hpopped j index value hj)
  · intro j k index value value' hj hk
    exact h.delivered.distinct j k index value value' (hpopped j index value hj)
      (hpopped k index value' hk)
  · have hcount : poppedCount (s.move i call) = poppedCount s := by
      apply sum_update_same (g := fun c : PopCall => if c.isPopped then 1 else 0)
      simp [hold, hnew]
    rw [hcount]
    exact h.delivered.size
  · exact fun j index value hj => h.gone j index value (hpopped j index value hj)
  · intro j index hj
    rcases move_calls_cases hj with ⟨rfl, hcall⟩ | ⟨-, hj⟩
    · exact hget index hcall
    · exact h.getting j index hj
  · intro j index value hj
    rcases move_calls_cases hj with ⟨rfl, hcall⟩ | ⟨-, hj⟩
    · exact hdec index value hcall
    · exact h.decrementing j index value hj
  · intro hsize j k hjr hkr hj hk
    by_cases hji : j = i
    · subst hji
      by_contra hkj
      rw [move_calls_self] at hj
      rw [move_calls_ne s call (Ne.symm hkj)] at hk
      rw [halone hj hjr hsize k (Ne.symm hkj) hkr] at hk
      cases hk
    · rw [move_calls_ne s call hji] at hj
      by_cases hki : k = i
      · subst hki
        rw [move_calls_self] at hk
        rw [halone hk hkr hsize j hji hjr] at hj
        cases hj
      · rw [move_calls_ne s call hki] at hk
        exact h.alone hsize j k hjr hkr hj hk

theorem PopInv.move_idle (hold : (s.calls i).isPopped = false) (hnew : call.isPopped = false)
    (hidle : call.holdsIndex = false) :
    PopInv xs (s.move i call) := by
  refine h.move hold hnew ?_ ?_ ?_
  · intro index hcall
    rw [hcall] at hidle
    cases hidle
  · intro index value hcall
    rw [hcall] at hidle
    cases hidle
  · intro hcall
    rw [hidle] at hcall
    cases hcall

theorem PopInv.sizeTest (hold : (s.calls i).isPopped = false) (hnew : call.isPopped = false)
    (hidle : call.holdsIndex = false) :
    PopInv xs (s.move i (sizeTest s call)) := by
  unfold Collections.sizeTest
  split
  · exact h.move_idle hold rfl rfl
  · exact h.move_idle hold hnew hidle

theorem PopInv.indexing (hi : s.calls i = .indexing) (hg : AloneAtIndex s i) :
    PopInv xs (s.move i (.getting (sizeTPred s.inst.size))) := by
  have hlt : s.inst.size < 2 ^ 64 := lt_of_le_of_lt h.represents.room h.represents.counted
  refine h.move (by rw [hi]; rfl) rfl ?_ ?_ ?_
  · intro index hcall _ hsize
    rw [← PopCall.getting.inj hcall, sizeTPred_of_pos hsize hlt]
    omega
  · intro index value hcall
    cases hcall
  · intro _ hreads hsize j _ hj
    exact hg hi hreads hsize j hj

theorem PopInv.getMultithread {index : Nat} (hi : s.calls i = .getting index)
    (hcall : getMultithread n s i index = some call) :
    (call.isPopped = false ∧ call.holdsIndex = false) ∨
      ∃ x, s.reads i = true ∧ index + 1 = s.inst.size ∧ xs[index]? = some x ∧
        call = .decrementing index x.toList := by
  unfold Collections.getMultithread at hcall
  split at hcall
  · cases hcall
    exact .inl ⟨rfl, rfl⟩
  · next hvalue =>
      split at hcall
      · cases hcall
        exact .inl ⟨rfl, rfl⟩
      · next hlock =>
          have hreads : s.reads i = true := by
            rw [PopState.reads]
            simpa using And.intro hlock hvalue
          split at hcall
          · cases hcall
          · rw [h.represents.get] at hcall
            cases hx : (xs.take s.inst.size)[index]? with
            | none =>
              rw [hx] at hcall
              split at hcall
              · next heq => split at heq <;> cases heq
              · cases hcall
                exact .inl ⟨rfl, rfl⟩
              · cases hcall
                exact .inl ⟨rfl, rfl⟩
            | some x =>
              rw [hx] at hcall
              cases hcall
              have hlt : index < s.inst.size := by
                have := (List.getElem?_eq_some_iff.mp hx).1
                rw [List.length_take] at this
                omega
              rw [List.getElem?_take_of_lt hlt] at hx
              exact .inr ⟨x, hreads, h.getting i index hi hreads (by omega), hx, rfl⟩

end

section Decrement

variable {index : Nat} {value : List UInt8}

section

variable (h : PopInv xs s)
include h

theorem PopInv.sizeTPred_eq (hi : s.calls i = .decrementing index value) :
    sizeTPred s.inst.size = index := by
  obtain ⟨-, hlast, -⟩ := h.decrementing i index value hi
  have hlt : s.inst.size < 2 ^ 64 := lt_of_le_of_lt h.represents.room h.represents.counted
  rw [sizeTPred_of_pos (by omega) hlt]
  omega

theorem PopInv.others_free (hi : s.calls i = .decrementing index value) {j : Fin T} (hj : j ≠ i)
    (hjr : s.reads j = true) : (s.calls j).holdsIndex = false := by
  obtain ⟨hreads, hlast, -⟩ := h.decrementing i index value hi
  by_contra hholds
  rw [Bool.not_eq_false] at hholds
  exact hj (h.alone (by omega) j i hjr hreads hholds (by rw [hi]; rfl))

theorem PopInv.represents_decrement (hi : s.calls i = .decrementing index value) :
    Represents s.decrement.inst (xs.take s.decrement.inst.size) := by
  have hsize : sizeTPred s.inst.size = index := h.sizeTPred_eq hi
  obtain ⟨-, hlast, -⟩ := h.decrementing i index value hi
  have hlen : (xs.take s.inst.size).dropLast = xs.take index := by
    have hcount := h.delivered.size
    have hmin : min (min s.inst.size xs.length - 1) s.inst.size = index := by omega
    rw [List.dropLast_eq_take, List.length_take, List.take_take, hmin]
  have hinst : s.decrement.inst = { s.inst with size := s.inst.size - 1 } := by
    change s.inst.withSize (sizeTPred s.inst.size) = s.inst.withSize (s.inst.size - 1)
    rw [hsize, ← hlast, Nat.add_sub_cancel]
  have hsize' : s.decrement.inst.size = index := hsize
  have hshrunk := h.represents.shrink
  rw [hlen] at hshrunk
  rw [hsize', hinst]
  exact hshrunk

theorem PopInv.delivered_decrement (hi : s.calls i = .decrementing index value) :
    Delivered xs (s.decrement.move i (.popped index value)) := by
  obtain ⟨-, hlast, hx⟩ := h.decrementing i index value hi
  refine ⟨?_, ?_, ?_⟩
  · intro j idx v hj
    rcases decrement_move_calls_cases hj with ⟨-, hcall⟩ | ⟨-, hj⟩
    · cases hcall
      exact hx
    · exact h.delivered.element j idx v hj
  · -- What was delivered before lies behind the new element.
    intro j k idx v v' hj hk
    rcases decrement_move_calls_cases hj with ⟨rfl, hcall⟩ | ⟨-, hjOld⟩
    · rcases decrement_move_calls_cases hk with ⟨rfl, -⟩ | ⟨-, hkOld⟩
      · rfl
      · cases hcall
        have hgone := h.gone k _ v' hkOld
        omega
    · rcases decrement_move_calls_cases hk with ⟨rfl, hcall⟩ | ⟨-, hkOld⟩
      · cases hcall
        have hgone := h.gone j _ v hjOld
        omega
      · exact h.delivered.distinct j k idx v v' hjOld hkOld
  · have hcount : poppedCount (s.decrement.move i (.popped index value)) = poppedCount s + 1 := by
      apply sum_update_add (g := fun c : PopCall => if c.isPopped then 1 else 0)
      change 1 = (if (s.calls i).isPopped then 1 else 0) + 1
      rw [hi]
      rfl
    have hsize : (s.decrement.move i (.popped index value)).inst.size = index := h.sizeTPred_eq hi
    have hold := h.delivered.size
    rw [hsize, hcount]
    omega

theorem PopInv.decrement (hi : s.calls i = .decrementing index value) :
    PopInv xs (s.decrement.move i (.popped index value)) := by
  obtain ⟨-, hlast, -⟩ := h.decrementing i index value hi
  have hsize : (s.decrement.move i (.popped index value)).inst.size = index := h.sizeTPred_eq hi
  refine ⟨h.represents_decrement hi, h.delivered_decrement hi, ?_, ?_, ?_, ?_⟩
  · intro j idx v hj
    rw [hsize]
    rcases decrement_move_calls_cases hj with ⟨-, hcall⟩ | ⟨-, hj⟩
    · cases hcall
      exact le_refl _
    · have hgone := h.gone j idx v hj
      omega
  · intro j idx hj hjr
    rw [decrement_move_reads] at hjr
    rcases decrement_move_calls_cases hj with ⟨-, hcall⟩ | ⟨hji, hj⟩
    · cases hcall
    · have hholds := h.others_free hi hji hjr
      rw [hj] at hholds
      cases hholds
  · intro j idx v hj
    rcases decrement_move_calls_cases hj with ⟨-, hcall⟩ | ⟨hji, hj⟩
    · cases hcall
    · have hholds := h.others_free hi hji (h.decrementing j idx v hj).1
      rw [hj] at hholds
      cases hholds
  · intro _ j k hjr _ hj
    rw [decrement_move_reads] at hjr
    generalize hc : (s.decrement.move i (.popped index value)).calls j = c at hj
    rcases decrement_move_calls_cases hc with ⟨-, rfl⟩ | ⟨hji, rfl⟩
    · cases hj
    · rw [h.others_free hi hji hjr] at hj
      cases hj

end

end Decrement

theorem PopInv.step (h : PopInv xs s) (hg : AloneAtIndex s i) (hstep : popStep n s i = some s') :
    PopInv xs s' := by
  unfold popStep at hstep
  split at hstep
  · next hi =>
      cases hstep
      exact h.sizeTest (by rw [hi]; rfl) rfl rfl
  · next hi =>
      cases hstep
      exact h.sizeTest (by rw [hi]; rfl) rfl rfl
  · next hi =>
      cases hstep
      exact h.indexing hi hg
  · next index hi =>
      obtain ⟨call, hcall, rfl⟩ := Option.map_eq_some_iff.mp hstep
      obtain ⟨hnew, hidle⟩ | ⟨x, hreads, hlast, hx, rfl⟩ := h.getMultithread hi hcall
      · exact h.move_idle (by rw [hi]; rfl) hnew hidle
      · refine h.move (by rw [hi]; rfl) rfl ?_ ?_ ?_
        · intro index' hcall'
          cases hcall'
        · intro index' value hcall'
          cases hcall'
          exact ⟨hreads, hlast, x, hx, rfl⟩
        · intro _ _ hsize j hji hjr
          by_contra hholds
          rw [Bool.not_eq_false] at hholds
          exact hji (h.alone hsize j i hjr hreads hholds (by rw [hi]; rfl))
  · next index value hi =>
      cases hstep
      exact h.decrement hi
  · cases hstep
  · cases hstep
  · cases hstep

theorem popInv_start {inst : Vector} (h : Represents inst xs) (lockInit : Bool)
    (hasValue : Fin T → Bool) : PopInv xs (popStart inst lockInit hasValue) := by
  have hcount : poppedCount (popStart inst lockInit hasValue) = 0 :=
    Finset.sum_eq_zero fun _ _ => rfl
  refine ⟨?_, ⟨?_, ?_, ?_⟩, ?_, ?_, ?_, ?_⟩
  · change Represents inst (xs.take inst.size)
    rw [h.size, List.take_length]
    exact h
  · intro i index value hi
    cases hi
  · intro i j index value value' hi
    cases hi
  · rw [hcount]
    exact h.size
  · intro i index value hi
    cases hi
  · intro i index hi
    cases hi
  · intro i index value hi
    cases hi
  · intro _ i j _ _ hi
    cases hi

end Steps

/-- **Concurrent pops.** On every vector, for any number of calls, in every interleaving in which a
call reads its index only while no other call holds one: in every state reached the calls that have
returned `NO_ERR` delivered different elements of the vector, and the size is less by their
number. -/
theorem pops_distinct {xs : List (Element n)} {inst : Vector} (hinst : Represents inst xs)
    {lockInit : Bool} {hasValue : Fin T → Bool} {turns : List (Fin T)}
    (hg : Along (popStep n) AloneAtIndex (popStart inst lockInit hasValue) turns) :
    Always (popStep n) (Delivered xs) (popStart inst lockInit hasValue) turns :=
  always_of_along (fun _ h => h.delivered) (fun _ _ _ _ h hG hs => h.step hG hs)
    (popInv_start hinst lockInit hasValue) hg

def pairVector : Vector where
  data := [7, 9]
  size := 2
  capacity := 2
  reallocProcess := false

def pairElements : List (Element 1) := [⟨[7], rfl⟩, ⟨[9], rfl⟩]

theorem represents_pair : Represents pairVector pairElements := by
  refine ⟨rfl, le_refl _, by decide, by decide, rfl, by decide, ?_⟩
  intro i x hx
  rcases i with _ | _ | i
  · cases hx
    rfl
  · cases hx
    rfl
  · cases hx

/-- The calls overlap, but the second reads its index behind the decrement of the first. -/
theorem pops_distinct_pair :
    Represents pairVector pairElements ∧
      Along (popStep 1) AloneAtIndex (popStart pairVector true fun _ : Fin 2 => true)
        [0, 1, 1, 0, 0, 0, 0, 1, 1, 1] ∧
      Always (popStep 1) (Delivered pairElements) (popStart pairVector true fun _ : Fin 2 => true)
        [0, 1, 1, 0, 0, 0, 0, 1, 1, 1] := by
  have hg : Along (popStep 1) AloneAtIndex (popStart pairVector true fun _ : Fin 2 => true)
      [0, 1, 1, 0, 0, 0, 0, 1, 1, 1] := by decide
  exact ⟨represents_pair, hg, pops_distinct represents_pair hg⟩

/-- Both calls read their index before either decrements: both deliver the element 9, and the
element 7 to nobody, although the vector is empty afterwards. -/
theorem pops_deliver_twice :
    ∃ s, run (popStep 1) (popStart pairVector true fun _ : Fin 2 => true)
        [0, 0, 0, 1, 1, 1, 0, 1, 0, 1] = some s ∧
      s.calls 0 = .popped 1 [9] ∧ s.calls 1 = .popped 1 [9] ∧ s.inst.size = 0 ∧
      ¬ Delivered pairElements s := by
  refine ⟨_, rfl, by decide, by decide, by decide, fun h => ?_⟩
  have hsame := h.distinct 0 1 1 [9] [9] (by decide) (by decide)
  exact absurd hsame (by decide)

end LinuxWorkouts.Collections
