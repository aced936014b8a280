import LinuxWorkouts.Tcp.ConnPool

/-!
The slots of the connection pool over the whole word.

`free_space_bitmap` has 63 bits that can be set, and `THREAD_LIMIT` workers would use all of them.
The mask is an `int`, though, and the search looks at 32 bits. For each position of the lowest bit
that is set, it is told here whether `book_pos` takes that bit and no other, whether `unbook_pos`
gives back that bit and no other, and whether the one undoes the other.
-/

namespace LinuxWorkouts.ConnPool

def Lowest (bitmap : BitVec 64) (k : Nat) : Prop :=
  bitmap.getLsbD k = true ∧ ∀ i < k, bitmap.getLsbD i = false

def BooksOnly (bitmap : BitVec 64) (k : Nat) : Prop :=
  ∃ bitmap', bookPos bitmap = some (k, bitmap') ∧
    ∀ i, bitmap'.getLsbD i = (bitmap.getLsbD i && decide (i ≠ k))

def UnbooksOnly (bitmap : BitVec 64) (k : Nat) : Prop :=
  ∃ bitmap', unbookPos bitmap k = some bitmap' ∧
    ∀ i, bitmap'.getLsbD i = (bitmap.getLsbD i || decide (i = k))

/-- `unbook_pos` of what `book_pos` has returned gives the word back. -/
def Restores (bitmap : BitVec 64) : Prop :=
  ∃ k bitmap', bookPos bitmap = some (k, bitmap') ∧ unbookPos bitmap' k = some bitmap

section Word

variable {bitmap : BitVec 64} {k : Nat}

theorem exists_lowest (hne : bitmap ≠ 0#64) : ∃ k, Lowest bitmap k :=
  ⟨bitmap.ctz.toNat, BitVec.getLsbD_true_ctz_of_ne_zero hne,
    fun _ hi => BitVec.getLsbD_false_of_lt_ctz hi⟩

section

variable (h : Lowest bitmap k)
include h

theorem Lowest.lt : k < 64 := by
  by_contra hge
  have hbit := h.1
  rw [BitVec.getLsbD_of_ge _ _ (by omega)] at hbit
  cases hbit

theorem Lowest.bookPos_eq (hk : k < 32) :
    ∃ bitmap', bookPos bitmap = some (k, bitmap') ∧
      ∀ i, bitmap'.getLsbD i = (bitmap.getLsbD i && decide (i ≠ k ∧ (k = 31 → i < 31))) := by
  obtain ⟨k', bitmap', hbook, hle, hset, hbits⟩ := bookPos_lowest hk h.1
  have hsame : k' = k := by
    by_contra hne
    have hclear := h.2 k' (by omega)
    rw [hset] at hclear
    cases hclear
  subst hsame
  exact ⟨bitmap', hbook, hbits⟩

theorem Lowest.bookPos_undefined (hk : 32 ≤ k) : bookPos bitmap = none := by
  have hzero : bitmap.setWidth 32 = 0#32 := by
    apply BitVec.eq_of_getLsbD_eq
    intro i hi
    rw [BitVec.getLsbD_setWidth, h.2 i (by omega)]
    simp
  simp only [bookPos, builtinCtz, if_pos hzero, Option.bind_eq_bind, Option.bind_none]

theorem Lowest.booksOnly_iff : BooksOnly bitmap k ↔ k < 31 ∨ bitmap = BitVec.twoPow 64 31 := by
  have hlt := h.lt
  constructor
  · rintro ⟨bitmap₁, hbook, honly⟩
    by_cases hk : k < 31
    · exact .inl hk
    · have hlow : k < 32 := by
        by_contra hge
        rw [h.bookPos_undefined (by omega)] at hbook
        cases hbook
      obtain ⟨bitmap₂, hbook', hbits⟩ := h.bookPos_eq hlow
      rw [hbook] at hbook'
      cases hbook'
      obtain rfl : k = 31 := by omega
      refine .inr (BitVec.eq_of_getLsbD_eq fun i hi => ?_)
      rw [BitVec.getLsbD_twoPow]
      rcases Nat.lt_trichotomy i 31 with hbelow | rfl | habove
      · rw [h.2 i hbelow]
        simp
        omega
      · simp [h.1]
      · -- the two accounts of the new word differ in this bit unless it was clear
        have hbit := (honly i).symm.trans (hbits i)
        have hcond : ¬ (i ≠ 31 ∧ (31 = 31 → i < 31)) := by omega
        rw [decide_eq_true (show i ≠ 31 by omega), decide_eq_false hcond, Bool.and_true,
          Bool.and_false] at hbit
        rw [hbit]
        simp
        omega
  · rintro (hk | hword)
    · obtain ⟨bitmap', hbook, hbits⟩ := h.bookPos_eq (by omega)
      refine ⟨bitmap', hbook, fun i => ?_⟩
      rw [hbits, decide_eq_decide.mpr]
      exact ⟨fun hi => hi.1, fun hi => ⟨hi, fun hk31 => by omega⟩⟩
    · have hset : ∀ i, bitmap.getLsbD i = true ↔ i = 31 := by
        intro i
        rw [hword, BitVec.getLsbD_twoPow]
        simp
        omega
      obtain rfl : k = 31 := (hset k).mp h.1
      obtain ⟨bitmap', hbook, hbits⟩ := h.bookPos_eq (by omega)
      refine ⟨bitmap', hbook, fun i => ?_⟩
      rw [hbits]
      by_cases hi : i = 31
      · simp [hi]
      · rw [Bool.eq_false_iff.mpr (fun hbit => hi ((hset i).mp hbit)), Bool.false_and,
          Bool.false_and]

end

theorem unbooksOnly_iff (bitmap : BitVec 64) (k : Nat) :
    UnbooksOnly bitmap k ↔
      k < 31 ∨ k = 31 ∧ ∀ i, 31 < i → i < 64 → bitmap.getLsbD i = true := by
  by_cases hk : k < 32
  · have hset : UnbooksOnly bitmap k ↔ ∀ i,
        (bitmap.getLsbD i || decide (i = k ∨ k = 31 ∧ 31 ≤ i ∧ i < 64)) =
          (bitmap.getLsbD i || decide (i = k)) := by
      simp only [UnbooksOnly, unbookPos_eq hk, Option.some.injEq, exists_eq_left', getLsbD_set hk]
    rw [hset]
    constructor
    · intro honly
      by_cases hk31 : k = 31
      · refine .inr ⟨hk31, fun i habove hi => ?_⟩
        have hbit := honly i
        have hcond : i = k ∨ k = 31 ∧ 31 ≤ i ∧ i < 64 := .inr ⟨hk31, by omega, hi⟩
        rw [decide_eq_true hcond, decide_eq_false (show ¬ i = k by omega), Bool.or_true,
          Bool.or_false] at hbit
        exact hbit.symm
      · exact .inl (by omega)
    · rintro (hlow | ⟨rfl, habove⟩) i
      · rw [decide_eq_decide.mpr]
        omega
      · by_cases hi : 31 < i ∧ i < 64
        · rw [habove i hi.1 hi.2, Bool.true_or, Bool.true_or]
        · rw [decide_eq_decide.mpr]
          omega
  · constructor
    · rintro ⟨bitmap', hunbook, -⟩
      simp only [unbookPos, intMask, if_neg hk, Option.bind_eq_bind, Option.bind_none,
        reduceCtorEq] at hunbook
    · omega

theorem Lowest.restores_iff (h : Lowest bitmap k) (h63 : bitmap.getLsbD 63 = false) :
    Restores bitmap ↔ k < 31 := by
  constructor
  · rintro ⟨k', bitmap', hbook, hunbook⟩
    have hlow : k < 32 := by
      by_contra hge
      rw [h.bookPos_undefined (by omega)] at hbook
      cases hbook
    obtain ⟨bitmap₂, hbook', -⟩ := h.bookPos_eq hlow
    rw [hbook] at hbook'
    cases hbook'
    rw [unbookPos_eq hlow, Option.some.injEq] at hunbook
    by_contra hge
    have hbit : bitmap.getLsbD 63 = true := by
      rw [← hunbook, getLsbD_set hlow, Bool.or_eq_true, decide_eq_true_eq]
      omega
    rw [h63] at hbit
    cases hbit
  · intro hk
    obtain ⟨bitmap', hbook, hbits⟩ := h.bookPos_eq (by omega)
    refine ⟨k, bitmap', hbook, ?_⟩
    rw [unbookPos_eq (by omega), Option.some.injEq]
    apply BitVec.eq_of_getLsbD_eq
    intro i _
    rw [getLsbD_set (by omega), hbits]
    by_cases hik : i = k
    · simp [hik, h.1]
    · have hsign : ¬ k = 31 := by omega
      simp [hik, hsign]

end Word

/-- **Slots over the whole word.** Of the 63 positions, the 31 below the sign bit of the mask are
handled right; the sign bit itself only in a word that has no other bit, or for giving back in one
that has all the higher ones; and the rest never. -/
theorem bitmap_slots_iff (bitmap : BitVec 64) (hne : bitmap ≠ 0#64)
    (h63 : bitmap.getLsbD 63 = false) (other : BitVec 64) (j : Nat) :
    (∃ k ≤ 62, Lowest bitmap k ∧ (BooksOnly bitmap k ↔ k < 31 ∨ bitmap = BitVec.twoPow 64 31) ∧
      (Restores bitmap ↔ k < 31)) ∧
    (UnbooksOnly other j ↔
      j < 31 ∨ j = 31 ∧ ∀ i, 31 < i → i < 64 → other.getLsbD i = true) := by
  obtain ⟨k, hk⟩ := exists_lowest hne
  have hle : k ≤ 62 := by
    have hlt := hk.lt
    by_contra hgt
    obtain rfl : k = 63 := by omega
    rw [hk.1] at h63
    cases h63
  exact ⟨⟨k, hle, hk, hk.booksOnly_iff, hk.restores_iff h63⟩, unbooksOnly_iff other j⟩

/-- In a pool of which the slots 0 to 2 are taken, slot 3 is taken and given back, and slot 2 is
given back, without another bit being lost. -/
theorem bitmap_slots_iff_three :
    BooksOnly (INT64_MAX - 7#64) 3 ∧ Restores (INT64_MAX - 7#64) ∧
      UnbooksOnly (INT64_MAX - 7#64) 2 := by
  obtain ⟨⟨k, hk, hlowest, hbooks, hrestores⟩, hunbooks⟩ :=
    bitmap_slots_iff (INT64_MAX - 7#64) (by decide) (by decide) (INT64_MAX - 7#64) 2
  obtain rfl : k = 3 := by
    have hthree : Lowest (INT64_MAX - 7#64) 3 := ⟨by decide, by decide⟩
    rcases Nat.lt_trichotomy k 3 with hlt | heq | hgt
    · exact absurd ((hthree.2 k hlt).symm.trans hlowest.1) Bool.false_ne_true
    · exact heq
    · exact absurd ((hlowest.2 3 hgt).symm.trans hthree.1) Bool.false_ne_true
  exact ⟨hbooks.mpr (.inl (by decide)), hrestores.mpr (by decide), hunbooks.mpr (.inl (by decide))⟩

/-- With the slots 0 to 30 taken, the next connection takes all the others, and giving slot 31 back
sets the bit 63 too. With the slots 0 to 31 taken the next call is undefined. -/
theorem high_slots_lost :
    bookPos (INT64_MAX - BitVec.ofNat 64 (2 ^ 31 - 1)) = some (31, 0#64) ∧
      unbookPos 0#64 31 = some (BitVec.ofNat 64 (2 ^ 64 - 2 ^ 31)) ∧
      bookPos (INT64_MAX - BitVec.ofNat 64 (2 ^ 32 - 1)) = none := by
  decide +kernel

end LinuxWorkouts.ConnPool
