import Mathlib

/-!
A flat memory of 64-bit words and the unsigned 64-bit arithmetic of the programs
that run over it.

* `Mem` holds one word per word address. A load returns the unsigned value, a
  store keeps its argument modulo `2 ^ 64`, so a stored value is always one that
  fits (`load_lt`).
* `load_store`, `load_store_same`, `load_store_of_ne` are the only facts later
  proofs use about a store; `load_storeAll` is the one about a log of them.
* `byteAt` and `setByte` are the little-endian byte view. `load_setByte_of_ne`
  says which word a byte write can change, `byteAt_store_mod` what a word that was
  reduced to its low bytes shows.
* `wadd` and `wsub` are addition and subtraction of `size_t` values.
-/

namespace LinuxWorkouts.WordMemory

/-- One 64-bit word for every word address. -/
structure Mem where
  word : Nat → UInt64

def Mem.load (m : Mem) (a : Nat) : Nat := (m.word a).toNat

/-- Write the word at address `a`; the value is truncated to 64 bits. -/
def Mem.store (m : Mem) (a v : Nat) : Mem :=
  ⟨Function.update m.word a (UInt64.ofNat v)⟩

theorem load_lt (m : Mem) (a : Nat) : m.load a < 2 ^ 64 := (m.word a).toNat_lt

theorem load_store (m : Mem) (a v b : Nat) :
    (m.store a v).load b = if b = a then v % 2 ^ 64 else m.load b := by
  by_cases h : b = a
  · subst h
    simp [Mem.store, Mem.load]
  · simp [Mem.store, Mem.load, h]

variable {m : Mem} {a b : Nat}

theorem load_store_same {v : Nat} (h : v < 2 ^ 64) : (m.store a v).load a = v := by
  rw [load_store, if_pos rfl, Nat.mod_eq_of_lt h]

theorem load_store_of_ne {v : Nat} (h : b ≠ a) : (m.store a v).load b = m.load b := by
  rw [load_store, if_neg h]

/-! ### Several stores -/

def Mem.storeAll (m : Mem) (log : List (Nat × Nat)) : Mem :=
  log.foldl (fun m w => m.store w.1 w.2) m

@[simp] theorem storeAll_cons (m : Mem) (w : Nat × Nat) (log : List (Nat × Nat)) :
    m.storeAll (w :: log) = (m.store w.1 w.2).storeAll log := rfl

theorem storeAll_append (m : Mem) (log log' : List (Nat × Nat)) :
    m.storeAll (log ++ log') = (m.storeAll log).storeAll log' := List.foldl_append

theorem load_storeAll (m : Mem) (log : List (Nat × Nat)) (a : Nat) :
    (m.storeAll log).load a = m.load a ∨
      ∃ w ∈ log, w.1 = a ∧ (m.storeAll log).load a = w.2 % 2 ^ 64 := by
  induction log generalizing m with
  | nil => exact .inl rfl
  | cons w log ih =>
    rw [storeAll_cons]
    rcases ih (m.store w.1 w.2) with h | ⟨w', hw', ha, h⟩
    · by_cases hwa : a = w.1
      · refine .inr ⟨w, List.mem_cons_self, hwa.symm, ?_⟩
        rw [h, load_store, if_pos hwa]
      · exact .inl (h.trans (load_store_of_ne hwa))
    · exact .inr ⟨w', List.mem_cons_of_mem _ hw', ha, h⟩

theorem load_storeAll_of_forall_ne {log : List (Nat × Nat)} (h : ∀ w ∈ log, w.1 ≠ a) :
    (m.storeAll log).load a = m.load a := by
  rcases load_storeAll m log a with hsame | ⟨w, hw, ha, -⟩
  · exact hsame
  · exact absurd ha (h w hw)

/-! ### Bytes -/

/-- The byte at byte address `a`: words are little-endian and word aligned. -/
def Mem.byteAt (m : Mem) (a : Nat) : Nat := m.load (a / 8 * 8) / 256 ^ (a % 8) % 256

/-- Write the byte at byte address `a`, leaving the seven others of its word. -/
def Mem.setByte (m : Mem) (a : Nat) (b : UInt8) : Mem :=
  m.store (a / 8 * 8)
    (m.load (a / 8 * 8) - m.byteAt a * 256 ^ (a % 8) + b.toNat * 256 ^ (a % 8))

theorem load_setByte_of_ne {w : Nat} {b : UInt8} (h : w ≠ a / 8 * 8) :
    (m.setByte a b).load w = m.load w :=
  load_store_of_ne h

theorem byteAt_congr {m' : Mem} (h : m'.load (a / 8 * 8) = m.load (a / 8 * 8)) :
    m'.byteAt a = m.byteAt a := by
  rw [Mem.byteAt, h, Mem.byteAt]

theorem byteAt_of_load_zero (h : m.load (a / 8 * 8) = 0) : m.byteAt a = 0 := by
  rw [Mem.byteAt, h, Nat.zero_div, Nat.zero_mod]

theorem and_lowBytes (w k : Nat) : w &&& (256 ^ k - 1) = w % 256 ^ k := by
  have hpow : 256 ^ k = 2 ^ (8 * k) := by rw [Nat.pow_mul]
  rw [hpow, Nat.and_two_pow_sub_one_eq_mod]

theorem byte_mod_pow (w k i : Nat) :
    w % 256 ^ k / 256 ^ i % 256 = if i < k then w / 256 ^ i % 256 else 0 := by
  by_cases h : i < k
  · obtain ⟨d, rfl⟩ : ∃ d, k = i + (d + 1) := ⟨k - i - 1, by omega⟩
    rw [if_pos h, Nat.pow_add, Nat.mod_mul_right_div_self, Nat.pow_succ,
      Nat.mod_mod_of_dvd _ (Nat.dvd_mul_left _ _)]
  · have hlt : w % 256 ^ k < 256 ^ i :=
      Nat.lt_of_lt_of_le (Nat.mod_lt _ (Nat.pow_pos (by decide)))
        (Nat.pow_le_pow_right (by decide) (Nat.le_of_not_lt h))
    rw [if_neg h, Nat.div_eq_of_lt hlt]

theorem byteAt_store_mod (k j : Nat) (ha : a % 8 = 0) (hj : j < 8) :
    (m.store a (m.load a % 256 ^ k)).byteAt (a + j) = if j < k then m.byteAt (a + j) else 0 := by
  have hword : (a + j) / 8 * 8 = a := by omega
  have hoffset : (a + j) % 8 = j := by omega
  have hlt : m.load a % 256 ^ k < 2 ^ 64 := Nat.lt_of_le_of_lt (Nat.mod_le _ _) (load_lt m a)
  rw [Mem.byteAt, Mem.byteAt, hword, hoffset, load_store_same hlt, byte_mod_pow]

/-! ### Unsigned arithmetic -/

def wadd (a b : Nat) : Nat := (a + b) % 2 ^ 64

def wsub (a b : Nat) : Nat := (a + (2 ^ 64 - b % 2 ^ 64)) % 2 ^ 64

theorem wadd_of_lt (h : a + b < 2 ^ 64) : wadd a b = a + b := Nat.mod_eq_of_lt h

theorem wsub_of_le (hb : b ≤ a) (ha : a < 2 ^ 64) : wsub a b = a - b := by
  unfold wsub
  omega

end LinuxWorkouts.WordMemory
