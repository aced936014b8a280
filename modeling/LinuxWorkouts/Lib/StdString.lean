import Mathlib

/-!
The operations of `std::string` whose results depend on positions.

A string is the list of its bytes. `find` returns a position, or `none` for
`std::string::npos`; `past p n` is `p + n` as `size_t` arithmetic gives it, so that `npos + 1` is
`0`, and `sizeSub` is the subtraction that wraps. `substr` throws `std::out_of_range` behind the
end of the string; `charAt` is `operator[]`, which is undefined behind the terminating zero.
-/

namespace LinuxWorkouts.StdString

open List

/-- What goes wrong in a string operation, or in counting the characters of one. -/
inductive Fault where
  | outOfRange
  | badIndex
  | overflow
deriving DecidableEq, Repr

def find (s : List UInt8) (c : UInt8) (pos : Nat) : Option Nat :=
  if c ∈ s.drop pos then some (pos + (s.drop pos).idxOf c) else none

def past (p : Option Nat) (n : Nat) : Nat :=
  match p with
  | some p => p + n
  | none => n - 1

def sizeSub (a b : Nat) : Nat := if b ≤ a then a - b else 2 ^ 64 - (b - a)

def upTo (p : Option Nat) (n : Nat) : Nat :=
  match p with
  | some p => sizeSub p n
  | none => 2 ^ 64 - 1 - n

def substr (s : List UInt8) (pos count : Nat) : Except Fault (List UInt8) :=
  if pos ≤ s.length then .ok ((s.drop pos).take count) else .error .outOfRange

def charAt (s : List UInt8) (i : Nat) : Except Fault UInt8 :=
  match s[i]? with
  | some c => .ok c
  | none => if i = s.length then .ok 0 else .error .badIndex

def back (s : List UInt8) : Except Fault UInt8 := charAt s (sizeSub s.length 1)

variable {ε α β : Type*} {x : Except ε α}

theorem bind_eq_ok {f : α → Except ε β} {b : β} :
    x.bind f = .ok b ↔ ∃ a, x = .ok a ∧ f a = .ok b := by
  cases x with
  | error e =>
    constructor
    · intro h
      cases h
    · rintro ⟨a, h, -⟩
      cases h
  | ok a =>
    constructor
    · exact fun h => ⟨a, rfl, h⟩
    · rintro ⟨a', h, hf⟩
      cases h
      exact hf

def Returns {ε α : Type*} (x : Except ε α) : Prop := ∃ a, x = .ok a

theorem returns_ok (a : α) : Returns (.ok a : Except ε α) := ⟨a, rfl⟩

theorem not_returns_error (e : ε) : ¬ Returns (.error e : Except ε α) := by
  rintro ⟨a, h⟩
  cases h

theorem returns_bind {f : α → Except ε β} :
    Returns (x.bind f) ↔ ∃ a, x = .ok a ∧ Returns (f a) := by
  constructor
  · rintro ⟨b, hb⟩
    obtain ⟨a, ha, hf⟩ := bind_eq_ok.mp hb
    exact ⟨a, ha, b, hf⟩
  · rintro ⟨a, ha, b, hb⟩
    exact ⟨b, bind_eq_ok.mpr ⟨a, ha, hb⟩⟩

theorem returns_map {f : α → β} : Returns (x.map f) ↔ Returns x := by
  cases x with
  | error e => exact iff_of_false (not_returns_error e) (not_returns_error e)
  | ok a => exact iff_of_true (returns_ok _) (returns_ok a)

theorem returns_foldlM {f : β → α → Except ε β} {good : α → Prop}
    (hf : ∀ b x, Returns (f b x) ↔ good x) (xs : List α) (b : β) :
    Returns (xs.foldlM f b) ↔ ∀ x ∈ xs, good x := by
  induction xs generalizing b with
  | nil => exact iff_of_true (returns_ok b) fun x hx => absurd hx not_mem_nil
  | cons x xs ih =>
    rw [forall_mem_cons, ← hf b x]
    constructor
    · intro h
      obtain ⟨c, hc, h⟩ := returns_bind.mp h
      exact ⟨⟨c, hc⟩, (ih c).mp h⟩
    · rintro ⟨⟨c, hc⟩, h⟩
      exact returns_bind.mpr ⟨c, hc, (ih c).mpr h⟩

section Lemmas

variable {s t : List UInt8} {c : UInt8} {pos count : Nat}

theorem find_append_cons (hc : c ∉ s) : find (s ++ c :: t) c 0 = some s.length := by
  rw [find, drop_zero, if_pos (by simp), idxOf_append_of_notMem hc, idxOf_cons_self]
  simp

theorem find_append_append_cons {p : List UInt8} (hc : c ∉ s) :
    find (p ++ (s ++ c :: t)) c p.length = some (p.length + s.length) := by
  rw [find, drop_left, if_pos (by simp), idxOf_append_of_notMem hc, idxOf_cons_self, Nat.add_zero]

theorem find_eq_none (hc : c ∉ s) : find s c pos = none := if_neg fun h => hc (mem_of_mem_drop h)

theorem substr_of_le (h : pos ≤ s.length) : substr s pos count = .ok ((s.drop pos).take count) :=
  if_pos h

theorem substr_middle (s t rest : List UInt8) :
    substr (s ++ (t ++ rest)) s.length t.length = .ok t := by
  rw [substr_of_le (by simp), drop_left, take_left]

theorem substr_tail (s t : List UInt8) (h : t.length ≤ count) :
    substr (s ++ t) s.length count = .ok t := by
  rw [substr_of_le (by simp), drop_left, take_of_length_le h]

theorem returns_substr : Returns (substr s pos count) ↔ pos ≤ s.length := by
  rw [substr]
  split
  · next h => exact iff_of_true (returns_ok _) h
  · next h => exact iff_of_false (not_returns_error _) h

theorem find_lt {p : Nat} (h : find s c pos = some p) : p < s.length ∧ pos ≤ p := by
  rw [find] at h
  split at h
  · next hmem =>
      cases h
      have hlt := idxOf_lt_length_iff.mpr hmem
      rw [length_drop] at hlt
      omega
  · cases h

theorem past_one_le : past (find s c pos) 1 ≤ s.length := by
  cases h : find s c pos with
  | none => exact Nat.zero_le _
  | some p => exact (find_lt h).1

theorem back_concat : back (s ++ [c]) = .ok c := by
  rw [back, charAt, length_append, length_singleton, sizeSub, if_pos (by omega)]
  simp

theorem back_nil : back [] = .error .badIndex := by
  rfl

end Lemmas

end LinuxWorkouts.StdString
