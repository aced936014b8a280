import Mathlib

/-!
Bytes written as hexadecimal digits, in either letter case.

`nibbles` are the halves of the bytes in order; `Spells` relates a text to the bytes it stands for.
Two digits belong to one byte, so cutting a text at an even position cuts the bytes
(`Spells.drop`).
-/

namespace LinuxWorkouts.Hex

open List

def lowerDigit (n : Nat) : UInt8 := UInt8.ofNat (if n < 10 then 48 + n else 87 + n)

def upperDigit (n : Nat) : UInt8 := UInt8.ofNat (if n < 10 then 48 + n else 55 + n)

def SpellsDigit (c : UInt8) (n : Nat) : Prop := c = lowerDigit n ∨ c = upperDigit n

instance (c : UInt8) (n : Nat) : Decidable (SpellsDigit c n) := by
  unfold SpellsDigit
  infer_instance

def nibbles (bytes : List UInt8) : List Nat :=
  bytes.flatMap fun b => [b.toNat / 16, b.toNat % 16]

def Spells (hex bytes : List UInt8) : Prop := List.Forall₂ SpellsDigit hex (nibbles bytes)

instance (hex bytes : List UInt8) : Decidable (Spells hex bytes) := by
  unfold Spells
  infer_instance

def spell (bytes : List UInt8) : List UInt8 := (nibbles bytes).map lowerDigit

variable {hex bytes : List UInt8} {b : UInt8}

theorem spells_spell (bytes : List UInt8) : Spells (spell bytes) bytes := by
  rw [Spells, spell, forall₂_map_left_iff]
  exact forall₂_same.mpr fun n _ => .inl rfl

@[simp] theorem nibbles_nil : nibbles [] = [] := rfl

theorem nibbles_cons (b : UInt8) (bytes : List UInt8) :
    nibbles (b :: bytes) = b.toNat / 16 :: b.toNat % 16 :: nibbles bytes := rfl

theorem length_nibbles (bytes : List UInt8) : (nibbles bytes).length = 2 * bytes.length := by
  induction bytes with
  | nil => rfl
  | cons b bytes ih =>
    rw [nibbles_cons, length_cons, length_cons, length_cons, ih]
    omega

theorem nibbles_lt {n : Nat} (h : n ∈ nibbles bytes) : n < 16 := by
  obtain ⟨b, -, hn⟩ := mem_flatMap.mp h
  have hb : b.toNat < 256 := b.toNat_lt
  rcases mem_cons.mp hn with rfl | hn
  · omega
  · rw [mem_singleton] at hn
    omega

theorem nibbles_drop (n : Nat) (bytes : List UInt8) :
    nibbles (bytes.drop n) = (nibbles bytes).drop (2 * n) := by
  induction n generalizing bytes with
  | zero => rfl
  | succ n ih =>
    cases bytes with
    | nil => simp
    | cons b bytes => rw [drop_succ_cons, ih, nibbles_cons, Nat.mul_succ,
        drop_succ_cons, drop_succ_cons]

theorem Spells.length_eq (h : Spells hex bytes) : hex.length = 2 * bytes.length :=
  (List.Forall₂.length_eq h).trans (length_nibbles bytes)

theorem Spells.drop (h : Spells hex bytes) (n : Nat) :
    Spells (hex.drop (2 * n)) (bytes.drop n) := by
  rw [Spells, nibbles_drop]
  exact forall₂_drop (2 * n) h

end LinuxWorkouts.Hex
