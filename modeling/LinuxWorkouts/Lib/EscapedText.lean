import LinuxWorkouts.Lib.Hex

/-!
Bytes written as characters and escapes.

A byte is written as a character that stands for it, or as a mark with two hexadecimal digits
in either letter case; which characters stand for which bytes is a parameter. `Written` is a byte
together with a way to write it, so a list of them is a byte string with one of its encodings.

`decode_textOf` is the rule for a decoder that keeps in step with the text, and `flatMap_eq_map_iff`
the one for a decoder that puts out something for every byte.
-/

namespace LinuxWorkouts.EscapedText

open Hex List

variable {stands : UInt8 → UInt8 → Prop}

/-- A byte and how it is written. -/
inductive Written (stands : UInt8 → UInt8 → Prop)
  | plain (c b : UInt8) (h : stands c b)
  | escaped (b high low : UInt8) (hhigh : SpellsDigit high (b.toNat / 16))
      (hlow : SpellsDigit low (b.toNat % 16))

def Written.byte : Written stands → UInt8
  | .plain _ b _ => b
  | .escaped b _ _ _ _ => b

def Written.text (mark : UInt8) : Written stands → List UInt8
  | .plain c _ _ => [c]
  | .escaped _ high low _ _ => [mark, high, low]

def bytesOf (ws : List (Written stands)) : List UInt8 := ws.map Written.byte

def textOf (mark : UInt8) (ws : List (Written stands)) : List UInt8 :=
  ws.flatMap (Written.text mark)

theorem decode_textOf {σ : Type*} {decode : σ → List UInt8 → List UInt8} {mark : UInt8}
    (hnil : ∀ s, decode s [] = [])
    (hplain : ∀ s c b rest, stands c b → ∃ s', decode s (c :: rest) = b :: decode s' rest)
    (hescaped : ∀ s (b high low : UInt8) rest, SpellsDigit high (b.toNat / 16) →
      SpellsDigit low (b.toNat % 16) →
      ∃ s', decode s (mark :: high :: low :: rest) = b :: decode s' rest)
    (s : σ) (ws : List (Written stands)) : decode s (textOf mark ws) = bytesOf ws := by
  induction ws generalizing s with
  | nil => exact hnil s
  | cons w ws ih =>
    cases w with
    | plain c b h =>
      obtain ⟨s', hs'⟩ := hplain s c b (textOf mark ws) h
      exact hs'.trans (congrArg (b :: ·) (ih s'))
    | escaped b high low hhigh hlow =>
      obtain ⟨s', hs'⟩ := hescaped s b high low (textOf mark ws) hhigh hlow
      exact hs'.trans (congrArg (b :: ·) (ih s'))

theorem flatMap_eq_map_iff {α β : Type*} {f : α → List β} {g : α → β} (hf : ∀ a, f a ≠ [])
    (l : List α) : l.flatMap f = l.map g ↔ ∀ a ∈ l, f a = [g a] := by
  have hlength : ∀ l : List α, l.length ≤ (l.flatMap f).length := by
    intro l
    induction l with
    | nil => exact Nat.zero_le _
    | cons a l ih =>
      have hpos := length_pos_of_ne_nil (hf a)
      rw [flatMap_cons, length_append, length_cons]
      omega
  induction l with
  | nil => simp
  | cons a l ih =>
    rw [forall_mem_cons, flatMap_cons, map_cons]
    constructor
    · intro h
      cases hfa : f a with
      | nil => exact absurd hfa (hf a)
      | cons b bs =>
        rw [hfa, cons_append, cons.injEq] at h
        obtain ⟨rfl, h⟩ := h
        -- a second byte for `a` would be one too many
        have hcount := congrArg length h
        have hrest := hlength l
        rw [length_append, length_map] at hcount
        have hbs : bs = [] := length_eq_zero_iff.mp (by omega)
        subst hbs
        exact ⟨rfl, ih.mp h⟩
    · rintro ⟨ha, h⟩
      rw [ha, ih.mpr h]
      rfl

end LinuxWorkouts.EscapedText
