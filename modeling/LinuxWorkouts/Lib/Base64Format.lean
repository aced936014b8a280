import Mathlib

/-!
The base64 encoding of RFC 4648, over any alphabet.

Three bytes are four digits of six bits each, so four characters stand for a number below
`2 ^ 24`. `encode` writes bytes with the digits of an alphabet and fills the last group with a
padding character; `decodeGroups` reads groups of four characters by the values a decoder gives
them, whatever these are. `decodeGroups_encode` puts the two together: where the decoder's values
are the right ones, the bytes come back, with a zero byte for each padding character.

`fours_induction` is the induction over the groups of a text.
-/

namespace LinuxWorkouts.Base64Format

open List

variable {α : Type*}

/-! ### Groups -/

@[elab_as_elim]
theorem fours_induction {motive : (l : List α) → l.length % 4 = 0 → Prop} (nil : motive [] rfl)
    (four : ∀ a b c d rest (h : rest.length % 4 = 0), motive rest h →
      motive (a :: b :: c :: d :: rest) (by simpa [Nat.add_assoc] using h)) :
    ∀ l h, motive l h
  | [], _ => nil
  | [_], h => absurd h (by simp)
  | [_, _], h => absurd h (by simp)
  | [_, _, _], h => absurd h (by simp)
  | a :: b :: c :: d :: rest, h => by
      have hrest : rest.length % 4 = 0 := by simpa [Nat.add_assoc] using h
      exact four a b c d rest hrest (fours_induction nil four rest hrest)

theorem exists_group {x : α} {l : List α} (hlen : l.length % 4 = 0) (hx : x ∈ l) :
    ∃ front a b c d back, l = front ++ a :: b :: c :: d :: back ∧ front.length % 4 = 0 ∧
      x ∈ [a, b, c, d] := by
  induction l, hlen using fours_induction with
  | nil => cases hx
  | four a b c d rest _ ih =>
    have hsplit : x ∈ [a, b, c, d] ∨ x ∈ rest :=
      mem_append.mp (show x ∈ [a, b, c, d] ++ rest from hx)
    rcases hsplit with hx | hx
    · exact ⟨[], a, b, c, d, rest, rfl, rfl, hx⟩
    · obtain ⟨front, a', b', c', d', back, rfl, hfront, hx⟩ := ih hx
      refine ⟨a :: b :: c :: d :: front, a', b', c', d', back, rfl, ?_, hx⟩
      simp only [length_cons]
      omega

def threeBytes (n : Nat) : List UInt8 :=
  [UInt8.ofNat (n / 2 ^ 16), UInt8.ofNat (n / 2 ^ 8), UInt8.ofNat n]

def groupValue (value : α → Nat) (a b c d : α) : Nat :=
  value a * 2 ^ 18 + value b * 2 ^ 12 + value c * 2 ^ 6 + value d

def decodeGroups (value : α → Nat) : List α → List UInt8
  | a :: b :: c :: d :: rest => threeBytes (groupValue value a b c d) ++ decodeGroups value rest
  | _ => []

@[simp] theorem decodeGroups_nil (value : α → Nat) : decodeGroups value [] = [] := rfl

theorem decodeGroups_cons (value : α → Nat) (a b c d : α) (rest : List α) :
    decodeGroups value (a :: b :: c :: d :: rest) =
      threeBytes (groupValue value a b c d) ++ decodeGroups value rest := rfl

theorem decodeGroups_append (value : α → Nat) {front : List α} (hfront : front.length % 4 = 0)
    (rest : List α) :
    decodeGroups value (front ++ rest) = decodeGroups value front ++ decodeGroups value rest := by
  induction front, hfront using fours_induction with
  | nil => rfl
  | four a b c d front _ ih =>
    rw [decodeGroups_cons, append_assoc, ← ih]
    rfl

theorem length_decodeGroups (value : α → Nat) {l : List α} (hlen : l.length % 4 = 0) :
    (decodeGroups value l).length = l.length / 4 * 3 := by
  induction l, hlen using fours_induction with
  | nil => simp
  | four a b c d rest _ ih =>
    rw [decodeGroups_cons, length_append, ih]
    simp only [threeBytes, length_cons, length_nil]
    omega

theorem take_drop_decodeGroups (value : α → Nat) {front : List α} (hfront : front.length % 4 = 0)
    (a b c d : α) (back : List α) {k length : Nat} (hk : k ≤ 3)
    (hlength : k ≤ length - front.length / 4 * 3) :
    (((decodeGroups value (front ++ a :: b :: c :: d :: back)).take length).drop
        (front.length / 4 * 3)).take k = (threeBytes (groupValue value a b c d)).take k := by
  rw [decodeGroups_append value hfront, decodeGroups_cons, drop_take,
    ← length_decodeGroups value hfront, drop_left, take_take,
    length_decodeGroups value hfront, Nat.min_eq_left hlength, take_append_of_le_length hk]

theorem decodeGroups_congr {value value' : α → Nat} {l : List α} (hlen : l.length % 4 = 0)
    (h : ∀ c ∈ l, value c = value' c) : decodeGroups value l = decodeGroups value' l := by
  induction l, hlen using fours_induction with
  | nil => rfl
  | four a b c d rest _ ih =>
    simp only [forall_mem_cons] at h
    obtain ⟨ha, hb, hc, hd, hrest⟩ := h
    rw [decodeGroups_cons, decodeGroups_cons, groupValue, groupValue, ha, hb, hc, hd, ih hrest]

/-! ### Encoding -/

variable (digit : Nat → α) (pad : α)

/-- The padded encoding: three bytes at a time, and the last one or two with padding. -/
def encode : List UInt8 → List α
  | [] => []
  | [x] => [digit (x.toNat / 4), digit (x.toNat % 4 * 16), pad, pad]
  | [x, y] =>
    [digit (x.toNat / 4), digit (x.toNat % 4 * 16 + y.toNat / 16), digit (y.toNat % 16 * 4), pad]
  | x :: y :: z :: rest =>
    digit (x.toNat / 4) :: digit (x.toNat % 4 * 16 + y.toNat / 16) ::
      digit (y.toNat % 16 * 4 + z.toNat / 64) :: digit (z.toNat % 64) :: encode rest

theorem length_encode (bytes : List UInt8) :
    (encode digit pad bytes).length = (bytes.length + 2) / 3 * 4 := by
  induction bytes using encode.induct with
  | case1 => rfl
  | case2 x => simp [encode]
  | case3 x y => simp [encode]
  | case4 x y z rest ih =>
    simp only [encode, length_cons, ih]
    omega

theorem mem_encode {bytes : List UInt8} {c : α} (h : c ∈ encode digit pad bytes) :
    c = pad ∨ ∃ k < 64, c = digit k := by
  have hbyte : ∀ x : UInt8, x.toNat < 256 := fun x => x.toNat_lt
  induction bytes using encode.induct with
  | case1 => cases h
  | case2 x =>
    have hx := hbyte x
    simp only [encode, mem_cons, not_mem_nil, or_false] at h
    rcases h with rfl | rfl | rfl | rfl
    · exact .inr ⟨_, by omega, rfl⟩
    · exact .inr ⟨_, by omega, rfl⟩
    · exact .inl rfl
    · exact .inl rfl
  | case3 x y =>
    have hx := hbyte x
    have hy := hbyte y
    simp only [encode, mem_cons, not_mem_nil, or_false] at h
    rcases h with rfl | rfl | rfl | rfl
    · exact .inr ⟨_, by omega, rfl⟩
    · exact .inr ⟨_, by omega, rfl⟩
    · exact .inr ⟨_, by omega, rfl⟩
    · exact .inl rfl
  | case4 x y z rest ih =>
    have hx := hbyte x
    have hy := hbyte y
    have hz := hbyte z
    simp only [encode, mem_cons] at h
    rcases h with rfl | rfl | rfl | rfl | h
    · exact .inr ⟨_, by omega, rfl⟩
    · exact .inr ⟨_, by omega, rfl⟩
    · exact .inr ⟨_, by omega, rfl⟩
    · exact .inr ⟨_, by omega, rfl⟩
    · exact ih h

variable {digit pad}

theorem encode_ends (hpad : ∀ k < 64, digit k ≠ pad) {bytes : List UInt8} (hne : bytes ≠ []) :
    ∃ front c d, encode digit pad bytes = front ++ [c, d] ∧
      (c = pad ↔ bytes.length % 3 = 1) ∧ (d = pad ↔ bytes.length % 3 ≠ 0) := by
  have hbyte : ∀ x : UInt8, x.toNat < 256 := fun x => x.toNat_lt
  induction bytes using encode.induct with
  | case1 => exact absurd rfl hne
  | case2 x => exact ⟨[_, _], pad, pad, rfl, by simp, by simp⟩
  | case3 x y =>
    have hy := hbyte y
    exact ⟨[_, _], _, pad, rfl, by simpa using hpad _ (by omega), by simp⟩
  | case4 x y z rest ih =>
    have hy := hbyte y
    have hz := hbyte z
    cases rest with
    | nil =>
      refine ⟨[_, _], _, _, rfl, ?_, ?_⟩
      · simpa using hpad _ (by omega)
      · simpa using hpad _ (by omega)
    | cons w rest =>
      obtain ⟨front, c, d, hend, hc, hd⟩ := ih (cons_ne_nil w rest)
      refine ⟨digit (x.toNat / 4) :: digit (x.toNat % 4 * 16 + y.toNat / 16) ::
        digit (y.toNat % 16 * 4 + z.toNat / 64) :: digit (z.toNat % 64) :: front, c, d, ?_, ?_, ?_⟩
      · rw [encode, hend]
        rfl
      · rw [hc]
        simp only [length_cons]
        omega
      · rw [hd]
        simp only [length_cons]
        omega

/-! ### The round trip -/

theorem threeBytes_of_bytes (x y z : UInt8) :
    threeBytes (x.toNat * 2 ^ 16 + y.toNat * 2 ^ 8 + z.toNat) = [x, y, z] := by
  have hx : x.toNat < 256 := x.toNat_lt
  have hy : y.toNat < 256 := y.toNat_lt
  have hz : z.toNat < 256 := z.toNat_lt
  have h16 : (x.toNat * 2 ^ 16 + y.toNat * 2 ^ 8 + z.toNat) / 2 ^ 16 = x.toNat := by omega
  have h8 : (x.toNat * 2 ^ 16 + y.toNat * 2 ^ 8 + z.toNat) / 2 ^ 8 % 256 = y.toNat := by omega
  have h0 : (x.toNat * 2 ^ 16 + y.toNat * 2 ^ 8 + z.toNat) % 256 = z.toNat := by omega
  rw [threeBytes, h16]
  refine congrArg₂ _ (UInt8.ofNat_toNat) (congrArg₂ _ ?_ (congrArg₂ _ ?_ rfl))
  · rw [← UInt8.toNat_inj, UInt8.toNat_ofNat']
    exact h8
  · rw [← UInt8.toNat_inj, UInt8.toNat_ofNat']
    exact h0

theorem decodeGroups_encode {value : α → Nat} (hdigit : ∀ k < 64, value (digit k) = k)
    (hpad : value pad = 0) (bytes : List UInt8) :
    decodeGroups value (encode digit pad bytes) =
      bytes ++ replicate ((bytes.length + 2) / 3 * 3 - bytes.length) 0 := by
  have hbyte : ∀ x : UInt8, x.toNat < 256 := fun x => x.toNat_lt
  have hzero : (0 : UInt8).toNat = 0 := rfl
  induction bytes using encode.induct with
  | case1 => rfl
  | case2 x =>
    have hx := hbyte x
    have hgroup : groupValue value (digit (x.toNat / 4)) (digit (x.toNat % 4 * 16)) pad pad =
        x.toNat * 2 ^ 16 + (0 : UInt8).toNat * 2 ^ 8 + (0 : UInt8).toNat := by
      rw [groupValue, hdigit _ (by omega), hdigit _ (by omega), hpad, hzero]
      omega
    rw [encode, decodeGroups_cons, hgroup, threeBytes_of_bytes, decodeGroups_nil]
    simp
  | case3 x y =>
    have hx := hbyte x
    have hy := hbyte y
    have hgroup : groupValue value (digit (x.toNat / 4))
        (digit (x.toNat % 4 * 16 + y.toNat / 16)) (digit (y.toNat % 16 * 4)) pad =
        x.toNat * 2 ^ 16 + y.toNat * 2 ^ 8 + (0 : UInt8).toNat := by
      rw [groupValue, hdigit _ (by omega), hdigit _ (by omega), hdigit _ (by omega), hpad, hzero]
      omega
    rw [encode, decodeGroups_cons, hgroup, threeBytes_of_bytes, decodeGroups_nil]
    simp
  | case4 x y z rest ih =>
    have hx := hbyte x
    have hy := hbyte y
    have hz := hbyte z
    have hgroup : groupValue value (digit (x.toNat / 4))
        (digit (x.toNat % 4 * 16 + y.toNat / 16)) (digit (y.toNat % 16 * 4 + z.toNat / 64))
        (digit (z.toNat % 64)) = x.toNat * 2 ^ 16 + y.toNat * 2 ^ 8 + z.toNat := by
      rw [groupValue, hdigit _ (by omega), hdigit _ (by omega), hdigit _ (by omega),
        hdigit _ (by omega)]
      omega
    have hrest : ((x :: y :: z :: rest).length + 2) / 3 * 3 - (x :: y :: z :: rest).length =
        (rest.length + 2) / 3 * 3 - rest.length := by
      simp only [length_cons]
      omega
    rw [encode, decodeGroups_cons, hgroup, threeBytes_of_bytes, ih, hrest]
    rfl

end LinuxWorkouts.Base64Format
