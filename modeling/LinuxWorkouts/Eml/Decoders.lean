import LinuxWorkouts.Eml.Base64
import LinuxWorkouts.Lib.Base64Format

/-!
The base64 decoders with every access to memory (`base64_to_bytes.cpp`).

In `Checked` the two decoders read the text by its index and the table by the character. An index
outside of either is a fault, and so is an `int` counter that overflows. The table is whatever
`decoding_table` points to; `buildDecodingTable` gives the one that the program makes. `payload` is
what both of them compute, and `base64DecodeToString_ok_iff` and `base64DecodeToBytes_ok_iff` say
when they do.

Where these decoders return, the ones that the parser's model uses return the same
(`decodeToString_of_checked`, `decodeToBytes_of_checked`).
-/

namespace LinuxWorkouts.Eml

open Ascii StdString Base64Format List

/-! ### The code -/

namespace Checked

def tableAt (table : Int → UInt8) (c : UInt8) : Except Fault UInt8 :=
  if 0 ≤ c.toInt8.toInt ∧ c.toInt8.toInt < 256 then .ok (table c.toInt8.toInt) else .error .badIndex

/-- `n++` of an `int` that is not negative. -/
def increment (n : Nat) : Except Fault Nat :=
  if n + 1 < 2 ^ 31 then .ok (n + 1) else .error .overflow

/-- `data[i] == '=' ? 0 & i++ : decoding_table[data[i++]]`, with the `i` behind it. -/
def sextetAt (table : Int → UInt8) (data : List UInt8) (i : Nat) : Except Fault (UInt32 × Nat) := do
  let c ← charAt data i
  let next ← increment i
  if c = ofChar '=' then .ok (0, next)
  else do
    let entry ← tableAt table c
    .ok (UInt32.ofInt entry.toInt8.toInt, next)

def tripleAt (table : Int → UInt8) (data : List UInt8) (i : Nat) : Except Fault (UInt32 × Nat) := do
  let (a, i) ← sextetAt table data i
  let (b, i) ← sextetAt table data i
  let (c, i) ← sextetAt table data i
  let (d, i) ← sextetAt table data i
  .ok ((a <<< 18) + (b <<< 12) + (c <<< 6) + d, i)

/-- `output_length`, computed before the loops. -/
def outputLength (data : List UInt8) : Except Fault Nat := do
  let length := data.length / 4 * 3
  let last ← charAt data (sizeSub data.length 1)
  let length := if last = ofChar '=' then sizeSub length 1 else length
  let before ← charAt data (sizeSub data.length 2)
  .ok (if before = ofChar '=' then sizeSub length 1 else length)

def push (outputLength : Nat) (s : List UInt8 × Nat) (x : UInt8) :
    Except Fault (List UInt8 × Nat) := do
  let j ← increment s.2
  .ok (if s.2 < outputLength then s.1 ++ [x] else s.1, j)

/-- `if (j < output_length) decoded_data[j++] = x` -/
def store (outputLength : Nat) (s : List UInt8 × Nat) (x : UInt8) :
    Except Fault (List UInt8 × Nat) :=
  if s.2 < outputLength then do
    let j ← increment s.2
    .ok (s.1.set s.2 x, j)
  else .ok s

/-- The loop of both decoders; `put` is what they do with a byte. The index grows in every round, so
`data.length` rounds are enough. -/
def decodeLoop (table : Int → UInt8) (data : List UInt8)
    (put : List UInt8 × Nat → UInt8 → Except Fault (List UInt8 × Nat)) :
    Nat → Nat → List UInt8 × Nat → Except Fault (List UInt8)
  | 0, _, s => .ok s.1
  | rounds + 1, i, s =>
    if i < data.length then do
      let (triple, i) ← tripleAt table data i
      let s ← put s (triple >>> 16).toUInt8
      let s ← put s (triple >>> 8).toUInt8
      let s ← put s triple.toUInt8
      decodeLoop table data put rounds i s
    else .ok s.1

def base64DecodeToString (table : Int → UInt8) (data : List UInt8) : Except Fault (List UInt8) :=
  if data.length % 4 ≠ 0 then .ok []
  else do
    let length ← outputLength data
    decodeLoop table data (push length) data.length 0 ([], 0)

def base64DecodeToBytes (table : Int → UInt8) (data : List UInt8) : Except Fault (List UInt8) :=
  if data.length % 4 ≠ 0 then .ok []
  else do
    let length ← outputLength data
    decodeLoop table data (store length) data.length 0 (replicate length 0, 0)

end Checked

/-! ### What they compute -/

def charValue (table : Int → UInt8) (c : UInt8) : Nat :=
  if c = ofChar '=' then 0 else (UInt32.ofInt (table c.toInt8.toInt).toInt8.toInt).toNat

def padCount (data : List UInt8) : Nat := (data.reverse.take 2).count (ofChar '=')

def payload (table : Int → UInt8) (data : List UInt8) : List UInt8 :=
  (decodeGroups (charValue table) data).take (data.length / 4 * 3 - padCount data)

/-- The text is decoded to `bytes`: not a whole number of groups, or 7-bit characters that an `int`
can count. -/
def Decodes (table : Int → UInt8) (data bytes : List UInt8) : Prop :=
  if data.length % 4 ≠ 0 then bytes = []
  else data ≠ [] ∧ data.length < 2 ^ 31 ∧ (∀ c ∈ data, c < 128) ∧ bytes = payload table data

section Loop

variable {table : Int → UInt8} {data : List UInt8} {c : UInt8} {i : Nat}

theorem toInt8_nonneg_iff (c : UInt8) : 0 ≤ c.toInt8.toInt ↔ c < 128 := by
  have hlt : c.toBitVec.toNat < 256 := c.toBitVec.isLt
  have hint : c.toInt8.toInt = c.toBitVec.toInt := rfl
  have hc : c < 128 ↔ c.toBitVec.toNat < 128 := Iff.rfl
  rw [hint, hc, BitVec.toInt_eq_toNat_cond]
  split <;> omega

theorem toInt8_lt (c : UInt8) : c.toInt8.toInt < 256 := by
  have h := c.toInt8.toInt_lt
  omega

theorem charAt_append (front rest : List UInt8) (c : UInt8) (n : Nat) (hn : n = front.length) :
    charAt (front ++ c :: rest) n = .ok c := by
  subst hn
  rw [charAt, getElem?_append_right (Nat.le_refl _), Nat.sub_self]
  rfl

theorem Checked.increment_eq {n : Nat} (h : n + 1 < 2 ^ 31) : Checked.increment n = .ok (n + 1) :=
  if_pos h

theorem Checked.sextetAt_ok_iff {p : UInt32 × Nat} (hc : charAt data i = .ok c) :
    Checked.sextetAt table data i = .ok p ↔
      c < 128 ∧ i + 1 < 2 ^ 31 ∧ p = (UInt32.ofNat (charValue table c), i + 1) := by
  have hpad : ofChar '=' < 128 := by decide
  rw [Checked.sextetAt, hc, charValue]
  simp only [bind, Except.bind]
  by_cases hi : i + 1 < 2 ^ 31
  · simp only [Checked.increment_eq hi, hi, true_and]
    by_cases heq : c = ofChar '='
    · simp [heq, hpad, eq_comm]
    · simp only [if_neg heq, Checked.tableAt]
      by_cases h7 : c < 128
      · simp [(toInt8_nonneg_iff c).mpr h7, toInt8_lt c, h7, eq_comm]
      · rw [if_neg fun h => h7 ((toInt8_nonneg_iff c).mp h.1)]
        simp [h7]
  · simp only [Checked.increment, hi, if_false, false_and, and_false, reduceCtorEq]

theorem triple_bytes (a b c d : Nat) :
    let t := (UInt32.ofNat a <<< 18) + (UInt32.ofNat b <<< 12) + (UInt32.ofNat c <<< 6) +
        UInt32.ofNat d
    [(t >>> 16).toUInt8, (t >>> 8).toUInt8, t.toUInt8] =
      threeBytes (a * 2 ^ 18 + b * 2 ^ 12 + c * 2 ^ 6 + d) := by
  intro t
  have ht : t.toNat = (a * 2 ^ 18 + b * 2 ^ 12 + c * 2 ^ 6 + d) % 2 ^ 32 := by
    have h18 : UInt32.toNat 18 % 32 = 18 := rfl
    have h12 : UInt32.toNat 12 % 32 = 12 := rfl
    have h6 : UInt32.toNat 6 % 32 = 6 := rfl
    simp only [t, UInt32.toNat_add, UInt32.toNat_shiftLeft, UInt32.toNat_ofNat', Nat.shiftLeft_eq,
      h18, h12, h6]
    omega
  have h16 : (t >>> 16).toNat = t.toNat / 2 ^ 16 := by
    rw [UInt32.toNat_shiftRight, Nat.shiftRight_eq_div_pow]
    rfl
  have h8 : (t >>> 8).toNat = t.toNat / 2 ^ 8 := by
    rw [UInt32.toNat_shiftRight, Nat.shiftRight_eq_div_pow]
    rfl
  rw [threeBytes]
  refine congrArg₂ _ ?_ (congrArg₂ _ ?_ (congrArg₂ _ ?_ rfl))
  · rw [← UInt8.toNat_inj, UInt32.toNat_toUInt8, UInt8.toNat_ofNat', h16, ht]
    omega
  · rw [← UInt8.toNat_inj, UInt32.toNat_toUInt8, UInt8.toNat_ofNat', h8, ht]
    omega
  · rw [← UInt8.toNat_inj, UInt32.toNat_toUInt8, UInt8.toNat_ofNat', ht]
    omega

theorem Checked.tripleAt_ok_iff {front rest : List UInt8} {a b c d : UInt8} {p : UInt32 × Nat} :
    Checked.tripleAt table (front ++ a :: b :: c :: d :: rest) front.length = .ok p ↔
      (∀ x ∈ [a, b, c, d], x < 128) ∧ front.length + 4 < 2 ^ 31 ∧
        p = ((UInt32.ofNat (charValue table a) <<< 18) + (UInt32.ofNat (charValue table b) <<< 12) +
          (UInt32.ofNat (charValue table c) <<< 6) + UInt32.ofNat (charValue table d),
          front.length + 4) := by
  have ha := charAt_append front (b :: c :: d :: rest) a _ rfl
  have hb := charAt_append (front ++ [a]) (c :: d :: rest) b (front.length + 1) (by simp)
  have hc := charAt_append (front ++ [a, b]) (d :: rest) c (front.length + 2) (by simp)
  have hd := charAt_append (front ++ [a, b, c]) rest d (front.length + 3) (by simp)
  simp only [append_assoc, cons_append, nil_append] at hb hc hd
  simp only [forall_mem_cons, not_mem_nil, false_implies, implies_true, and_true]
  constructor
  · intro h
    obtain ⟨q, h1, h⟩ := bind_eq_ok.mp h
    obtain ⟨ha, -, rfl⟩ := (Checked.sextetAt_ok_iff ha).mp h1
    obtain ⟨q, h2, h⟩ := bind_eq_ok.mp h
    obtain ⟨hb, -, rfl⟩ := (Checked.sextetAt_ok_iff hb).mp h2
    obtain ⟨q, h3, h⟩ := bind_eq_ok.mp h
    obtain ⟨hc, -, rfl⟩ := (Checked.sextetAt_ok_iff hc).mp h3
    obtain ⟨q, h4, h⟩ := bind_eq_ok.mp h
    obtain ⟨hd, hlt, rfl⟩ := (Checked.sextetAt_ok_iff hd).mp h4
    exact ⟨⟨ha, hb, hc, hd⟩, hlt, (Except.ok.inj h).symm⟩
  · rintro ⟨⟨ha', hb', hc', hd'⟩, hlt, rfl⟩
    refine bind_eq_ok.mpr ⟨_, (Checked.sextetAt_ok_iff ha).mpr ⟨ha', by omega, rfl⟩, ?_⟩
    refine bind_eq_ok.mpr ⟨_, (Checked.sextetAt_ok_iff hb).mpr ⟨hb', by omega, rfl⟩, ?_⟩
    refine bind_eq_ok.mpr ⟨_, (Checked.sextetAt_ok_iff hc).mpr ⟨hc', by omega, rfl⟩, ?_⟩
    exact bind_eq_ok.mpr ⟨_, (Checked.sextetAt_ok_iff hd).mpr ⟨hd', by omega, rfl⟩, rfl⟩

theorem Checked.decodeLoop_ok_iff (table : Int → UInt8)
    {put : List UInt8 × Nat → UInt8 → Except Fault (List UInt8 × Nat)}
    {state : List UInt8 → List UInt8 × Nat}
    (hput : ∀ stored x, stored.length + 1 < 2 ^ 31 →
      put (state stored) x = .ok (state (stored ++ [x])))
    {rest : List UInt8} (hlen : rest.length % 4 = 0) (front stored bytes : List UInt8)
    {rounds : Nat}
    (hrounds : rest.length ≤ rounds) (hfront : front.length < 2 ^ 31)
    (hstored : stored.length ≤ front.length) :
    Checked.decodeLoop table (front ++ rest) put rounds front.length (state stored) = .ok bytes ↔
      front.length + rest.length < 2 ^ 31 ∧ (∀ c ∈ rest, c < 128) ∧
        bytes = (state (stored ++ decodeGroups (charValue table) rest)).1 := by
  induction rest, hlen using fours_induction generalizing front stored rounds with
  | nil =>
    rw [length_nil, Nat.add_zero, and_iff_right hfront]
    cases rounds with
    | zero => simp [Checked.decodeLoop, eq_comm]
    | succ rounds => simp [Checked.decodeLoop, eq_comm]
  | four a b c d rest hlen ih =>
    cases rounds with
    | zero => simp at hrounds
    | succ rounds =>
      have hin : front.length < (front ++ a :: b :: c :: d :: rest).length := by simp
      have hnext : front ++ a :: b :: c :: d :: rest = (front ++ [a, b, c, d]) ++ rest := by simp
      have hindex : front.length + 4 = (front ++ [a, b, c, d]).length := by simp
      have hleft : rest.length ≤ rounds := by
        simp only [length_cons] at hrounds
        omega
      have hgroup := triple_bytes (charValue table a) (charValue table b) (charValue table c)
        (charValue table d)
      have htotal : front.length + (a :: b :: c :: d :: rest).length =
          (front ++ [a, b, c, d]).length + rest.length := by
        simp only [length_append, length_cons, length_nil]
        omega
      have hall : (∀ x ∈ [a, b, c, d] ++ rest, x < 128) ↔
          (∀ x ∈ [a, b, c, d], x < 128) ∧ ∀ x ∈ rest, x < 128 := forall_mem_append
      rw [Checked.decodeLoop, if_pos hin, decodeGroups_cons, groupValue, ← hgroup,
        ← append_assoc, htotal]
      change _ ↔ _ ∧ (∀ x ∈ [a, b, c, d] ++ rest, x < 128) ∧ _
      rw [hall]
      -- the three bytes of the group are put, since the counter is not ahead of the index
      have hputs : ∀ x y z, front.length + 4 < 2 ^ 31 → ∀ f : _ → Except Fault (List UInt8),
          ((put (state stored) x).bind fun s => (put s y).bind fun s => (put s z).bind f) =
            f (state (stored ++ [x, y, z])) := by
        intro x y z hlt f
        rw [hput _ _ (by omega)]
        simp only [Except.bind]
        rw [hput _ _ (by rw [length_append, length_singleton]; omega)]
        simp only
        rw [hput _ _ (by simp only [length_append, length_singleton]; omega)]
        simp only [append_assoc, cons_append, nil_append]
      have hahead : ∀ x y z : UInt8, (stored ++ [x, y, z]).length ≤
          (front ++ [a, b, c, d]).length := by
        intro x y z
        simp only [length_append, length_cons, length_nil]
        omega
      constructor
      · intro h
        obtain ⟨p, hp, h⟩ := bind_eq_ok.mp h
        obtain ⟨hfour, hlt, rfl⟩ := Checked.tripleAt_ok_iff.mp hp
        have hrun := (hputs _ _ _ hlt _).symm.trans h
        rw [hnext, hindex] at hrun
        obtain ⟨hsmall, hrest, hbytes⟩ := (ih _ _ hleft (hindex ▸ hlt) (hahead _ _ _)).mp hrun
        exact ⟨hsmall, ⟨hfour, hrest⟩, hbytes⟩
      · rintro ⟨hsmall, ⟨hfour, hrest⟩, hbytes⟩
        have hlt : front.length + 4 < 2 ^ 31 := by omega
        refine bind_eq_ok.mpr ⟨_, Checked.tripleAt_ok_iff.mpr ⟨hfour, hlt, rfl⟩, ?_⟩
        refine (hputs _ _ _ hlt _).trans ?_
        rw [hnext, hindex]
        exact (ih _ _ hleft (hindex ▸ hlt) (hahead _ _ _)).mpr ⟨hsmall, hrest, hbytes⟩

theorem Checked.push_eq (length : Nat) (stored : List UInt8) (x : UInt8)
    (hj : stored.length + 1 < 2 ^ 31) :
    Checked.push length (stored.take length, stored.length) x =
      .ok ((stored ++ [x]).take length, (stored ++ [x]).length) := by
  rw [Checked.push, Checked.increment_eq hj]
  refine congrArg Except.ok (Prod.ext ?_ ?_)
  · by_cases hlt : stored.length < length
    · rw [if_pos hlt, take_of_length_le hlt.le, take_of_length_le (by simpa using hlt)]
    · rw [if_neg hlt, take_append_of_le_length (Nat.le_of_not_lt hlt)]
  · simp

theorem Checked.store_eq (length : Nat) (stored : List UInt8) (x : UInt8)
    (hj : stored.length + 1 < 2 ^ 31) :
    Checked.store length
        (stored.take length ++ replicate (length - stored.length) 0, min stored.length length) x =
      .ok ((stored ++ [x]).take length ++ replicate (length - (stored ++ [x]).length) 0,
        min (stored ++ [x]).length length) := by
  rw [Checked.store]
  by_cases hlt : stored.length < length
  · have hmin : min stored.length length = stored.length := Nat.min_eq_left hlt.le
    have hroom : length - stored.length = (length - (stored ++ [x]).length) + 1 := by
      rw [length_append, length_singleton]
      omega
    simp only [hmin, if_pos hlt, take_of_length_le hlt.le, Checked.increment_eq hj]
    rw [take_of_length_le (by simpa using hlt), hroom, replicate_succ]
    refine congrArg Except.ok (Prod.ext ?_ ?_)
    · simp
    · simp only [length_append, length_singleton]
      omega
  · have hmin : min stored.length length = length := Nat.min_eq_right (Nat.le_of_not_lt hlt)
    simp only [hmin, if_neg (Nat.lt_irrefl _)]
    rw [take_append_of_le_length (Nat.le_of_not_lt hlt)]
    refine congrArg Except.ok (Prod.ext ?_ ?_)
    · simp only [length_append, length_singleton]
      congr 2
      omega
    · simp only [length_append, length_singleton]
      omega

theorem exists_last_two (hne : data ≠ []) (hlen : data.length % 4 = 0) :
    ∃ front c d, data = front ++ [c, d] := by
  have hpos := length_pos_of_ne_nil hne
  have htwo : (data.drop (data.length - 2)).length = 2 := by
    rw [length_drop]
    omega
  obtain ⟨c, d, hcd⟩ := length_eq_two.mp htwo
  exact ⟨data.take (data.length - 2), c, d, by rw [← hcd, take_append_drop]⟩

theorem padCount_append (front : List UInt8) (c d : UInt8) :
    padCount (front ++ [c, d]) =
      (if c = ofChar '=' then 1 else 0) + (if d = ofChar '=' then 1 else 0) := by
  rw [padCount, reverse_append]
  simp [count_cons]

theorem padCount_le (data : List UInt8) : padCount data ≤ 2 :=
  count_le_length.trans (length_take_le 2 _)

theorem Checked.outputLength_eq (hne : data ≠ []) (hlen : data.length % 4 = 0) :
    Checked.outputLength data = .ok (data.length / 4 * 3 - padCount data) := by
  obtain ⟨front, c, d, rfl⟩ := exists_last_two hne hlen
  have hfull : 2 ≤ (front ++ [c, d]).length / 4 * 3 := by
    simp only [length_append, length_cons, length_nil] at hlen ⊢
    omega
  have hlast : charAt (front ++ [c, d]) (sizeSub (front ++ [c, d]).length 1) = .ok d := by
    have hsplit : front ++ [c, d] = (front ++ [c]) ++ d :: [] := by simp
    rw [hsplit]
    refine charAt_append (front ++ [c]) [] d _ ?_
    simp [sizeSub]
  have hbefore : charAt (front ++ [c, d]) (sizeSub (front ++ [c, d]).length 2) = .ok c := by
    refine charAt_append front [d] c _ ?_
    simp [sizeSub]
  rw [Checked.outputLength, hlast, hbefore, padCount_append]
  simp only [bind, Except.bind]
  refine congrArg Except.ok ?_
  generalize (front ++ [c, d]).length / 4 * 3 = length at hfull ⊢
  by_cases hc : c = ofChar '='
  · by_cases hd : d = ofChar '='
    · simp only [hc, hd, if_true, sizeSub]
      split_ifs <;> omega
    · simp only [hc, hd, if_true, if_false, sizeSub]
      split_ifs <;> omega
  · by_cases hd : d = ofChar '='
    · simp only [hc, hd, if_true, if_false, sizeSub]
      split_ifs <;> omega
    · simp only [hc, hd, if_false, Nat.add_zero, Nat.sub_zero]

theorem Checked.decoder_ok_iff (table : Int → UInt8) (data bytes : List UInt8)
    {put : Nat → List UInt8 × Nat → UInt8 → Except Fault (List UInt8 × Nat)}
    {state : Nat → List UInt8 → List UInt8 × Nat}
    (hput : ∀ length stored x, stored.length + 1 < 2 ^ 31 →
      put length (state length stored) x = .ok (state length (stored ++ [x])))
    (hstate : ∀ length stored, length ≤ stored.length →
      (state length stored).1 = stored.take length) :
    (if data.length % 4 ≠ 0 then Except.ok []
      else do
        let length ← Checked.outputLength data
        Checked.decodeLoop table data (put length) data.length 0 (state length [])) = .ok bytes ↔
      Decodes table data bytes := by
  rw [Decodes]
  by_cases hlen : data.length % 4 = 0
  · rw [if_neg (not_not.mpr hlen), if_neg (not_not.mpr hlen)]
    by_cases hne : data = []
    · subst hne
      exact ⟨fun h => (nomatch h), fun h => absurd rfl h.1⟩
    · have hloop := Checked.decodeLoop_ok_iff table (hput (data.length / 4 * 3 - padCount data))
        hlen [] [] bytes (Nat.le_refl _) (by simp) (Nat.le_refl _)
      rw [nil_append, nil_append, length_nil, Nat.zero_add, hstate _ _ (by
        rw [length_decodeGroups _ hlen]
        omega)] at hloop
      rw [Checked.outputLength_eq hne hlen, payload]
      exact hloop.trans ⟨fun h => ⟨hne, h⟩, fun h => h.2⟩
  · rw [if_pos hlen, if_pos hlen]
    exact ⟨fun h => (Except.ok.inj h).symm, fun h => by rw [h]⟩

end Loop

section Results

variable {table : Int → UInt8} {data bytes : List UInt8}

theorem Checked.base64DecodeToString_ok_iff :
    Checked.base64DecodeToString table data = .ok bytes ↔ Decodes table data bytes := by
  have h := Checked.decoder_ok_iff table data bytes Checked.push_eq
    (fun length stored _ => rfl)
  simpa [Checked.base64DecodeToString] using h

theorem Checked.base64DecodeToBytes_ok_iff :
    Checked.base64DecodeToBytes table data = .ok bytes ↔ Decodes table data bytes := by
  have h := Checked.decoder_ok_iff table data bytes Checked.store_eq
    (fun length stored hle => by simp [Nat.sub_eq_zero_of_le hle])
  simpa [Checked.base64DecodeToBytes] using h

/-! ### The decoders of the parser's model -/

theorem sextet_eq (junk : Junk) (c : UInt8) :
    sextet junk c = UInt32.ofNat (charValue (buildDecodingTable junk.table) c) := by
  rw [sextet, charValue]
  split
  · rfl
  · rw [UInt32.ofNat_toNat]

theorem threeBytes_triple (junk : Junk) (a b c d : UInt8) :
    threeBytes (groupValue (charValue (buildDecodingTable junk.table)) a b c d) =
      [(triple junk a b c d >>> 16).toUInt8, (triple junk a b c d >>> 8).toUInt8,
        (triple junk a b c d).toUInt8] := by
  rw [triple, sextet_eq, sextet_eq, sextet_eq, sextet_eq]
  exact (triple_bytes _ _ _ _).symm

theorem stringLoop_eq (junk : Junk) (length : Nat) (hlen : data.length % 4 = 0) (j : Nat) :
    stringLoop junk length data j =
      (decodeGroups (charValue (buildDecodingTable junk.table)) data).take (length - j) := by
  induction data, hlen using fours_induction generalizing j with
  | nil => simp [stringLoop]
  | four a b c d rest hlen ih =>
    rw [stringLoop, ih, decodeGroups_cons, threeBytes_triple]
    by_cases h2 : j + 2 < length
    · have hlength : length - j = (length - (j + 3)) + 3 := by omega
      rw [hlength, if_pos h2, if_pos (by omega), if_pos (by omega)]
      rfl
    · have hlength : length - (j + 3) = 0 := by omega
      rw [hlength, take_zero, append_nil, if_neg h2, append_nil]
      by_cases h1 : j + 1 < length
      · have hleft : length - j = 2 := by omega
        rw [if_pos h1, if_pos (by omega), hleft]
        rfl
      · rw [if_neg h1, append_nil]
        by_cases h0 : j < length
        · have hleft : length - j = 1 := by omega
          rw [if_pos h0, hleft]
          rfl
        · have hleft : length - j = 0 := by omega
          rw [if_neg h0, hleft, take_zero]

theorem bytesLoop_eq (junk : Junk) (length : Nat) (hlen : data.length % 4 = 0)
    (stored : List UInt8) (hroom : length ≤ stored.length + data.length / 4 * 3) :
    bytesLoop junk length data (stored.take length) =
      (stored ++ decodeGroups (charValue (buildDecodingTable junk.table)) data).take length := by
  induction data, hlen using fours_induction generalizing stored with
  | nil =>
    have hfull : length - (stored.take length).length = 0 := by
      rw [length_take]
      simp only [length_nil] at hroom
      omega
    rw [bytesLoop, hfull, decodeGroups_nil, append_nil, replicate_zero, append_nil]
    intro a b c d rest h
    cases h
  | four a b c d rest hlen ih =>
    have hstore : ∀ (stored : List UInt8) (x : UInt8),
        (if (stored.take length).length < length then stored.take length ++ [x]
          else stored.take length) = (stored ++ [x]).take length := by
      intro stored x
      by_cases hlt : stored.length < length
      · rw [take_of_length_le hlt.le, if_pos hlt, take_of_length_le (by simpa using hlt)]
      · rw [if_neg (by rw [length_take]; omega), take_append_of_le_length (Nat.le_of_not_lt hlt)]
    simp only [bytesLoop, hstore]
    rw [ih, decodeGroups_cons, threeBytes_triple]
    · simp
    · simp only [length_append, length_cons, length_nil] at hroom ⊢
      omega

theorem padding_eq (junk : Junk) (hne : data ≠ []) (hlen : data.length % 4 = 0) :
    padding junk data = padCount data := by
  obtain ⟨front, c, d, rfl⟩ := exists_last_two hne hlen
  have h1 : fromEnd junk (front ++ [c, d]) 1 = d := by
    simp [fromEnd]
  have h2 : fromEnd junk (front ++ [c, d]) 2 = c := by
    simp [fromEnd]
  rw [padding, h1, h2, padCount_append, Nat.add_comm]

theorem decodeToString_eq (junk : Junk) (hne : data ≠ []) (hlen : data.length % 4 = 0)
    (hsmall : data.length < 2 ^ 31) :
    base64DecodeToString junk data = some (payload (buildDecodingTable junk.table) data) := by
  have hpos := length_pos_of_ne_nil hne
  have hpad := padCount_le data
  rw [base64DecodeToString, if_neg (not_not.mpr hlen), padding_eq junk hne hlen]
  simp only [stringLoop_eq junk _ hlen, Nat.sub_zero]
  rw [if_neg (by omega), if_pos hsmall, payload]

theorem decodeToBytes_eq (junk : Junk) (hne : data ≠ []) (hlen : data.length % 4 = 0)
    (hsmall : data.length < 2 ^ 31) :
    base64DecodeToBytes junk data = some (payload (buildDecodingTable junk.table) data) := by
  have hpos := length_pos_of_ne_nil hne
  have hpad := padCount_le data
  have hloop := bytesLoop_eq junk (data.length / 4 * 3 - padCount data) hlen [] (by simp)
  rw [take_nil, nil_append] at hloop
  rw [base64DecodeToBytes, if_neg (not_not.mpr hlen), padding_eq junk hne hlen]
  simp only [hloop]
  rw [if_neg (by omega), if_pos hsmall, payload]

/-- Where nothing faults, the parser's model has the same result. -/
theorem decodeToString_of_checked {junk : Junk}
    (h : Checked.base64DecodeToString (buildDecodingTable junk.table) data = .ok bytes) :
    base64DecodeToString junk data = some bytes := by
  have hd := Checked.base64DecodeToString_ok_iff.mp h
  rw [Decodes] at hd
  split at hd
  · next hlen => rw [base64DecodeToString, if_pos hlen, hd]
  · next hlen => rw [decodeToString_eq junk hd.1 (not_not.mp hlen) hd.2.1, hd.2.2.2]

theorem decodeToBytes_of_checked {junk : Junk}
    (h : Checked.base64DecodeToBytes (buildDecodingTable junk.table) data = .ok bytes) :
    base64DecodeToBytes junk data = some bytes := by
  have hd := Checked.base64DecodeToBytes_ok_iff.mp h
  rw [Decodes] at hd
  split at hd
  · next hlen => rw [base64DecodeToBytes, if_pos hlen, hd]
  · next hlen => rw [decodeToBytes_eq junk hd.1 (not_not.mp hlen) hd.2.1, hd.2.2.2]

end Results

end LinuxWorkouts.Eml
