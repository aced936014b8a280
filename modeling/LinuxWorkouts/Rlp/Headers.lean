import LinuxWorkouts.Lib.Hex
import LinuxWorkouts.Rlp.Tokens

/-!
What one call of `init_tokens` does with a text that spells bytes.

`lengthCount` and `readLength` say, from the bytes alone, how many length bytes the code takes to
follow the first byte, and how many bytes of data. The three results are `tokenStep_single`,
`tokenStep_string` and `tokenStep_list`.
-/

namespace LinuxWorkouts.Rlp

open Hex StdString List

def lengthCount (b : UInt8) : Nat :=
  if b.toNat ≤ 0xb7 then 0
  else if b.toNat ≤ 0xbf then b.toNat - 0xb7
  else if b.toNat ≤ 0xf7 then 0
  else b.toNat - 0xf7

/-- The number of bytes that the code takes for the data of a string: of a long one, the first byte
itself if there is one length byte, and otherwise only the first half of the length bytes. -/
def readLength (b : UInt8) (rest : List UInt8) : Nat :=
  if b.toNat ≤ 0xb7 then b.toNat - 0x80
  else if b.toNat = 0xb8 then 0xb8
  else Nat.ofDigits 16 ((nibbles rest).take (b.toNat - 0xb7)).reverse

/-! ### Numbers -/

theorem sizeT_natCast {n : Nat} (h : n < 2 ^ 64) : sizeT n = n := by
  rw [sizeT]
  omega

theorem digit_value {c : UInt8} {n : Nat} (hn : n < 16) (h : SpellsDigit c n) :
    getDecimalDigitFromHexChar (toupper c) = n := by
  have hvalues : ∀ n < 16, getDecimalDigitFromHexChar (toupper (lowerDigit n)) = n ∧
      getDecimalDigitFromHexChar (toupper (upperDigit n)) = n := by decide
  rcases h with rfl | rfl
  · exact (hvalues n hn).1
  · exact (hvalues n hn).2

theorem hexToDecimalLoop_eq {cs : List UInt8} {ns : List Nat} (h : List.Forall₂ SpellsDigit cs ns)
    (hns : ∀ n ∈ ns, n < 16) (power : Nat) (resNum : Int) :
    hexToDecimalLoop cs power resNum = resNum + 16 ^ power * (Nat.ofDigits 16 ns : Nat) := by
  induction h generalizing power resNum with
  | nil => simp [hexToDecimalLoop]
  | @cons c n cs ns hdigit _ ih =>
    rw [hexToDecimalLoop, ih (fun m hm => hns m (mem_cons_of_mem _ hm)),
      digit_value (hns n mem_cons_self) hdigit, Nat.ofDigits_cons]
    push_cast
    ring

theorem hexToDecimal_eq {cs : List UInt8} {ns : List Nat} (h : List.Forall₂ SpellsDigit cs ns)
    (hns : ∀ n ∈ ns, n < 16) : hexToDecimal cs = (Nat.ofDigits 16 ns.reverse : Nat) := by
  rw [hexToDecimal, hexToDecimalLoop_eq (forall₂_reverse_iff.mpr h)
    (fun n hn => hns n (mem_reverse.mp hn))]
  simp

/-! ### One call on any text -/

section Call

variable {hex : List UInt8} {info : LenInfo}

theorem currentState_of_info (hinfo : getLenInfo hex (getEncodingDesc (hex.take 2)) = .ok info) :
    currentState hex = .ok ⟨info, getEncodingDesc (hex.take 2), hex⟩ := by
  rw [currentState, substr_of_le (Nat.zero_le _), Except.bind, drop_zero, hinfo, Except.map]

theorem tokenStep_eq_single (htype : encodingType (hexToDecimal (hex.take 2)) = .single)
    (hinfo : getLenInfo hex (getEncodingDesc (hex.take 2)) = .ok info) :
    tokenStep hex =
      .ok (([], hex.take (byteToHexLen info.dataLen)),
        if tokenEnd info < hex.length then some (hex.drop (tokenEnd info)) else none) := by
  rw [tokenStep, currentState_of_info hinfo]
  simp only [Except.bind, getEncodingDesc, htype, reduceCtorEq, or_self, if_false, getKeyValue,
    if_true, substr_of_le (Nat.zero_le _), drop_zero, Except.map, hasNextToken, getNextToken,
    decide_eq_true_eq]
  split
  · next hnext => rw [if_neg (Nat.not_lt.mpr hnext.le)]
  · rfl

theorem tokenStep_eq_string
    (htype : encodingType (hexToDecimal (hex.take 2)) = .short ∨
      encodingType (hexToDecimal (hex.take 2)) = .medium)
    (hinfo : getLenInfo hex (getEncodingDesc (hex.take 2)) = .ok info) :
    tokenStep hex =
      if byteToHexLen info.headerLen ≤ hex.length then
        .ok ((hex.take (byteToHexLen info.headerLen),
            (hex.drop (byteToHexLen info.headerLen)).take (byteToHexLen info.dataLen)),
          if tokenEnd info < hex.length then some (hex.drop (tokenEnd info)) else none)
      else .error .outOfRange := by
  have hnotList : ¬ (encodingType (hexToDecimal (hex.take 2)) = .list ∨
      encodingType (hexToDecimal (hex.take 2)) = .longList) := by
    rcases htype with htype | htype <;> rw [htype] <;> simp
  have hnotSingle : encodingType (hexToDecimal (hex.take 2)) ≠ .single := by
    rcases htype with htype | htype <;> rw [htype] <;> simp
  rw [tokenStep, currentState_of_info hinfo]
  simp only [Except.bind, getEncodingDesc, hnotList, hnotSingle, if_false, getKeyValue,
    substr_of_le (Nat.zero_le _), drop_zero, hasNextToken, getNextToken, decide_eq_true_eq]
  by_cases hheader : byteToHexLen info.headerLen ≤ hex.length
  · rw [if_pos hheader, substr_of_le hheader]
    simp only [Except.map]
    split
    · next hnext => rw [if_neg (Nat.not_lt.mpr hnext.le)]
    · rfl
  · rw [if_neg hheader, substr, if_neg hheader]
    rfl

theorem tokenStep_eq_list
    (htype : encodingType (hexToDecimal (hex.take 2)) = .list ∨
      encodingType (hexToDecimal (hex.take 2)) = .longList)
    (hinfo : getLenInfo hex (getEncodingDesc (hex.take 2)) = .ok info) :
    tokenStep hex =
      .ok ((if byteToHexLen info.headerLen ≤ hex.length then
          hex.take (byteToHexLen info.headerLen) else [], []),
        some (hex.drop (byteToHexLen info.headerLen))) := by
  rw [tokenStep, currentState_of_info hinfo]
  simp only [Except.bind, getEncodingDesc, htype, if_true, getHeadKeyToken]
  split
  · next hshort => rw [if_neg (Nat.not_le.mpr hshort)]
  · next hshort => rw [if_pos (Nat.not_lt.mp hshort)]

end Call

section Text

variable {hex rest : List UInt8} {b : UInt8}

theorem length_of_spells (h : Spells hex (b :: rest)) : hex.length = 2 * rest.length + 2 := by
  rw [h.length_eq, length_cons]
  omega

theorem firstByte_of_spells (h : Spells hex (b :: rest)) :
    substr hex 0 2 = .ok (hex.take 2) ∧ hexToDecimal (hex.take 2) = b.toNat := by
  refine ⟨substr_of_le (Nat.zero_le _), ?_⟩
  have htake : List.Forall₂ SpellsDigit (hex.take 2) [b.toNat / 16, b.toNat % 16] :=
    forall₂_take 2 h
  have hdigits : ∀ n ∈ nibbles [b], n < 16 := fun n hn => nibbles_lt hn
  rw [hexToDecimal_eq htake hdigits]
  have hb := Nat.div_add_mod b.toNat 16
  simp only [reverse_cons, reverse_nil, nil_append, cons_append,
    Nat.ofDigits_cons, Nat.ofDigits_nil]
  omega

theorem lengthDigits_of_spells (h : Spells hex (b :: rest)) (k : Nat) :
    substr hex 2 k = .ok ((hex.drop 2).take k) ∧
      hexToDecimal ((hex.drop 2).take k) =
        (Nat.ofDigits 16 ((nibbles rest).take k).reverse : Nat) := by
  have hlength := length_of_spells h
  refine ⟨substr_of_le (by omega), hexToDecimal_eq ?_ ?_⟩
  · exact forall₂_take k (h.drop 1)
  · exact fun n hn => nibbles_lt (mem_of_mem_take hn)

theorem ofDigits_take_lt_pow (rest : List UInt8) (k : Nat) :
    Nat.ofDigits 16 ((nibbles rest).take k).reverse < 16 ^ k := by
  have hdigits : ∀ n ∈ ((nibbles rest).take k).reverse, n < 16 := fun n hn =>
    nibbles_lt (mem_of_mem_take (mem_reverse.mp hn))
  have hlength : ((nibbles rest).take k).reverse.length ≤ k := by
    rw [length_reverse]
    exact length_take_le _ _
  calc Nat.ofDigits 16 ((nibbles rest).take k).reverse
      < 16 ^ ((nibbles rest).take k).reverse.length :=
        Nat.ofDigits_lt_base_pow_length (by norm_num) hdigits
    _ ≤ 16 ^ k := Nat.pow_le_pow_right (by norm_num) hlength

theorem ofDigits_take_lt (rest : List UInt8) {k : Nat} (hk : k ≤ 8) :
    Nat.ofDigits 16 ((nibbles rest).take k).reverse < 2 ^ 32 :=
  calc Nat.ofDigits 16 ((nibbles rest).take k).reverse
      < 16 ^ k := ofDigits_take_lt_pow rest k
    _ ≤ 16 ^ 8 := Nat.pow_le_pow_right (by norm_num) hk
    _ = 2 ^ 32 := by norm_num

/-! ### Headers -/

theorem getEncodingDesc_of_spells (h : Spells hex (b :: rest)) :
    getEncodingDesc (hex.take 2) = ⟨encodingType b.toNat, b.toNat, hex.take 2⟩ := by
  rw [getEncodingDesc, (firstByte_of_spells h).2]

theorem encodingType_single (hb : b.toNat < 0x80) : encodingType b.toNat = .single :=
  if_pos ⟨by omega, by omega⟩

theorem getLenInfo_string (h : Spells hex (b :: rest)) (hlow : 0x80 ≤ b.toNat)
    (hhigh : b.toNat ≤ 0xbf) :
    (encodingType b.toNat = .short ∨ encodingType b.toNat = .medium) ∧
      getLenInfo hex ⟨encodingType b.toNat, b.toNat, hex.take 2⟩ =
        .ok ⟨readLength b rest, lengthCount b + 1⟩ := by
  by_cases hshort : b.toNat ≤ 0xb7
  · have htype : encodingType b.toNat = .short := by
      rw [encodingType, if_neg (by omega), if_pos (by omega)]
    have hdata : sizeT ((b.toNat : Int) - 0x80) = b.toNat - 0x80 := by
      rw [sizeT]
      omega
    refine ⟨.inl htype, ?_⟩
    simp only [htype, getLenInfo, readLength, lengthCount, hshort, if_true, hdata]
  · have htype : encodingType b.toNat = .medium := by
      rw [encodingType, if_neg (by omega), if_neg (by omega), if_pos (by omega)]
    have hcount : sizeT ((b.toNat : Int) - 0xb7) = b.toNat - 0xb7 := by
      rw [sizeT]
      omega
    have hheader : sizeT (((b.toNat - 0xb7 : Nat) : Int) + 1) = b.toNat - 0xb7 + 1 := by
      rw [sizeT]
      omega
    have hlength : readLongLength hex (b.toNat - 0xb7) = .ok (readLength b rest) := by
      by_cases hone : b.toNat = 0xb8
      · obtain ⟨hsub, hvalue⟩ := firstByte_of_spells h
        rw [readLongLength, if_pos (by omega), hsub, Except.map, hvalue, hone, readLength,
          if_neg hshort, if_pos hone]
        rfl
      · obtain ⟨hsub, hvalue⟩ := lengthDigits_of_spells h (b.toNat - 0xb7)
        have hcount : b.toNat - 0xb7 ≤ 8 := by omega
        have hlt := ofDigits_take_lt rest hcount
        rw [readLongLength, if_neg (by omega), hsub, Except.map, hvalue, readLength,
          if_neg hshort, if_neg hone, sizeT_natCast (by omega)]
    refine ⟨.inr htype, ?_⟩
    simp only [htype, getLenInfo, longLenInfo, hcount, hlength, Except.map, hheader, lengthCount,
      hshort, hhigh, if_true, if_false]

theorem getLenInfo_list (h : Spells hex (b :: rest)) (hlow : 0xc0 ≤ b.toNat) :
    (encodingType b.toNat = .list ∨ encodingType b.toNat = .longList) ∧
      ∃ dataLen, getLenInfo hex ⟨encodingType b.toNat, b.toNat, hex.take 2⟩ =
        .ok ⟨dataLen, lengthCount b + 1⟩ := by
  have hlt : b.toNat < 256 := b.toNat_lt
  by_cases hshort : b.toNat ≤ 0xf7
  · have htype : encodingType b.toNat = .list := by
      rw [encodingType, if_neg (by omega), if_neg (by omega), if_neg (by omega), if_pos (by omega)]
    refine ⟨.inl htype, sizeT ((b.toNat : Int) - 0xc0), ?_⟩
    have hcount : lengthCount b = 0 := by
      rw [lengthCount, if_neg (by omega), if_neg (by omega), if_pos hshort]
    simp only [htype, getLenInfo, hcount, Nat.zero_add]
  · have htype : encodingType b.toNat = .longList := by
      rw [encodingType, if_neg (by omega), if_neg (by omega), if_neg (by omega), if_neg (by omega)]
    have hcount : lengthCount b = b.toNat - 0xf7 := by
      rw [lengthCount, if_neg (by omega), if_neg (by omega), if_neg hshort]
    have hsize : sizeT ((b.toNat : Int) - 0xf7) = b.toNat - 0xf7 := by
      rw [sizeT]
      omega
    have hheader : sizeT (((b.toNat - 0xf7 : Nat) : Int) + 1) = b.toNat - 0xf7 + 1 := by
      rw [sizeT]
      omega
    have hlength : ∃ dataLen, readLongLength hex (b.toNat - 0xf7) = .ok dataLen := by
      unfold readLongLength
      split
      · rw [(firstByte_of_spells h).1]
        exact ⟨_, rfl⟩
      · rw [(lengthDigits_of_spells h _).1]
        exact ⟨_, rfl⟩
    obtain ⟨dataLen, hdata⟩ := hlength
    refine ⟨.inr htype, dataLen, ?_⟩
    simp only [htype, getLenInfo, longLenInfo, hsize, hdata, Except.map, hheader, hcount]

/-! ### Tokens -/

theorem byteToHexLen_eq {n : Nat} (h : n < 2 ^ 63) : byteToHexLen n = 2 * n := by
  rw [byteToHexLen, sizeT]
  omega

theorem tokenEnd_eq {d n : Nat} (h : d + n < 2 ^ 63) : tokenEnd ⟨d, n⟩ = 2 * (d + n) := by
  have hsum : sizeT ((d : Int) + (n : Int)) = d + n := by
    rw [sizeT]
    omega
  rw [tokenEnd, hsum, byteToHexLen_eq h]

theorem lengthCount_le (b : UInt8) : lengthCount b ≤ 8 := by
  have hlt : b.toNat < 256 := b.toNat_lt
  unfold lengthCount
  split
  · omega
  · split
    · omega
    · split <;> omega

theorem readLength_lt (rest : List UInt8) (hlow : 0x80 ≤ b.toNat) (hhigh : b.toNat ≤ 0xbf) :
    readLength b rest < 2 ^ 32 := by
  unfold readLength
  split
  · omega
  · split
    · omega
    · exact ofDigits_take_lt rest (by omega)

theorem tokenStep_single (h : Spells hex (b :: rest)) (hb : b.toNat < 0x80) :
    tokenStep hex =
      .ok (([], hex.take 2), if 1 < rest.length then some (hex.drop 4) else none) := by
  have hlength := length_of_spells h
  have htype : encodingType (hexToDecimal (hex.take 2)) = .single := by
    rw [(firstByte_of_spells h).2, encodingType_single hb]
  have hinfo : getLenInfo hex (getEncodingDesc (hex.take 2)) = .ok ⟨1, 1⟩ := by
    rw [getEncodingDesc_of_spells h, encodingType_single hb, getLenInfo]
  have hend : tokenEnd ⟨1, 1⟩ = 4 := tokenEnd_eq (by norm_num)
  have hlen : byteToHexLen 1 = 2 := byteToHexLen_eq (by norm_num)
  rw [tokenStep_eq_single htype hinfo, hend, hlen]
  by_cases hnext : 1 < rest.length
  · rw [if_pos (by omega), if_pos hnext]
  · rw [if_neg (by omega), if_neg hnext]

theorem tokenStep_string (h : Spells hex (b :: rest)) (hlow : 0x80 ≤ b.toNat)
    (hhigh : b.toNat ≤ 0xbf) :
    tokenStep hex =
      if lengthCount b ≤ rest.length then
        .ok ((hex.take (2 * (lengthCount b + 1)),
            (hex.drop (2 * (lengthCount b + 1))).take (2 * readLength b rest)),
          if lengthCount b + readLength b rest < rest.length then
            some (hex.drop (2 * (lengthCount b + readLength b rest + 1)))
          else none)
      else .error .outOfRange := by
  have hlength := length_of_spells h
  obtain ⟨htype, hinfo⟩ := getLenInfo_string h hlow hhigh
  rw [← (firstByte_of_spells h).2] at htype
  rw [← getEncodingDesc_of_spells h] at hinfo
  have hcount := lengthCount_le b
  have hread := readLength_lt rest hlow hhigh
  have hend : tokenEnd ⟨readLength b rest, lengthCount b + 1⟩ =
      2 * (lengthCount b + readLength b rest + 1) := by
    rw [tokenEnd_eq (by omega)]
    omega
  have hhead : byteToHexLen (lengthCount b + 1) = 2 * (lengthCount b + 1) :=
    byteToHexLen_eq (by omega)
  have hdata : byteToHexLen (readLength b rest) = 2 * readLength b rest :=
    byteToHexLen_eq (by omega)
  rw [tokenStep_eq_string htype hinfo, hend, hhead, hdata]
  by_cases hcomplete : lengthCount b ≤ rest.length
  · rw [if_pos (by omega), if_pos hcomplete]
    by_cases hnext : lengthCount b + readLength b rest < rest.length
    · rw [if_pos (by omega), if_pos hnext]
    · rw [if_neg (by omega), if_neg hnext]
  · rw [if_neg (by omega), if_neg hcomplete]

theorem tokenStep_list (h : Spells hex (b :: rest)) (hlow : 0xc0 ≤ b.toNat) :
    tokenStep hex =
      .ok ((if lengthCount b ≤ rest.length then hex.take (2 * (lengthCount b + 1)) else [], []),
        some (hex.drop (2 * (lengthCount b + 1)))) := by
  have hlength := length_of_spells h
  obtain ⟨htype, dataLen, hinfo⟩ := getLenInfo_list h hlow
  rw [← (firstByte_of_spells h).2] at htype
  rw [← getEncodingDesc_of_spells h] at hinfo
  have hcount := lengthCount_le b
  have hhead : byteToHexLen (lengthCount b + 1) = 2 * (lengthCount b + 1) :=
    byteToHexLen_eq (by omega)
  rw [tokenStep_eq_list htype hinfo, hhead]
  by_cases hcomplete : lengthCount b ≤ rest.length
  · rw [if_pos (by omega), if_pos hcomplete]
  · rw [if_neg (by omega), if_neg hcomplete]

end Text

end LinuxWorkouts.Rlp
