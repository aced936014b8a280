import LinuxWorkouts.Lib.RlpFormat
import LinuxWorkouts.Rlp.Headers

/-!
Headers of long strings and lists, as `get_encoding_desc` and `get_len_info` read them.

Strings and lists differ in the base of the first byte only, so `readLongLength_iff` is about both:
one length byte is not read at all, and of more length bytes the code reads as many digits as there
are bytes, which make a smaller number than any that needs these bytes.
-/

namespace LinuxWorkouts.Rlp

open Hex StdString RlpFormat List

variable {hex payload : List UInt8} {base n : Nat}

theorem pow_le_of_lengthBytes (h : 2 ≤ (lengthBytes n).length) :
    16 ^ (lengthBytes n).length ≤ n := by
  have hlength : (lengthBytes n).length = (Nat.digits 256 n).length := by
    rw [lengthBytes, length_map, length_reverse]
  have hlt : (lengthBytes n).length - 1 < (Nat.digits 256 n).length := by omega
  calc 16 ^ (lengthBytes n).length
      ≤ 16 ^ (2 * ((lengthBytes n).length - 1)) := Nat.pow_le_pow_right (by norm_num) (by omega)
    _ = 256 ^ ((lengthBytes n).length - 1) := by
        rw [pow_mul]
        norm_num
    _ ≤ n := (Nat.lt_digits_length_iff (by norm_num) n).mp hlt

theorem readLongLength_iff (hbase : base + 63 < 256) (hpos : 0 < n) (hn : n < 2 ^ 64)
    (h : Spells hex
      (UInt8.ofNat (base + 55 + (lengthBytes n).length) :: (lengthBytes n ++ payload))) :
    ∃ dataLen, readLongLength hex (lengthBytes n).length = .ok dataLen ∧
      (dataLen = n ↔ n = base + 56) := by
  have hle : (lengthBytes n).length ≤ 8 := length_lengthBytes_le hn
  have hlow : 0 < (lengthBytes n).length := lengthBytes_pos hpos
  by_cases hone : (lengthBytes n).length = 1
  · obtain ⟨hsub, hvalue⟩ := firstByte_of_spells h
    have hbyte := UInt8.toNat_ofNat_of_lt' (n := base + 55 + (lengthBytes n).length)
      (show _ < 256 by omega)
    rw [hbyte, hone] at hvalue
    refine ⟨base + 56, ?_, eq_comm⟩
    rw [readLongLength, if_pos hone, hsub, Except.map, hvalue, sizeT_natCast (by omega)]
  · obtain ⟨hsub, hvalue⟩ := lengthDigits_of_spells h (lengthBytes n).length
    have hread := ofDigits_take_lt_pow (lengthBytes n ++ payload) (lengthBytes n).length
    have hmore : 16 ^ (lengthBytes n).length ≤ n := pow_le_of_lengthBytes (by omega)
    have hbytes : 16 ^ 2 ≤ 16 ^ (lengthBytes n).length :=
      Nat.pow_le_pow_right (by norm_num) (by omega)
    refine ⟨Nat.ofDigits 16
      ((nibbles (lengthBytes n ++ payload)).take (lengthBytes n).length).reverse, ?_, ?_⟩
    · rw [readLongLength, if_neg hone, hsub, Except.map, hvalue, sizeT_natCast (by omega)]
    · -- the digits are too few, and `base + 56` needs one length byte
      exact iff_of_false (by omega) (by omega)

theorem getLenInfo_long {type : EncodingType} (hbase : base + 63 < 256) (hlong : 55 < n)
    (hn : n < 2 ^ 64) (h : Spells hex (header base n ++ payload))
    (htype : ∀ k, 1 ≤ k → k ≤ 8 → encodingType (base + 55 + k : Nat) = type ∧
      ∀ first, getLenInfo hex ⟨type, (base + 55 + k : Nat), first⟩ = longLenInfo hex k) :
    (getEncodingDesc (hex.take 2)).type = type ∧
      ∃ info, getLenInfo hex (getEncodingDesc (hex.take 2)) = .ok info ∧
        info.headerLen = 1 + (lengthBytes n).length ∧ (info.dataLen = n ↔ n = base + 56) := by
  have hle : (lengthBytes n).length ≤ 8 := length_lengthBytes_le hn
  have hpos : 0 < (lengthBytes n).length := lengthBytes_pos (by omega)
  have hbyte := UInt8.toNat_ofNat_of_lt' (n := base + 55 + (lengthBytes n).length)
    (show _ < 256 by omega)
  rw [header, if_neg (by omega), cons_append] at h
  obtain ⟨dataLen, hread, hexact⟩ := readLongLength_iff hbase (by omega) hn h
  obtain ⟨htype, hinfo⟩ := htype (lengthBytes n).length hpos hle
  have hvalue := (firstByte_of_spells h).2
  rw [hbyte] at hvalue
  have hheader : sizeT (((lengthBytes n).length : Int) + 1) = 1 + (lengthBytes n).length := by
    rw [sizeT]
    omega
  rw [getEncodingDesc, hvalue, htype]
  refine ⟨rfl, ⟨dataLen, 1 + (lengthBytes n).length⟩, ?_, rfl, hexact⟩
  rw [hinfo, longLenInfo, hread, Except.map, hheader]

/-- **Long headers.** The length of the header is always right; that of the data is right for
strings of 184 bytes and lists of 248 bytes only, whose first byte happens to be their length. -/
theorem long_headers_iff (n : Nat) (hlow : 56 ≤ n) (hhigh : n ≤ 2 ^ 32 - 1) (payload : List UInt8)
    (hpayload : payload.length = n) (hex : List UInt8) :
    (Spells hex (encodeString payload) →
        (getEncodingDesc (hex.take 2)).type = .medium ∧
          ∃ info, getLenInfo hex (getEncodingDesc (hex.take 2)) = .ok info ∧
            info.headerLen = 1 + (lengthBytes n).length ∧ (info.dataLen = n ↔ n = 184)) ∧
      (Spells hex (header 0xc0 n ++ payload) →
        (getEncodingDesc (hex.take 2)).type = .longList ∧
          ∃ info, getLenInfo hex (getEncodingDesc (hex.take 2)) = .ok info ∧
            info.headerLen = 1 + (lengthBytes n).length ∧ (info.dataLen = n ↔ n = 248)) := by
  constructor
  · intro h
    have hmany : isSingle payload = false := by
      unfold isSingle
      split
      · rw [length_singleton] at hpayload
        omega
      · rfl
    rw [encodeString, hmany, if_neg (by decide), hpayload] at h
    refine getLenInfo_long (by norm_num) (by omega) (by omega) h fun k hk hk8 =>
      ⟨?_, fun first => ?_⟩
    · rw [encodingType, if_neg (by omega), if_neg (by omega), if_pos (by omega)]
    · have hcount : sizeT (((0x80 + 55 + k : Nat) : Int) - 0xb7) = k := by
        rw [sizeT]
        omega
      rw [getLenInfo, hcount]
  · intro h
    refine getLenInfo_long (by norm_num) (by omega) (by omega) h fun k hk hk8 =>
      ⟨?_, fun first => ?_⟩
    · rw [encodingType, if_neg (by omega), if_neg (by omega), if_neg (by omega), if_neg (by omega)]
    · have hcount : sizeT (((0xc0 + 55 + k : Nat) : Int) - 0xf7) = k := by
        rw [sizeT]
        omega
      rw [getLenInfo, hcount]

theorem long_headers_iff_lucky :
    ∃ info, getLenInfo (spell (encodeString (replicate 184 7)))
        (getEncodingDesc ((spell (encodeString (replicate 184 7))).take 2)) = .ok info ∧
      info.dataLen = 184 := by
  obtain ⟨-, info, hinfo, -, hexact⟩ := (long_headers_iff 184 (by norm_num) (by norm_num)
    (replicate 184 7) length_replicate _).1 (spells_spell _)
  exact ⟨info, hinfo, hexact.mpr rfl⟩

/-- The shortest long string, and one with two length bytes: 184 and 1 are read for 56 and 256. -/
theorem long_lengths_misread :
    getLenInfo (spell (encodeString (replicate 56 7)))
        (getEncodingDesc ((spell (encodeString (replicate 56 7))).take 2)) =
      .ok ⟨184, 2⟩ ∧
    getLenInfo (spell (header 0xc0 256 ++ replicate 256 7))
        (getEncodingDesc ((spell (header 0xc0 256 ++ replicate 256 7)).take 2)) =
      .ok ⟨1, 3⟩ := by
  decide +kernel

end LinuxWorkouts.Rlp
