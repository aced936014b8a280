import LinuxWorkouts.Eml.Charset
import LinuxWorkouts.Lib.CodePages

/-!
The charset decoders of the mail parser on Russian text (`charset_decoder.cpp`).

The decoders work byte by byte, so what they do with a text follows from what they do with each
character (`decoded_character`). The table of KOI8-R and the offsets of ISO-8859-5 are
right for every letter. The branches of windows-1251 for yo subtract the offsets of the other
letters, from bytes to which these do not apply.
-/

namespace LinuxWorkouts.Eml

open Ascii CodePages

theorem decoded_character : ∀ c ∈ repertoire,
    iso88595ByteToUtf8 iso88595 (CodePages.iso88595 c) = String.utf8EncodeChar c ∧
      koi8rByteToUtf8 (koi8r c) = String.utf8EncodeChar c ∧
      (win1251ByteToUtf8 win1251 (windows1251 c)).length = (String.utf8EncodeChar c).length ∧
      (win1251ByteToUtf8 win1251 (windows1251 c) = String.utf8EncodeChar c ↔
        c ≠ capitalYo ∧ c ≠ smallYo) :=
  List.all_iff_forall_prop.mp (by decide +kernel)

/-! ### The choice of the decoder -/

theorem rawBytesToUtf8_iso (bytes : List UInt8) :
    rawBytesToUtf8 bytes (ascii "ISO-8859-5") = bytes.flatMap (iso88595ByteToUtf8 iso88595) := by
  rw [rawBytesToUtf8_eq bytes (by simp [ascii])]
  simp [byteToUtf8]

theorem rawBytesToUtf8_win (bytes : List UInt8) :
    rawBytesToUtf8 bytes (ascii "windows-1251") = bytes.flatMap (win1251ByteToUtf8 win1251) := by
  rw [rawBytesToUtf8_eq bytes (by simp [ascii])]
  simp [byteToUtf8, ascii, ofChar]

theorem rawBytesToUtf8_koi (bytes : List UInt8) :
    rawBytesToUtf8 bytes (ascii "koi8-r") = bytes.flatMap koi8rByteToUtf8 := by
  rw [rawBytesToUtf8_eq bytes (by simp [ascii])]
  simp [byteToUtf8, ascii, ofChar]

/-! ### Texts -/

/-- **Russian text.** From ISO-8859-5 and KOI8-R every text is decoded to its UTF-8 encoding; from
windows-1251 exactly the texts without yo are. -/
theorem charsets_agree_iff (text : List Char) (htext : ∀ c ∈ text, c ∈ repertoire) :
    rawBytesToUtf8 (text.map CodePages.iso88595) (ascii "ISO-8859-5") = utf8 text ∧
      rawBytesToUtf8 (text.map koi8r) (ascii "koi8-r") = utf8 text ∧
      (rawBytesToUtf8 (text.map windows1251) (ascii "windows-1251") = utf8 text ↔
        capitalYo ∉ text ∧ smallYo ∉ text) := by
  refine ⟨?_, ?_, ?_⟩
  · rw [rawBytesToUtf8_iso]
    exact decode_text fun c hc => (decoded_character c (htext c hc)).1
  · rw [rawBytesToUtf8_koi]
    exact decode_text fun c hc => (decoded_character c (htext c hc)).2.1
  · rw [rawBytesToUtf8_win, List.flatMap_map, utf8,
      flatMap_congr_iff fun c hc => (decoded_character c (htext c hc)).2.2.1]
    have hwin : ∀ c ∈ text, win1251ByteToUtf8 win1251 (windows1251 c) = String.utf8EncodeChar c ↔
        c ≠ capitalYo ∧ c ≠ smallYo := fun c hc => (decoded_character c (htext c hc)).2.2.2
    constructor
    · intro h
      exact ⟨fun hc => ((hwin _ hc).mp (h _ hc)).1 rfl, fun hc => ((hwin _ hc).mp (h _ hc)).2 rfl⟩
    · rintro ⟨hcapital, hsmall⟩ c hc
      refine (hwin c hc).mpr ⟨?_, ?_⟩
      · rintro rfl
        exact hcapital hc
      · rintro rfl
        exact hsmall hc

theorem charsets_agree_iff_word :
    rawBytesToUtf8 ([Char.ofNat 0x434, Char.ofNat 0x430, '!'].map windows1251)
        (ascii "windows-1251") =
      utf8 [Char.ofNat 0x434, Char.ofNat 0x430, '!'] :=
  (charsets_agree_iff [Char.ofNat 0x434, Char.ofNat 0x430, '!']
    (List.all_iff_forall_prop.mp (by decide +kernel))).2.2.mpr (by decide)

/-- Both forms of yo come out of windows-1251 as a first byte of UTF-8 with an ASCII letter behind
it. -/
theorem yo_misdecoded :
    rawBytesToUtf8 [windows1251 capitalYo] (ascii "windows-1251") = [0xD0, 0x78] ∧
      utf8 [capitalYo] = [0xD0, 0x81] ∧
      rawBytesToUtf8 [windows1251 smallYo] (ascii "windows-1251") = [0xD1, 0x48] ∧
      utf8 [smallYo] = [0xD1, 0x91] := by
  rw [rawBytesToUtf8_win, rawBytesToUtf8_win]
  decide +kernel

end LinuxWorkouts.Eml
