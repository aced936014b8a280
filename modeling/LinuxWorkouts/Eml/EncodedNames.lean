import LinuxWorkouts.Eml.Names
import LinuxWorkouts.Eml.Base64Laws
import LinuxWorkouts.Lib.EscapedText

/-!
What the decoders of attachment names do with well-formed names (`get_attachments.cpp`,
`base16.cpp`).

* `encoded_words_joined_iff` — RFC 2047 words in base64 come back, joined by any white space, unless
  one is too long for the decoder's counters;
* `quotedPrintable_exact_iff` — RFC 2047 words in the Q encoding come back unless a space is written
  as `_` or an escape begins with a small letter;
* `extended_name_decoded` — RFC 2231 names come back;
* `plain_name_kept` — names that are not encoded are kept unless they have a `=`.

`getEncodedLineTokens_cut` is the split at the first two separators that two of them share.
-/

namespace LinuxWorkouts.Eml

open Ascii StdString Hex EscapedText List

theorem getEncodedLineTokens_cut {sep : UInt8} {first second : List UInt8} (hfirst : sep ∉ first)
    (hsecond : sep ∉ second) (rest : List UInt8) :
    getEncodedLineTokens (first ++ sep :: (second ++ sep :: rest)) sep =
      .ok (first, second, rest) := by
  have hpos : find (first ++ sep :: (second ++ sep :: rest)) sep 0 = some first.length :=
    find_append_cons hfirst
  have hnext : find (first ++ sep :: (second ++ sep :: rest)) sep (first.length + 1) =
      some (first.length + 1 + second.length) := by
    have h := find_append_append_cons (p := first ++ [sep]) (t := rest) hsecond
    simpa using h
  have hcount : upTo (some (first.length + 1 + second.length)) (first.length + 1) =
      second.length := by
    rw [upTo, sizeSub, if_pos (by omega)]
    omega
  have hcut0 : substr (first ++ sep :: (second ++ sep :: rest)) 0 first.length = .ok first :=
    substr_middle [] first (sep :: (second ++ sep :: rest))
  have hcut1 : substr (first ++ sep :: (second ++ sep :: rest)) (first.length + 1)
      second.length = .ok second := by
    have h := substr_middle (first ++ [sep]) second (sep :: rest)
    simpa using h
  have hcut2 : substr (first ++ sep :: (second ++ sep :: rest))
      (first.length + 1 + second.length + 1)
      (first ++ sep :: (second ++ sep :: rest)).length = .ok rest := by
    have h := substr_tail (first ++ sep :: (second ++ [sep])) rest
      (show rest.length ≤ (first ++ sep :: (second ++ sep :: rest)).length by simp; omega)
    simpa [Nat.add_assoc, Nat.add_comm, Nat.add_left_comm] using h
  simp only [getEncodedLineTokens, hpos, hnext, hcount, past, hcut0, hcut1, hcut2]
  rfl

/-! ### Words in base64 -/

def encodedWord (bytes : List UInt8) : List UInt8 :=
  ascii "=?utf-8?B?" ++ standardEncoding bytes ++ ascii "?="

theorem rawBytesToUtf8_utf8 (bytes : List UInt8) :
    rawBytesToUtf8 bytes (ascii "utf-8") = bytes := by
  rw [rawBytesToUtf8_eq bytes (by simp [ascii])]
  simp [byteToUtf8, ascii, ofChar]

variable {bytes : List UInt8} {c b high low : UInt8}

def decodedWord (junk : Junk) (bytes : List UInt8) : List UInt8 :=
  if bytes.length ≤ 3 * (2 ^ 29 - 1) then bytes else junk.bytesOverflow (standardEncoding bytes)

theorem base64DecodeToBytes_standardEncoding (junk : Junk) (hne : bytes ≠ []) :
    base64DecodeToBytes junk (standardEncoding bytes) = some (decodedWord junk bytes) := by
  rw [decodedWord]
  split
  · next hshort =>
      exact decodeToBytes_of_checked (Checked.base64DecodeToBytes_ok_iff.mpr
        ((decodes_standardEncoding_iff junk.table hne).mpr hshort))
  · next hlong =>
      have hlength := length_standardEncoding bytes
      have hlen : (standardEncoding bytes).length % 4 = 0 := by omega
      have hpads := padCount_le (standardEncoding bytes)
      rw [base64DecodeToBytes, if_neg (not_not.mpr hlen),
        padding_eq junk (standardEncoding_ne_nil hne) hlen]
      rw [if_neg (by omega), if_neg (by omega)]

theorem getDecodedTextRfc2047_word (junk : Junk) (hne : bytes ≠ []) :
    getDecodedTextRfc2047 junk (encodedWord bytes) = .ok (decodedWord junk bytes) := by
  have hopen : ascii "=?utf-8?B?" = ascii "=?" ++
      (ascii "utf-8" ++ ofChar '?' :: (ascii "B" ++ ofChar '?' :: [])) := rfl
  have hcharset : ofChar '?' ∉ ascii "utf-8" := by simp [ascii, ofChar]
  have hencoding : ofChar '?' ∉ ascii "B" := by simp [ascii, ofChar]
  have hbody : substr (encodedWord bytes) 2 (sizeSub (encodedWord bytes).length 4) =
      .ok (ascii "utf-8" ++ ofChar '?' :: (ascii "B" ++ ofChar '?' :: standardEncoding bytes)) := by
    have hsplit : encodedWord bytes = ascii "=?" ++
        ((ascii "utf-8" ++ ofChar '?' :: (ascii "B" ++ ofChar '?' :: standardEncoding bytes)) ++
          ascii "?=") := by
      rw [encodedWord, hopen]
      simp only [append_assoc, cons_append, nil_append]
    have hcut := substr_middle (ascii "=?")
      (ascii "utf-8" ++ ofChar '?' :: (ascii "B" ++ ofChar '?' :: standardEncoding bytes))
      (ascii "?=")
    have hends : (ascii "=?").length = 2 ∧ (ascii "?=").length = 2 := ⟨rfl, rfl⟩
    rw [hsplit]
    convert hcut using 2
    · exact hends.1.symm
    · rw [length_append, length_append, hends.1, hends.2, sizeSub, if_pos (by omega)]
      omega
  rw [getDecodedTextRfc2047, hbody]
  simp only [bind, Except.bind, getEncodedLineTokens_cut hcharset hencoding, true_or, if_true,
    base64DecodeToBytes_standardEncoding junk hne, Option.getD_some, rawBytesToUtf8_utf8]

section Words

variable {separators : List UInt8}

theorem splitLine_word {word : List UInt8} (hword : ∀ c ∈ word, c ∉ separators)
    (rest val : List UInt8) :
    splitLine separators (word ++ rest) val = splitLine separators rest (val ++ word) := by
  induction word generalizing val with
  | nil => rw [nil_append, append_nil]
  | cons c word ih =>
    obtain ⟨hc, hword⟩ := forall_mem_cons.mp hword
    rw [cons_append, splitLine, if_pos hc, ih hword, append_assoc]
    rfl

theorem splitLine_run {run : List UInt8} (hrun : ∀ c ∈ run, c ∈ separators) (hne : run ≠ [])
    (rest val : List UInt8) :
    splitLine separators (run ++ rest) val =
      (if val ≠ [] then [val] else []) ++ splitLine separators rest [] := by
  induction run generalizing val with
  | nil => exact absurd rfl hne
  | cons c run ih =>
    obtain ⟨hc, hrun⟩ := forall_mem_cons.mp hrun
    rw [cons_append, splitLine, if_neg (not_not.mpr hc)]
    cases run with
    | nil => rfl
    | cons d run =>
      rw [ih hrun (cons_ne_nil d run)]
      rfl

theorem splitLine_joined {word : List UInt8} (others : List (List UInt8 × List UInt8))
    (hword : word ≠ [] ∧ ∀ c ∈ word, c ∉ separators)
    (hothers : ∀ p ∈ others, (p.1 ≠ [] ∧ ∀ c ∈ p.1, c ∈ separators) ∧
      p.2 ≠ [] ∧ ∀ c ∈ p.2, c ∉ separators) :
    splitLine separators (word ++ others.flatMap fun p => p.1 ++ p.2) [] =
      word :: others.map Prod.snd := by
  induction others generalizing word with
  | nil =>
    rw [splitLine_word hword.2, flatMap_nil, nil_append, splitLine, if_pos hword.1]
    rfl
  | cons p others ih =>
    obtain ⟨⟨hrun, hword'⟩, hothers⟩ := forall_mem_cons.mp hothers
    rw [splitLine_word hword.2, flatMap_cons, append_assoc,
      splitLine_run hrun.2 hrun.1, nil_append, if_pos hword.1, ih hword' hothers]
    rfl

end Words

theorem encodedWord_plain (hc : c ∈ encodedWord bytes) : c ∉ [ofChar ' ', 10, 13, 9] := by
  have hopen : ∀ c ∈ ascii "=?utf-8?B?", c ∉ [ofChar ' ', 10, 13, 9] := by simp [ascii, ofChar]
  have hclose : ∀ c ∈ ascii "?=", c ∉ [ofChar ' ', 10, 13, 9] := by simp [ascii, ofChar]
  rcases mem_append.mp hc with hc | hc
  · rcases mem_append.mp hc with hc | hc
    · exact hopen c hc
    · rcases Base64Format.mem_encode _ _ hc with rfl | ⟨k, hk, rfl⟩
      · decide
      · exact (alphabet_digit ⟨k, hk⟩).2.2.1
  · exact hclose c hc

theorem encodedWord_ne_nil (bytes : List UInt8) : encodedWord bytes ≠ [] := by
  have hopen : ascii "=?utf-8?B?" ≠ [] := by simp [ascii]
  rw [encodedWord, append_assoc]
  exact append_ne_nil_of_left_ne_nil hopen _

theorem appendDecoded_word (junk : Junk) (filename : List UInt8) (hne : bytes ≠ []) :
    appendDecoded junk filename (encodedWord bytes) = .ok (filename ++ decodedWord junk bytes) := by
  have hmatch : rfc2047 (encodedWord bytes) = true := by
    have hmem : ofChar '=' ∈ ascii "?=" := by simp [ascii]
    exact contains_eq_iff.mpr (mem_append_right _ hmem)
  rw [appendDecoded, if_pos hmatch, getDecodedTextRfc2047_word junk hne]
  rfl

theorem foldlM_words (junk : Junk) {words : List (List UInt8)} (hne : ∀ w ∈ words, w ≠ [])
    (filename : List UInt8) :
    (words.map encodedWord).foldlM (appendDecoded junk) filename =
      .ok (filename ++ (words.map (decodedWord junk)).flatten) := by
  induction words generalizing filename with
  | nil => simp [pure, Except.pure]
  | cons w words ih =>
    obtain ⟨hw, hwords⟩ := forall_mem_cons.mp hne
    rw [map_cons, foldlM_cons, appendDecoded_word junk filename hw]
    simp only [bind, Except.bind]
    rw [ih hwords, map_cons, flatten_cons, append_assoc]

theorem map_decodedWord (junk : Junk) {words : List (List UInt8)}
    (hshort : ∀ w ∈ words, w.length ≤ 3 * (2 ^ 29 - 1)) : words.map (decodedWord junk) = words :=
  (map_congr_left fun w hw => if_pos (hshort w hw)).trans (map_id' words)

theorem exists_decodedWord_ne {words : List (List UInt8)} {w : List UInt8} (hw : w ∈ words)
    (hlong : ¬ w.length ≤ 3 * (2 ^ 29 - 1)) :
    ∃ junk, (words.map (decodedWord junk)).flatten ≠ words.flatten := by
  refine ⟨{ Junk.clear with
    bytesOverflow := fun _ => replicate (words.flatten.length + 1) 0 }, fun h => ?_⟩
  have hmem := mem_map_of_mem (f := decodedWord { Junk.clear with
    bytesOverflow := fun _ => replicate (words.flatten.length + 1) 0 }) hw
  have hle := (sublist_flatten_of_mem hmem).length_le
  rw [h, decodedWord, if_neg hlong, length_replicate] at hle
  omega

section Joined

variable (x : List UInt8) (others : List (List UInt8 × List UInt8))

def joinedWords : List UInt8 := encodedWord x ++ others.flatMap fun p => p.1 ++ encodedWord p.2

variable (hx : x ≠ [])
    (hothers : ∀ p ∈ others, p.1 ≠ [] ∧ (∀ c ∈ p.1, c ∈ [ofChar ' ', 10, 13, 9]) ∧ p.2 ≠ [])

include hx hothers

theorem parseRfc2047_joinedWords (junk : Junk) :
    parseRfc2047 junk (joinedWords x others) =
      .ok ((x :: others.map Prod.snd).map (decodedWord junk)).flatten := by
  have htokens : nameTokens (joinedWords x others) =
      (x :: others.map Prod.snd).map encodedWord := by
    have h := splitLine_joined (others.map fun p => (p.1, encodedWord p.2))
      ⟨encodedWord_ne_nil x, fun c hc => encodedWord_plain hc⟩ ?_
    · simpa [nameTokens, joinedWords, flatMap_map, Function.comp_def] using h
    · intro p hp
      obtain ⟨q, hq, rfl⟩ := mem_map.mp hp
      obtain ⟨hrun, hseps, -⟩ := hothers q hq
      exact ⟨⟨hrun, hseps⟩, encodedWord_ne_nil q.2, fun c hc => encodedWord_plain hc⟩
  have hne : ∀ w ∈ x :: others.map Prod.snd, w ≠ [] := by
    rw [forall_mem_cons]
    refine ⟨hx, fun w hw => ?_⟩
    obtain ⟨p, hp, rfl⟩ := mem_map.mp hw
    exact (hothers p hp).2.2
  rw [parseRfc2047, htokens, foldlM_words junk hne, nil_append]

/-- **Encoded words come back.** Words of non-empty byte strings, with any white space between them,
are decoded to the byte strings in a row, exactly if the base64 text of each is shorter than 2^31
characters. -/
theorem encoded_words_joined_iff :
    (∀ junk, parseRfc2047 junk (joinedWords x others) =
      .ok (x ++ (others.map Prod.snd).flatten)) ↔
      ∀ w ∈ x :: others.map Prod.snd, w.length ≤ 3 * (2 ^ 29 - 1) := by
  simp only [parseRfc2047_joinedWords x others hx hothers]
  constructor
  · intro h w hw
    by_contra hlong
    obtain ⟨junk, hne⟩ := exists_decodedWord_ne hw hlong
    exact hne (Except.ok.inj (h junk))
  · intro hshort junk
    rw [map_decodedWord junk hshort, flatten_cons]

end Joined

theorem encoded_words_joined_two :
    parseRfc2047 .clear (encodedWord [208, 159] ++ [13, 10, 9] ++ encodedWord [46]) =
      .ok [208, 159, 46] := by
  have h := (encoded_words_joined_iff [208, 159] [([13, 10, 9], [46])] (cons_ne_nil _ _)
    (by simp)).mpr (by simp) .clear
  simpa [joinedWords] using h

/-- One word of 3·2^29 + 3 letters. -/
theorem long_word_not_decoded :
    parseRfc2047 .clear (encodedWord (replicate (3 * 2 ^ 29 + 3) 97)) ≠
      .ok (replicate (3 * 2 ^ 29 + 3) 97) := by
  have hlength := length_replicate (a := (97 : UInt8)) (n := 3 * 2 ^ 29 + 3)
  generalize replicate (3 * 2 ^ 29 + 3) (97 : UInt8) = bytes at hlength ⊢
  have hne : bytes ≠ [] := ne_nil_of_length_pos (by omega)
  have h := parseRfc2047_joinedWords bytes [] hne (by simp) .clear
  rw [joinedWords, flatMap_nil, append_nil, map_nil, map_singleton,
    flatten_singleton, decodedWord, if_neg (by omega)] at h
  rw [h]
  exact fun heq => hne (Except.ok.inj heq).symm

/-! ### The Q encoding -/

/-- The characters of the Q encoding: a printable character stands for itself, `_` for a space. -/
def QStands (c b : UInt8) : Prop :=
  (c = b ∧ 33 ≤ c ∧ c ≤ 126 ∧ c ∉ [ofChar '=', ofChar '?', ofChar '_', ofChar ' ']) ∨
    (c = ofChar '_' ∧ b = 0x20)

instance (c b : UInt8) : Decidable (QStands c b) := by
  unfold QStands
  infer_instance

def qOutput : Written QStands → List UInt8
  | .plain c _ _ => [c]
  | .escaped b high low _ _ => if isHexChar high then [b] else [b, low]

/-- Written in the forms that the decoder knows: no `_`, and no small letter behind `=`. -/
def QKnown : Written QStands → Prop
  | .plain c b _ => c = b
  | .escaped _ high _ _ _ => isHexChar high = true

theorem SpellsDigit.cases {n : Nat} (h : SpellsDigit c n) (hn : n < 16) :
    isHexChar (toUpper c) = true ∧ getDecimalDigitFromHexChar (toUpper c) = n ∧ c ≠ 0 ∧
      isSpace c = false ∧
      c ∉ [ofChar '=', ofChar '-', ofChar '+', ofChar 'x', ofChar 'X', ofChar '%'] := by
  have hall : ((range 16).all fun n => [lowerDigit n, upperDigit n].all fun c =>
      isHexChar (toUpper c) = true ∧ getDecimalDigitFromHexChar (toUpper c) = n ∧ c ≠ 0 ∧
        isSpace c = false ∧
        c ∉ [ofChar '=', ofChar '-', ofChar '+', ofChar 'x', ofChar 'X', ofChar '%']) = true := by
    decide +kernel
  have hdigit := all_eq_true.mp hall n (mem_range.mpr hn)
  refine all_iff_forall_prop.mp hdigit c ?_
  rcases h with rfl | rfl
  · exact mem_cons_self
  · exact mem_cons_of_mem _ mem_cons_self

theorem hexToDecimal_digits (hhigh : SpellsDigit high (b.toNat / 16))
    (hlow : SpellsDigit low (b.toNat % 16)) : hexToDecimal [high, low] = b.toNat := by
  have hb : b.toNat < 256 := b.toNat_lt
  obtain ⟨-, hhigh, -⟩ := SpellsDigit.cases hhigh (by omega)
  obtain ⟨-, hlow, -⟩ := SpellsDigit.cases hlow (by omega)
  have hsum : hexToDecimal [high, low] =
      16 ^ 0 * getDecimalDigitFromHexChar (toUpper low) +
        (16 ^ 1 * getDecimalDigitFromHexChar (toUpper high) + 0) := rfl
  rw [hsum, hhigh, hlow]
  omega

theorem ofInt_toNat (b : UInt8) : UInt8.ofInt b.toNat = b := by
  have hb : b.toNat < 256 := b.toNat_lt
  rw [UInt8.ofInt, ← UInt8.toNat_inj, UInt8.toNat_ofNat']
  omega

theorem decodeHexToken_digits (hhigh : SpellsDigit high (b.toNat / 16))
    (hlow : SpellsDigit low (b.toNat % 16)) :
    decodeHexToken [high, low] (ascii "utf-8") = [b] := by
  rw [decodeHexToken, hexToDecimal_digits hhigh hlow, rawBytesToUtf8_utf8, ofInt_toNat]

theorem quotedPrintable_plain (charset : List UInt8) (hc : c ≠ ofChar '=') (rest : List UInt8) :
    quotedPrintable charset (c :: rest) = c :: quotedPrintable charset rest := by
  match rest with
  | [] => simp only [quotedPrintable, if_neg hc]
  | [x] => conv_lhs => rw [quotedPrintable, if_neg hc]
  | x :: y :: rest => rw [quotedPrintable, if_neg hc]

theorem quotedPrintable_escaped (hhigh : SpellsDigit high (b.toNat / 16))
    (hlow : SpellsDigit low (b.toNat % 16)) (rest : List UInt8) :
    quotedPrintable (ascii "utf-8") (ofChar '=' :: high :: low :: rest) =
      (if isHexChar high then [b] else [b, low]) ++ quotedPrintable (ascii "utf-8") rest := by
  have hdigit := (SpellsDigit.cases hlow (by omega)).2.2.2.2
  have hne : low ≠ ofChar '=' := fun h => hdigit (h ▸ mem_cons_self)
  rw [quotedPrintable, if_pos rfl, decodeHexToken_digits hhigh hlow]
  split
  · rfl
  · rw [quotedPrintable_plain _ hne]
    rfl

theorem quotedPrintable_textOf (ws : List (Written QStands)) :
    quotedPrintable (ascii "utf-8") (textOf (ofChar '=') ws) = ws.flatMap qOutput := by
  induction ws with
  | nil => rfl
  | cons w ws ih =>
    have htext : textOf (ofChar '=') (w :: ws) = w.text (ofChar '=') ++ textOf (ofChar '=') ws :=
      rfl
    rw [flatMap_cons, ← ih, htext]
    cases w with
    | plain c b h =>
      have hne : c ≠ ofChar '=' := by
        rintro rfl
        rcases h with ⟨-, -, -, h⟩ | ⟨h, -⟩
        · exact h mem_cons_self
        · exact absurd h (by decide)
      exact quotedPrintable_plain _ hne _
    | escaped b high low hhigh hlow => exact quotedPrintable_escaped hhigh hlow _

/-- **The Q encoding.** Of all encodings of a byte string, those are decoded to it in which no space
is written as `_` and no escape begins with a small letter. -/
theorem quotedPrintable_exact_iff (ws : List (Written QStands)) :
    quotedPrintable (ascii "utf-8") (textOf (ofChar '=') ws) = bytesOf ws ↔ ∀ w ∈ ws, QKnown w := by
  have houtput : ∀ w : Written QStands, qOutput w ≠ [] := by
    intro w
    cases w with
    | plain c b h => exact cons_ne_nil _ _
    | escaped b high low hhigh hlow =>
      rw [qOutput]
      split <;> exact cons_ne_nil _ _
  rw [quotedPrintable_textOf, bytesOf, flatMap_eq_map_iff houtput]
  refine forall₂_congr fun w _ => ?_
  cases w with
  | plain c b h => simp [qOutput, QKnown, Written.byte]
  | escaped b high low hhigh hlow =>
    rw [qOutput, QKnown, Written.byte]
    split
    · next h => simp [h]
    · next h => simp [h]

/-- A space that is written as `_` comes back as `_`, and behind `=d0` a `0` is left over. -/
theorem quotedPrintable_inexact :
    (∃ ws : List (Written QStands), textOf (ofChar '=') ws = ascii "a_b" ∧
        bytesOf ws = ascii "a b" ∧
        quotedPrintable (ascii "utf-8") (ascii "a_b") = ascii "a_b") ∧
      ∃ ws : List (Written QStands), textOf (ofChar '=') ws = ascii "=d0" ∧ bytesOf ws = [0xd0] ∧
        quotedPrintable (ascii "utf-8") (ascii "=d0") = [0xd0, ofChar '0'] := by
  refine ⟨⟨[.plain 97 97 (by decide), .plain 95 32 (by decide), .plain 98 98 (by decide)],
    ?_, ?_, ?_⟩, ⟨[.escaped 0xd0 100 48 (by decide) (by decide)], ?_, ?_, ?_⟩⟩
  all_goals decide +kernel

/-! ### RFC 2231 -/

/-- The characters of an RFC 2231 text: all but `%` stand for themselves. -/
def UrlStands (c b : UInt8) : Prop := c = b ∧ c ≠ ofChar '%'

instance (c b : UInt8) : Decidable (UrlStands c b) := by
  unfold UrlStands
  infer_instance

def parseRfc2231 (junk : Junk) (str : List UInt8) : Except Fault (List UInt8) :=
  getDecodedTextRfc2231 junk str

theorem hexDigit_of_spells {n : Nat} (h : SpellsDigit c n) (hn : n < 16) : hexDigit c = some n := by
  obtain ⟨hhex, hvalue, -⟩ := SpellsDigit.cases h hn
  rw [hexDigit, if_pos hhex, hvalue, Int.toNat_natCast]

theorem scanHex_digits (hhigh : SpellsDigit high (b.toNat / 16))
    (hlow : SpellsDigit low (b.toNat % 16)) (temp : Int) : scanHex [high, low] temp = b.toNat := by
  have hb : b.toNat < 256 := b.toNat_lt
  have h1 := hexDigit_of_spells hhigh (by omega)
  have h2 := hexDigit_of_spells hlow (by omega)
  obtain ⟨-, -, hne, hspace, hother⟩ := SpellsDigit.cases hhigh (by omega)
  obtain ⟨-, -, hne', -, hother'⟩ := SpellsDigit.cases hlow (by omega)
  simp only [mem_cons, not_mem_nil, or_false, not_or] at hother hother'
  have hstring : cString [high, low] = [high, low] := by simp [cString, hne, hne']
  have hsign : ([high, low].head? = some (ofChar '-')) = False := by simpa using hother.2.1
  have hplus : ([high, low].head? = some (ofChar '+')) = False := by simpa using hother.2.2.1
  have hhex : ¬ ([high, low].take 2 = ascii "0x" ∨ [high, low].take 2 = ascii "0X") := by
    have hx : ascii "0x" = [ofChar '0', ofChar 'x'] := rfl
    have hX : ascii "0X" = [ofChar '0', ofChar 'X'] := rfl
    simp [hx, hX, hother'.2.2.2.1, hother'.2.2.2.2.1]
  have hdrop : [high, low].dropWhile isSpace = [high, low] := by simp [hspace]
  simp only [scanHex, hstring, hdrop, hsign, hplus, or_self, if_false, hhex]
  simp [h1, h2]
  omega

theorem urlDecode_plain (temp : Int) (hc : c ≠ ofChar '%') (rest : List UInt8) :
    urlDecode temp (c :: rest) = c :: urlDecode temp rest := by
  match rest with
  | [] => simp only [urlDecode, if_neg hc]
  | [x] => conv_lhs => rw [urlDecode, if_neg hc]
  | x :: y :: rest => rw [urlDecode, if_neg hc]

theorem urlDecode_textOf (temp : Int) (ws : List (Written UrlStands)) :
    urlDecode temp (textOf (ofChar '%') ws) = bytesOf ws := by
  refine decode_textOf (fun _ => rfl) ?_ ?_ temp ws
  · rintro temp c b rest ⟨rfl, hc⟩
    exact ⟨temp, urlDecode_plain temp hc rest⟩
  · intro temp b high low rest hhigh hlow
    refine ⟨b.toNat, ?_⟩
    rw [urlDecode, if_pos rfl, scanHex_digits hhigh hlow, ofInt_toNat]

/-- **RFC 2231 names come back.** Any charset and language without an apostrophe, and any mixture of
characters and escapes behind them. -/
theorem extended_name_decoded (junk : Junk) (charset language : List UInt8)
    (hcharset : apostrophe ∉ charset) (hlanguage : apostrophe ∉ language)
    (ws : List (Written UrlStands)) :
    parseRfc2231 junk
        (charset ++ apostrophe :: (language ++ apostrophe :: textOf (ofChar '%') ws)) =
      .ok (bytesOf ws) := by
  rw [parseRfc2231, getDecodedTextRfc2231, getEncodedLineTokens_cut hcharset hlanguage]
  simp only [bind, Except.bind, urlDecode_textOf]

theorem extended_name_decoded_mixed :
    parseRfc2231 .clear (ascii "utf-8'en'%C3%a9 'x") = .ok [0xc3, 0xa9, 32, 39, 120] := by
  have h := extended_name_decoded .clear (ascii "utf-8") (ascii "en")
    (by simp [ascii, ofChar, apostrophe]) (by simp [ascii, ofChar, apostrophe])
    [.escaped 0xc3 67 51 (by decide) (by decide), .escaped 0xa9 97 57 (by decide) (by decide),
      .plain 32 32 (by decide), .plain 39 39 (by decide), .plain 120 120 (by decide)]
  have htext : ascii "utf-8" ++ apostrophe :: (ascii "en" ++ apostrophe ::
      ascii "%C3%a9 'x") = ascii "utf-8'en'%C3%a9 'x" := rfl
  rw [← htext]
  exact h

/-! ### Names that are not encoded -/

theorem hint2231_mem {s : List UInt8} (h : hint2231 s) : apostrophe ∈ s := by
  obtain ⟨u, v, rfl, -⟩ := Search.gapTest_iff.mp h
  have hmem : apostrophe ∈ ascii "'" := mem_singleton.mpr rfl
  exact mem_append_right u (mem_append_left v hmem)

theorem getDecodedTextRfc2047_plain (junk : Junk) {token text : List UInt8}
    (htoken : ofChar '?' ∉ token) (h : getDecodedTextRfc2047 junk token = .ok text) :
    text = [] := by
  have hnone : ¬ ([] = ascii "B" ∨ [] = ascii "b") ∧ ¬ ([] = ascii "Q" ∨ [] = ascii "q") := by
    simp [ascii]
  obtain ⟨prepared, hprepared, h⟩ := bind_eq_ok.mp h
  have hsub : ofChar '?' ∉ prepared := by
    rw [substr] at hprepared
    split at hprepared
    · cases hprepared
      exact fun hmem => htoken (mem_of_mem_drop (mem_of_mem_take hmem))
    · cases hprepared
  have hcut : getEncodedLineTokens prepared (ofChar '?') = .ok ([], [], prepared) := by
    rw [getEncodedLineTokens, find_eq_none hsub]
  rw [hcut] at h
  simp only [bind, Except.bind, if_neg hnone.1, if_neg hnone.2] at h
  exact (Except.ok.inj h).symm

theorem foldlM_plain (junk : Junk) {tokens : List (List UInt8)}
    (htokens : ∀ t ∈ tokens, ofChar '?' ∉ t) {filename result : List UInt8}
    (h : tokens.foldlM (appendDecoded junk) filename = .ok result) : result = filename := by
  induction tokens generalizing filename with
  | nil => exact (Except.ok.inj h).symm
  | cons t tokens ih =>
    obtain ⟨ht, htokens⟩ := forall_mem_cons.mp htokens
    rw [foldlM_cons] at h
    obtain ⟨filename', hround, h⟩ := bind_eq_ok.mp h
    have hsame : filename' = filename := by
      rw [appendDecoded] at hround
      split at hround
      · obtain ⟨text, htext, hround⟩ := bind_eq_ok.mp hround
        cases hround
        rw [getDecodedTextRfc2047_plain junk ht htext, append_nil]
      · exact (Except.ok.inj hround).symm
    rw [ih htokens h, hsame]

/-- **Plain names.** A name without an apostrophe is kept if it has no `=`. Where there is no `?`
either, this is the only case: the rest of the name is lost or the parser throws. -/
theorem plain_name_kept (junk : Junk) {name : List UInt8} (hquote : apostrophe ∉ name) :
    (ofChar '=' ∉ name → decodeName junk name = .ok name) ∧
      (ofChar '?' ∉ name → (decodeName junk name = .ok name ↔ ofChar '=' ∉ name)) := by
  have hkept : ofChar '=' ∉ name → decodeName junk name = .ok name := by
    intro heq
    have h2047 : ¬ hint2047 name = true := fun h => heq (contains_eq_iff.mp h)
    have h2231 : ¬ hint2231 name = true := fun h => hquote (hint2231_mem h)
    rw [decodeName, checkEncoding, if_neg h2047, if_neg h2231]
  refine ⟨hkept, fun hmark => ⟨fun h heq => ?_, hkept⟩⟩
  have h2047 : hint2047 name = true := contains_eq_iff.mpr heq
  rw [decodeName, checkEncoding, if_pos h2047] at h
  have htokens : ∀ t ∈ nameTokens name, ofChar '?' ∉ t := fun t ht hc =>
    hmark (mem_of_mem_splitLine ht hc)
  have hempty : name = [] := foldlM_plain junk htokens h
  rw [hempty] at heq
  cases heq

theorem plain_name_kept_spaces :
    decodeName .clear (ascii "a b? (1).txt") = .ok (ascii "a b? (1).txt") :=
  (plain_name_kept .clear
    (show apostrophe ∉ ascii "a b? (1).txt" by simp [ascii, ofChar, apostrophe])).1
    (by simp [ascii, ofChar])

def hasEncodedWord (name : List UInt8) : Bool :=
  Search.gapTest (fun _ => true) (ascii "=?") (ascii "?=") name

/-- `x=1.txt` is lost, although it has no encoded word and no apostrophe. -/
theorem plain_name_lost :
    hasEncodedWord (ascii "x=1.txt") = false ∧ apostrophe ∉ ascii "x=1.txt" ∧
      ∀ junk, decodeName junk (ascii "x=1.txt") = .ok [] := by
  have htest : hasEncodedWord (ascii "x=1.txt") = false ∧ apostrophe ∉ ascii "x=1.txt" ∧
      nameTokens (ascii "x=1.txt") = [ascii "x=1.txt"] := by
    decide +kernel
  obtain ⟨hword, hquote, htokens⟩ := htest
  refine ⟨hword, hquote, fun junk => ?_⟩
  have hmem : ofChar '=' ∈ ascii "x=1.txt" := by simp [ascii]
  have hnone : ¬ ([] = ascii "B" ∨ [] = ascii "b") ∧ ¬ ([] = ascii "Q" ∨ [] = ascii "q") := by
    simp [ascii]
  have hdecoded : getDecodedTextRfc2047 junk (ascii "x=1.txt") = .ok [] := by
    have hbody : substr (ascii "x=1.txt") 2 (sizeSub (ascii "x=1.txt").length 4) =
        .ok (ascii "1.t") := rfl
    have hcut : getEncodedLineTokens (ascii "1.t") (ofChar '?') = .ok ([], [], ascii "1.t") := rfl
    rw [getDecodedTextRfc2047, hbody]
    simp only [bind, Except.bind, hcut, if_neg hnone.1, if_neg hnone.2]
  rw [decodeName, checkEncoding, if_pos (show hint2047 _ = true from contains_eq_iff.mpr hmem)]
  rw [parseRfc2047, htokens]
  simp only [foldlM_cons, appendDecoded,
    if_pos (show rfc2047 _ = true from contains_eq_iff.mpr hmem), hdecoded]
  rfl

end LinuxWorkouts.Eml
