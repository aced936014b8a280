import LinuxWorkouts.Eml.Decoders

/-!
The laws of the two base64 decoders of the mail parser.

* `decoders_invert_encoding_iff` — both give back what was encoded, up to a length;
* `decoders_agree_iff` — for 7-bit text that an `int` can count they are the same function, whatever
  the table holds;
* `reads_sound_iff` — for which texts their reads are valid and what they return does not depend on
  memory that the program never wrote. Of two tables that differ in one entry, every text with that
  character tells them apart (`take_decodeGroups_ne`), also where padding cuts off some bytes.
-/

namespace LinuxWorkouts.Eml

open Ascii StdString Base64Format List

/-! ### Round trips -/

def alphabet (k : Nat) : UInt8 := encodingTable.getD k 0

def standardEncoding (bytes : List UInt8) : List UInt8 := encode alphabet (ofChar '=') bytes

theorem encodingTable_eq : encodingTable =
    [65, 66, 67, 68, 69, 70, 71, 72, 73, 74, 75, 76, 77, 78, 79, 80, 81, 82, 83, 84, 85, 86, 87, 88,
      89, 90, 97, 98, 99, 100, 101, 102, 103, 104, 105, 106, 107, 108, 109, 110, 111, 112, 113, 114,
      115, 116, 117, 118, 119, 120, 121, 122, 48, 49, 50, 51, 52, 53, 54, 55, 56, 57, 43, 47] := by
  decide +kernel

theorem alphabet_digit (k : Fin 64) :
    alphabet k ≠ ofChar '=' ∧ alphabet k < 128 ∧ alphabet k ∉ [ofChar ' ', 10, 13, 9] ∧
      encodingTable.findIdx? (fun c => (c.toNat : Int) = (alphabet k).toInt8.toInt) = some k.val ∧
      (UInt32.ofInt (UInt8.ofNat k).toInt8.toInt).toNat = k.val := by
  revert k
  simp only [alphabet, encodingTable_eq]
  decide +kernel

variable {k : Nat} {bytes : List UInt8} {c : UInt8}

theorem charValue_alphabet (table : Int → UInt8) (hk : k < 64) :
    charValue (buildDecodingTable table) (alphabet k) = k := by
  obtain ⟨hpad, -, -, hfind, hvalue⟩ := alphabet_digit ⟨k, hk⟩
  rw [charValue, if_neg hpad, buildDecodingTable, hfind]
  exact hvalue

theorem charValue_pad (table : Int → UInt8) : charValue table (ofChar '=') = 0 := if_pos rfl

theorem standardEncoding_lt (h : c ∈ standardEncoding bytes) : c < 128 := by
  rcases mem_encode _ _ h with rfl | ⟨k, hk, rfl⟩
  · decide
  · exact (alphabet_digit ⟨k, hk⟩).2.1

theorem standardEncoding_ne_nil (h : bytes ≠ []) : standardEncoding bytes ≠ [] := by
  have hpos := length_pos_of_ne_nil h
  have hlen := length_encode alphabet (ofChar '=') bytes
  intro hnil
  rw [standardEncoding] at hnil
  rw [hnil, length_nil] at hlen
  omega

theorem payload_standardEncoding (table : Int → UInt8) (hne : bytes ≠ []) :
    payload (buildDecodingTable table) (standardEncoding bytes) = bytes := by
  have hpos := length_pos_of_ne_nil hne
  obtain ⟨front, c, d, hends, hc, hd⟩ := encode_ends (fun k hk => (alphabet_digit ⟨k, hk⟩).1) hne
  have hpad : padCount (standardEncoding bytes) =
      (if bytes.length % 3 = 1 then 1 else 0) + (if bytes.length % 3 ≠ 0 then 1 else 0) := by
    rw [standardEncoding, hends, padCount_append]
    simp only [hc, hd]
  have hlength : (standardEncoding bytes).length / 4 * 3 - padCount (standardEncoding bytes) =
      bytes.length := by
    rw [hpad, standardEncoding, length_encode]
    split_ifs <;> omega
  rw [payload, hlength, standardEncoding,
    decodeGroups_encode (fun k hk => charValue_alphabet table hk) (charValue_pad _)]
  exact take_left

theorem length_standardEncoding (bytes : List UInt8) :
    (standardEncoding bytes).length = (bytes.length + 2) / 3 * 4 := length_encode _ _ bytes

theorem decodes_standardEncoding_iff (table : Int → UInt8) (hne : bytes ≠ []) :
    Decodes (buildDecodingTable table) (standardEncoding bytes) bytes ↔
      bytes.length ≤ 3 * (2 ^ 29 - 1) := by
  have hlen : (standardEncoding bytes).length % 4 = 0 := by
    rw [length_standardEncoding]
    omega
  have hcount : (standardEncoding bytes).length < 2 ^ 31 ↔ bytes.length ≤ 3 * (2 ^ 29 - 1) := by
    rw [length_standardEncoding]
    omega
  rw [Decodes, if_neg (not_not.mpr hlen), ← hcount]
  exact ⟨fun h => h.2.1,
    fun h => ⟨standardEncoding_ne_nil hne, h, fun c hc => standardEncoding_lt hc,
    (payload_standardEncoding table hne).symm⟩⟩

/-- **Decoding inverts encoding.** With the table that the program builds, over any memory, both
decoders return a non-empty byte string from its encoding exactly if the encoding is shorter than
2^31 characters. -/
theorem decoders_invert_encoding_iff (table : Int → UInt8) {bytes : List UInt8} (hne : bytes ≠ []) :
    (Checked.base64DecodeToString (buildDecodingTable table) (standardEncoding bytes) = .ok bytes ∧
      Checked.base64DecodeToBytes (buildDecodingTable table) (standardEncoding bytes) = .ok bytes) ↔
      bytes.length ≤ 3 * (2 ^ 29 - 1) := by
  rw [Checked.base64DecodeToString_ok_iff, Checked.base64DecodeToBytes_ok_iff, and_self,
    decodes_standardEncoding_iff table hne]

theorem decoders_invert_encoding_two :
    standardEncoding [255, 254] = ascii "//4=" ∧
      Checked.base64DecodeToString (buildDecodingTable fun _ => 7) (ascii "//4=") =
        .ok [255, 254] := by
  have hencoding : standardEncoding [255, 254] = ascii "//4=" := by decide +kernel
  refine ⟨hencoding, ?_⟩
  rw [← hencoding]
  exact ((decoders_invert_encoding_iff (fun _ => 7) (cons_ne_nil 255 [254])).mpr (by simp)).1

theorem not_decodes_of_long {table : Int → UInt8} {data : List UInt8} (hlen : data.length % 4 = 0)
    (hlong : 2 ^ 31 ≤ data.length) : ¬ Decodes table data bytes := by
  rw [Decodes, if_neg (not_not.mpr hlen)]
  exact fun h => absurd h.2.1 (Nat.not_lt.mpr hlong)

/-- The encoding of 3·2^29 + 3 bytes has 2^31 + 4 characters: neither decoder gives them back. -/
theorem long_encoding_not_decoded :
    Checked.base64DecodeToString (buildDecodingTable fun _ => 0)
        (standardEncoding (replicate (3 * 2 ^ 29 + 3) 97)) ≠
        .ok (replicate (3 * 2 ^ 29 + 3) 97) ∧
      Checked.base64DecodeToBytes (buildDecodingTable fun _ => 0)
        (standardEncoding (replicate (3 * 2 ^ 29 + 3) 97)) ≠
        .ok (replicate (3 * 2 ^ 29 + 3) 97) := by
  have hlength := length_replicate (a := (97 : UInt8)) (n := 3 * 2 ^ 29 + 3)
  generalize replicate (3 * 2 ^ 29 + 3) (97 : UInt8) = bytes at hlength ⊢
  have hne : bytes ≠ [] := ne_nil_of_length_pos (by omega)
  have hnot := mt (decodes_standardEncoding_iff (fun _ => 0) hne).mp (by omega)
  exact ⟨fun h => hnot (Checked.base64DecodeToString_ok_iff.mp h),
    fun h => hnot (Checked.base64DecodeToBytes_ok_iff.mp h)⟩

/-! ### Agreement -/

/-- **The two decoders agree.** Whatever the table holds, both return the same bytes for a text of
7-bit characters, none exactly if its length is not a multiple of four, unless the text is a
multiple of four that an `int` cannot count. -/
theorem decoders_agree_iff (table : Int → UInt8) {data : List UInt8} (hne : data ≠ [])
    (h7 : ∀ c ∈ data, c < 128) :
    (∃ bytes, Checked.base64DecodeToString table data = .ok bytes ∧
      Checked.base64DecodeToBytes table data = .ok bytes ∧
      (bytes = [] ↔ data.length % 4 ≠ 0)) ↔ data.length % 4 ≠ 0 ∨ data.length < 2 ^ 31 := by
  simp only [Checked.base64DecodeToString_ok_iff, Checked.base64DecodeToBytes_ok_iff]
  by_cases hlen : data.length % 4 = 0
  · have hsome : payload table data ≠ [] := by
      have hpos := length_pos_of_ne_nil hne
      have hpad := padCount_le data
      refine ne_nil_of_length_pos ?_
      rw [payload, length_take, length_decodeGroups _ hlen]
      omega
    constructor
    · rintro ⟨bytes, hd, -, -⟩
      by_contra hlong
      exact not_decodes_of_long hlen (Nat.le_of_not_lt fun h => hlong (.inr h)) hd
    · intro h
      have hd : Decodes table data (payload table data) := by
        rw [Decodes, if_neg (not_not.mpr hlen)]
        exact ⟨hne, h.resolve_left (not_not.mpr hlen), h7, rfl⟩
      exact ⟨_, hd, hd, iff_of_false hsome (not_not.mpr hlen)⟩
  · have hd : Decodes table data [] := by
      rw [Decodes, if_pos hlen]
    exact iff_of_true ⟨[], hd, hd, iff_of_true rfl hlen⟩ (.inl hlen)

theorem decoders_agree_misplaced :
    ∃ bytes, Checked.base64DecodeToString (fun i => UInt8.ofInt i) (ascii "=!=a") = .ok bytes ∧
      Checked.base64DecodeToBytes (fun i => UInt8.ofInt i) (ascii "=!=a") = .ok bytes ∧
        bytes ≠ [] := by
  obtain ⟨bytes, hstring, hbytes, hempty⟩ := (decoders_agree_iff (fun i => UInt8.ofInt i)
    (show ascii "=!=a" ≠ [] by simp [ascii]) (by simp [ascii, ofChar])).mpr (.inr (by simp [ascii]))
  exact ⟨bytes, hstring, hbytes, fun h => absurd (hempty.mp h) (by simp [ascii])⟩

/-- 2^31 + 4 times `A`: neither decoder returns. -/
theorem long_text_not_decoded :
    (¬ ∃ bytes, Checked.base64DecodeToString (fun _ => 0)
        (replicate (2 ^ 31 + 4) (ofChar 'A')) = .ok bytes) ∧
      ¬ ∃ bytes, Checked.base64DecodeToBytes (fun _ => 0)
        (replicate (2 ^ 31 + 4) (ofChar 'A')) = .ok bytes := by
  have hlength := length_replicate (a := ofChar 'A') (n := 2 ^ 31 + 4)
  generalize replicate (2 ^ 31 + 4) (ofChar 'A') = data at hlength ⊢
  have hnot : ∀ bytes, ¬ Decodes (fun _ => 0) data bytes := fun bytes =>
    not_decodes_of_long (by omega) (by omega)
  exact ⟨fun ⟨bytes, h⟩ => hnot bytes (Checked.base64DecodeToString_ok_iff.mp h),
    fun ⟨bytes, h⟩ => hnot bytes (Checked.base64DecodeToBytes_ok_iff.mp h)⟩

/-! ### Reads that the program did not prepare -/

def Encoded (c : UInt8) : Prop := c = ofChar '=' ∨ c ∈ encodingTable

instance (c : UInt8) : Decidable (Encoded c) := by
  unfold Encoded
  infer_instance

/-- The decoders read only what is there and what the program wrote: they return, and the same for
all that the memory of the table may have held. -/
def ReadsSound (data : List UInt8) : Prop :=
  ∃ string bytes, ∀ table,
    Checked.base64DecodeToString (buildDecodingTable table) data = .ok string ∧
      Checked.base64DecodeToBytes (buildDecodingTable table) data = .ok bytes

theorem toInt8_toInt_of_lt (h : c < 128) : c.toInt8.toInt = c.toNat := by
  have hint : c.toInt8.toInt = c.toBitVec.toInt := rfl
  have hc : c.toBitVec.toNat < 128 := h
  have hnat : c.toBitVec.toNat = c.toNat := rfl
  rw [hint, BitVec.toInt_eq_toNat_cond, if_pos (by omega), hnat]

theorem Encoded.lt (h : Encoded c) : c < 128 := by
  have hall : (encodingTable.all fun c => c < 128) = true := by
    rw [encodingTable_eq]
    rfl
  rcases h with rfl | h
  · decide
  · exact all_iff_forall_prop.mp hall c h

theorem Encoded.charValue_eq (h : Encoded c) (table table' : Int → UInt8) :
    charValue (buildDecodingTable table) c = charValue (buildDecodingTable table') c := by
  have hindex := toInt8_toInt_of_lt h.lt
  rcases h with rfl | h
  · rw [charValue_pad, charValue_pad]
  · have hfound : (encodingTable.findIdx? fun d => (d.toNat : Int) = c.toInt8.toInt).isSome := by
      rw [findIdx?_isSome, any_eq_true]
      exact ⟨c, h, decide_eq_true hindex.symm⟩
    obtain ⟨k, hk⟩ := Option.isSome_iff_exists.mp hfound
    rw [charValue, charValue, buildDecodingTable, buildDecodingTable, hk]

theorem charValue_of_not_encoded (h7 : c < 128) (h : ¬ Encoded c) (table : Int → UInt8) :
    charValue (buildDecodingTable table) c =
      (UInt32.ofInt (table c.toInt8.toInt).toInt8.toInt).toNat := by
  have hnone : encodingTable.findIdx? (fun d => (d.toNat : Int) = c.toInt8.toInt) = none := by
    rw [findIdx?_eq_none_iff]
    intro d hd
    rw [decide_eq_false_iff_not, toInt8_toInt_of_lt h7]
    intro heq
    have hdc : d = c := UInt8.toNat_inj.mp (Int.ofNat_inj.mp heq)
    exact h (.inr (hdc ▸ hd))
  rw [charValue, if_neg fun heq => h (.inl heq), buildDecodingTable, hnone]

section Differing

theorem take_threeBytes_eq {m n : Nat} (h : (threeBytes m).take k = (threeBytes n).take k) :
    (1 ≤ k → m / 2 ^ 16 % 2 ^ 8 = n / 2 ^ 16 % 2 ^ 8) ∧
      (2 ≤ k → m / 2 ^ 8 % 2 ^ 16 = n / 2 ^ 8 % 2 ^ 16) ∧ (3 ≤ k → m % 2 ^ 24 = n % 2 ^ 24) := by
  have hbyte : ∀ i, i < k → (threeBytes m)[i]? = (threeBytes n)[i]? := by
    intro i hi
    have hi' := congrArg (fun l => l[i]?) h
    simpa only [getElem?_take_of_lt hi] using hi'
  have hmod : ∀ {m n : Nat}, some (UInt8.ofNat m) = some (UInt8.ofNat n) →
      m % 2 ^ 8 = n % 2 ^ 8 := by
    intro m n h
    have h' := UInt8.toNat_inj.mpr (Option.some.inj h)
    rwa [UInt8.toNat_ofNat', UInt8.toNat_ofNat'] at h'
  refine ⟨fun hk => ?_, fun hk => ?_, fun hk => ?_⟩
  · exact hmod (hbyte 0 (by omega))
  · have h0 := hmod (hbyte 0 (by omega))
    have h1 := hmod (hbyte 1 (by omega))
    omega
  · have h0 := hmod (hbyte 0 (by omega))
    have h1 := hmod (hbyte 1 (by omega))
    have h2 := hmod (hbyte 2 (by omega))
    omega

theorem groupValue_lowered {A B C D a b c d m n : Nat} (ha : a ≤ 1) (hb : b ≤ 1) (hc : c ≤ 1)
    (hd : d ≤ 1) (hsome : 1 ≤ a + b + c + d) (hB : b = 1 → B = 0) (hC : c = 1 → C = 0)
    (hD : d = 1 → D = 0) (hn : n = A * 2 ^ 18 + B * 2 ^ 12 + C * 2 ^ 6 + D)
    (hm : m = n + (2 ^ 32 - 1) * (a * 2 ^ 18 + b * 2 ^ 12 + c * 2 ^ 6 + d)) (hk : 1 ≤ k)
    (htwo : k ≤ 2 → (C = 0 ∧ c = 0) ∨ (D = 0 ∧ d = 0))
    (hone : k ≤ 1 → (C = 0 ∧ c = 0) ∧ (D = 0 ∧ d = 0)) :
    (threeBytes m).take k ≠ (threeBytes n).take k := by
  intro h
  obtain ⟨h1, h2, h3⟩ := take_threeBytes_eq h
  rcases Nat.lt_or_ge 2 k with hk3 | hk2
  · have heq := h3 hk3
    omega
  rcases Nat.lt_or_ge 1 k with hk2' | hk1
  · have heq := h2 hk2'
    rcases htwo hk2 with ⟨rfl, rfl⟩ | ⟨rfl, rfl⟩
    · interval_cases a <;> interval_cases b <;> interval_cases d <;> omega
    · interval_cases a <;> interval_cases b <;> interval_cases c <;> omega
  · have heq := h1 hk
    obtain ⟨⟨rfl, rfl⟩, rfl, rfl⟩ := hone hk1
    interval_cases a <;> interval_cases b <;> omega

theorem exists_kept {front : List UInt8} (hfront : front.length % 4 = 0) (a b c d : UInt8)
    {back : List UInt8} (hback : back.length % 4 = 0) :
    ∃ k ≤ 3, 1 ≤ k ∧
      k ≤ (front ++ a :: b :: c :: d :: back).length / 4 * 3 -
        padCount (front ++ a :: b :: c :: d :: back) - front.length / 4 * 3 ∧
      (k ≤ 2 → c = ofChar '=' ∨ d = ofChar '=') ∧
      (k ≤ 1 → c = ofChar '=' ∧ d = ofChar '=') := by
  have hlength : (front ++ a :: b :: c :: d :: back).length = front.length + 4 + back.length := by
    simp only [length_append, length_cons]
    omega
  rw [hlength]
  cases back with
  | nil =>
    have hlast : padCount (front ++ [a, b, c, d]) =
        (if c = ofChar '=' then 1 else 0) + (if d = ofChar '=' then 1 else 0) := by
      rw [← padCount_append (front ++ [a, b]) c d]
      simp
    rw [hlast, length_nil]
    by_cases hc : c = ofChar '='
    · by_cases hd : d = ofChar '='
      · refine ⟨1, by omega, by omega, ?_, fun _ => .inl hc, fun _ => ⟨hc, hd⟩⟩
        rw [if_pos hc, if_pos hd]
        omega
      · refine ⟨2, by omega, by omega, ?_, fun _ => .inl hc, fun h => absurd h (by omega)⟩
        rw [if_pos hc, if_neg hd]
        omega
    · by_cases hd : d = ofChar '='
      · refine ⟨2, by omega, by omega, ?_, fun _ => .inr hd, fun h => absurd h (by omega)⟩
        rw [if_neg hc, if_pos hd]
        omega
      · refine ⟨3, by omega, by omega, ?_, fun h => absurd h (by omega),
          fun h => absurd h (by omega)⟩
        rw [if_neg hc, if_neg hd]
        omega
  | cons e back =>
    have hpads := padCount_le (front ++ a :: b :: c :: d :: e :: back)
    simp only [length_cons] at hback ⊢
    exact ⟨3, by omega, by omega, by omega, fun h => absurd h (by omega),
      fun h => absurd h (by omega)⟩

variable {value value' : UInt8 → Nat} {x : UInt8} {data : List UInt8}

theorem take_decodeGroups_ne (hx : value x = 0)
    (hvalue : ∀ c, value' c = value c + (2 ^ 32 - 1) * (if c = x then 1 else 0))
    (hpad : value (ofChar '=') = 0) (hxpad : x ≠ ofChar '=') (hlen : data.length % 4 = 0)
    (hmem : x ∈ data) :
    (decodeGroups value' data).take (data.length / 4 * 3 - padCount data) ≠
      (decodeGroups value data).take (data.length / 4 * 3 - padCount data) := by
  obtain ⟨front, a, b, c, d, back, rfl, hfront, hgroup⟩ := exists_group hlen hmem
  have hback : back.length % 4 = 0 := by
    simp only [length_append, length_cons] at hlen
    omega
  obtain ⟨k, hk3, hk1, hkept, htwo, hone⟩ := exists_kept hfront a b c d hback
  have hzero : ∀ {c : UInt8}, (if c = x then 1 else 0) = 1 → value c = 0 := by
    intro c h
    rw [show c = x by simpa using h, hx]
  have hpadded : ∀ {c : UInt8}, c = ofChar '=' → value c = 0 ∧ (if c = x then 1 else 0) = 0 := by
    intro c h
    subst h
    exact ⟨hpad, if_neg (Ne.symm hxpad)⟩
  have hle : ∀ c : UInt8, (if c = x then 1 else 0) ≤ 1 := by
    intro c
    split <;> omega
  have hsome : 1 ≤ (if a = x then 1 else 0) + (if b = x then 1 else 0) + (if c = x then 1 else 0) +
      (if d = x then 1 else 0) := by
    simp only [mem_cons, not_mem_nil, or_false] at hgroup
    rcases hgroup with rfl | rfl | rfl | rfl
    all_goals
      rw [if_pos rfl]
      omega
  have hlowered : groupValue value' a b c d = groupValue value a b c d + (2 ^ 32 - 1) *
      ((if a = x then 1 else 0) * 2 ^ 18 + (if b = x then 1 else 0) * 2 ^ 12 +
        (if c = x then 1 else 0) * 2 ^ 6 + (if d = x then 1 else 0)) := by
    simp only [groupValue, hvalue]
    omega
  have hne := groupValue_lowered (hle a) (hle b) (hle c) (hle d) hsome hzero hzero hzero rfl
    hlowered hk1 (fun h => (htwo h).imp hpadded hpadded)
    (fun h => ⟨hpadded (hone h).1, hpadded (hone h).2⟩)
  intro h
  have hsame := congrArg (fun l => (l.drop (front.length / 4 * 3)).take k) h
  simp only [take_drop_decodeGroups value' hfront a b c d back hk3 hkept,
    take_drop_decodeGroups value hfront a b c d back hk3 hkept] at hsame
  exact hne hsame

end Differing

def lowered (x : UInt8) (i : Int) : UInt8 := if i = x.toInt8.toInt then 255 else 0

theorem toInt8_toInt_inj {x : UInt8} (h : c.toInt8.toInt = x.toInt8.toInt) : c = x := by
  have h8 : c.toInt8 = x.toInt8 := Int8.toInt_inj.mp h
  rw [← UInt8.toUInt8_toInt8 c, h8, UInt8.toUInt8_toInt8]

theorem charValue_lowered {x : UInt8} (h7 : x < 128) (hx : ¬ Encoded x) (c : UInt8) :
    charValue (buildDecodingTable (lowered x)) c =
      charValue (buildDecodingTable fun _ => 0) c + (2 ^ 32 - 1) * (if c = x then 1 else 0) := by
  by_cases hc : c = x
  · subst hc
    rw [charValue_of_not_encoded h7 hx, charValue_of_not_encoded h7 hx, lowered, if_pos rfl,
      if_pos rfl]
    rfl
  · have hentry : lowered x c.toInt8.toInt = 0 := if_neg fun h => hc (toInt8_toInt_inj h)
    rw [if_neg hc, Nat.mul_zero, Nat.add_zero]
    simp only [charValue, buildDecodingTable, hentry]

/-- **What the decoders read.** They read only valid places, with a result that does not depend on
what the memory of the table held, exactly if the length is no multiple of four or the text is not
empty, shorter than 2^31 characters and has only characters of the alphabet and padding. -/
theorem reads_sound_iff (data : List UInt8) :
    ReadsSound data ↔ data.length % 4 ≠ 0 ∨
      (data ≠ [] ∧ data.length < 2 ^ 31 ∧ ∀ c ∈ data, Encoded c) := by
  constructor
  · rintro ⟨string, bytes, h⟩
    by_cases hlen : data.length % 4 = 0
    · have hdecodes : ∀ table, data ≠ [] ∧ data.length < 2 ^ 31 ∧ (∀ c ∈ data, c < 128) ∧
          string = payload (buildDecodingTable table) data := by
        intro table
        have hd := Checked.base64DecodeToString_ok_iff.mp (h table).1
        rwa [Decodes, if_neg (not_not.mpr hlen)] at hd
      obtain ⟨hne, hsmall, h7, hclear⟩ := hdecodes fun _ => 0
      refine .inr ⟨hne, hsmall, fun x hx => ?_⟩
      by_contra hout
      refine take_decodeGroups_ne ?_ (charValue_lowered (h7 x hx) hout) (charValue_pad _)
        (fun heq => hout (.inl heq)) hlen hx ((hdecodes (lowered x)).2.2.2.symm.trans hclear)
      rw [charValue_of_not_encoded (h7 x hx) hout]
      rfl
    · exact .inl hlen
  · intro h
    by_cases hlen : data.length % 4 ≠ 0
    · have hd : ∀ table, Decodes table data [] := by
        intro table
        rw [Decodes, if_pos hlen]
      exact ⟨[], [], fun table => ⟨Checked.base64DecodeToString_ok_iff.mpr (hd _),
        Checked.base64DecodeToBytes_ok_iff.mpr (hd _)⟩⟩
    · obtain ⟨hne, hsmall, halphabet⟩ := h.resolve_left hlen
      have hd : ∀ table, Decodes (buildDecodingTable table) data
          (payload (buildDecodingTable fun _ => 0) data) := by
        intro table
        rw [Decodes, if_neg hlen]
        refine ⟨hne, hsmall, fun c hc => (halphabet c hc).lt, ?_⟩
        rw [payload, payload, decodeGroups_congr (not_not.mp hlen) fun c hc =>
          (halphabet c hc).charValue_eq (fun _ => 0) table]
      exact ⟨_, _, fun table => ⟨Checked.base64DecodeToString_ok_iff.mpr (hd table),
        Checked.base64DecodeToBytes_ok_iff.mpr (hd table)⟩⟩

/-- The empty text and a byte from 128 on are read outside, and `!` finds what was in the memory. -/
theorem reads_unsound :
    Checked.base64DecodeToString (buildDecodingTable fun _ => 0) [] = .error .badIndex ∧
      Checked.base64DecodeToBytes (buildDecodingTable fun _ => 0) (128 :: ascii "AAA") =
        .error .badIndex ∧
      Checked.base64DecodeToString (buildDecodingTable fun _ => 0) (ascii "!AAA") = .ok [0, 0, 0] ∧
      Checked.base64DecodeToString (buildDecodingTable fun _ => 1) (ascii "!AAA") = .ok [4, 0, 0] ∧
      ¬ ReadsSound [] ∧ ¬ ReadsSound (128 :: ascii "AAA") ∧ ¬ ReadsSound (ascii "!AAA") := by
  have hempty : Checked.base64DecodeToString (buildDecodingTable fun _ => 0) [] =
      .error .badIndex := rfl
  have hruns : Checked.base64DecodeToBytes (buildDecodingTable fun _ => 0) (128 :: ascii "AAA") =
        .error .badIndex ∧
      Checked.base64DecodeToString (buildDecodingTable fun _ => 0) (ascii "!AAA") = .ok [0, 0, 0] ∧
      Checked.base64DecodeToString (buildDecodingTable fun _ => 1) (ascii "!AAA") =
        .ok [4, 0, 0] := by
    unfold buildDecodingTable
    rw [encodingTable_eq]
    decide +kernel
  obtain ⟨hhigh, hzero, hone⟩ := hruns
  refine ⟨hempty, hhigh, hzero, hone, ?_, ?_, ?_⟩
  · rintro ⟨string, bytes, h⟩
    exact absurd (hempty.symm.trans (h fun _ => 0).1) (by simp)
  · rintro ⟨string, bytes, h⟩
    exact absurd (hhigh.symm.trans (h fun _ => 0).2) (by simp)
  · rintro ⟨string, bytes, h⟩
    have h0 := hzero.symm.trans (h fun _ => 0).1
    have h1 := hone.symm.trans (h fun _ => 1).1
    exact absurd (h0.trans h1.symm) (by decide)

end LinuxWorkouts.Eml
