import LinuxWorkouts.Lib.Ascii
import LinuxWorkouts.Lib.RlpFormat
import LinuxWorkouts.Rlp.Headers

/-!
When the tokens of an encoding are all of it.

`Walks` follows the bytes the way the code does, with the lengths it reads from the headers: every
header has to be complete, and a byte below `0x80` may be met only as the very last one, because
the call that takes it skips the byte behind it. `lossless_iff_walks` says that this is exactly when
the tokens give the text back, whatever the bytes are. For the encoding of an item without strings
of more than 55 bytes, `walks_encode_iff` says what it means for the item.
-/

namespace LinuxWorkouts.Rlp

open Ascii Hex RlpFormat StdString List Option

/-- The bytes between a first byte from `0x80` on and the next one the code looks at. -/
def skipped (b : UInt8) (rest : List UInt8) : Nat :=
  if b.toNat ≤ 0xbf then lengthCount b + readLength b rest else lengthCount b

/-- Every header is complete, and a byte below `0x80` comes only at the end. -/
def Walks : List UInt8 → Prop
  | [] => True
  | b :: rest =>
    if b.toNat < 0x80 then rest = []
    else lengthCount b ≤ rest.length ∧ Walks (rest.drop (skipped b rest))
termination_by bytes => bytes.length
decreasing_by
  rw [length_drop, length_cons]
  omega

/-- The tokens are found and written one behind the other they are the text. -/
def LosslessAt (depth : Nat) (hex : List UInt8) : Prop :=
  ∃ tokens, initTokens depth hex = some (.ok tokens) ∧ concatTokens tokens = hex

def Lossless (hex : List UInt8) : Prop := LosslessAt (hex.length + 1) hex

/-! ### One call -/

section Call

variable {hex r : List UInt8} {token : Token} {depth : Nat}

theorem concatTokens_cons (token : Token) (tokens : List Token) :
    concatTokens (token :: tokens) = token.1 ++ token.2 ++ concatTokens tokens :=
  flatMap_cons ..

theorem losslessAt_nil : LosslessAt (depth + 1) [] := ⟨[], rfl, rfl⟩

section

variable (hne : hex ≠ [])
include hne

theorem losslessAt_last (hstep : tokenStep hex = .ok (token, none)) :
    LosslessAt (depth + 1) hex ↔ token.1 ++ token.2 = hex := by
  have hinit : initTokens (depth + 1) hex = some (.ok [token]) := by
    simp only [initTokens, if_neg hne, hstep]
  have hconcat : concatTokens [token] = token.1 ++ token.2 := flatMap_singleton ..
  constructor
  · rintro ⟨tokens, htokens, hall⟩
    rw [hinit] at htokens
    cases htokens
    rw [← hall, hconcat]
  · intro hall
    exact ⟨[token], hinit, hconcat.trans hall⟩

theorem initTokens_next (hstep : tokenStep hex = .ok (token, some r)) :
    initTokens (depth + 1) hex = (initTokens depth r).map (Except.map (token :: ·)) := by
  simp only [initTokens, if_neg hne, hstep]

theorem initTokens_next_eq_ok {tokens : List Token} (hstep : tokenStep hex = .ok (token, some r))
    (h : initTokens (depth + 1) hex = some (.ok tokens)) :
    ∃ more, initTokens depth r = some (.ok more) ∧ tokens = token :: more := by
  rw [initTokens_next hne hstep] at h
  obtain ⟨result, hresult, hmap⟩ := map_eq_some_iff.mp h
  cases result with
  | error fault => cases hmap
  | ok more =>
    cases hmap
    exact ⟨more, hresult, rfl⟩

theorem losslessAt_next (hstep : tokenStep hex = .ok (token, some r))
    (hcut : token.1 ++ token.2 ++ r = hex) : LosslessAt (depth + 1) hex ↔ LosslessAt depth r := by
  constructor
  · rintro ⟨tokens, htokens, hall⟩
    obtain ⟨more, hmore, rfl⟩ := initTokens_next_eq_ok hne hstep htokens
    refine ⟨more, hmore, ?_⟩
    rw [concatTokens_cons, ← hcut] at hall
    exact append_cancel_left hall
  · rintro ⟨more, hmore, hall⟩
    refine ⟨token :: more, ?_, ?_⟩
    · rw [initTokens_next hne hstep, hmore]
      rfl
    · rw [concatTokens_cons, hall, hcut]

theorem not_losslessAt_error {fault : Fault} (hstep : tokenStep hex = .error fault) :
    ¬ LosslessAt (depth + 1) hex := by
  rintro ⟨tokens, htokens, -⟩
  simp only [initTokens, if_neg hne, hstep] at htokens
  cases htokens

end

end Call

section Bytes

variable {hex bytes rest : List UInt8} {b : UInt8} {depth : Nat}

theorem ne_nil_of_spells (h : Spells hex (b :: rest)) : hex ≠ [] := by
  rintro rfl
  have hlength := length_of_spells h
  rw [length_nil] at hlength
  omega

theorem spells_drop_succ (h : Spells hex (b :: rest)) (n : Nat) :
    Spells (hex.drop (2 * (n + 1))) (rest.drop n) := h.drop (n + 1)

theorem take_append_take_append_drop (hex : List UInt8) (k n : Nat) :
    hex.take (2 * (k + 1)) ++ (hex.drop (2 * (k + 1))).take (2 * n) ++
      hex.drop (2 * (k + n + 1)) = hex := by
  have hpos : 2 * (k + n + 1) = 2 * (k + 1) + 2 * n := by omega
  rw [hpos, ← take_add, take_append_drop]

theorem tokenStep_length {token : Token} {next : Option (List UInt8)} (h : Spells hex (b :: rest))
    (hstep : tokenStep hex = .ok (token, next)) :
    token.1.length + token.2.length + (next.getD []).length ≤ hex.length ∧
      ∀ r, next = some r → ∃ n, r = hex.drop (2 * (n + 1)) := by
  have hlength := length_of_spells h
  by_cases hsingle : b.toNat < 0x80
  · rw [tokenStep_single h hsingle] at hstep
    cases hstep
    split
    · refine ⟨?_, fun r hr => ⟨1, (Option.some.inj hr).symm⟩⟩
      simp only [length_nil, length_take, getD_some, length_drop]
      omega
    · refine ⟨?_, fun r hr => absurd hr.symm (some_ne_none r)⟩
      simp only [length_nil, length_take, getD_none]
      omega
  · by_cases hstring : b.toNat ≤ 0xbf
    · rw [tokenStep_string h (by omega) hstring] at hstep
      split at hstep
      · cases hstep
        split
        · refine ⟨?_, fun r hr => ⟨_, (Option.some.inj hr).symm⟩⟩
          simp only [length_take, getD_some, length_drop]
          omega
        · refine ⟨?_, fun r hr => absurd hr.symm (some_ne_none r)⟩
          simp only [length_take, getD_none, length_drop, length_nil]
          omega
      · cases hstep
    · rw [tokenStep_list h (by omega)] at hstep
      cases hstep
      refine ⟨?_, fun r hr => ⟨_, (Option.some.inj hr).symm⟩⟩
      split
      · simp only [length_nil, length_take, getD_some, length_drop]
        omega
      · simp only [length_nil, getD_some, length_drop]
        omega

theorem length_concatTokens_le {tokens : List Token} (h : Spells hex bytes)
    (htokens : initTokens depth hex = some (.ok tokens)) :
    (concatTokens tokens).length ≤ hex.length := by
  induction depth generalizing hex bytes tokens with
  | zero => cases htokens
  | succ depth ih =>
    cases bytes with
    | nil =>
      obtain rfl : hex = [] := length_eq_zero_iff.mp h.length_eq
      cases htokens
      exact Nat.le_refl _
    | cons b rest =>
      have hne := ne_nil_of_spells h
      cases hstep : tokenStep hex with
      | error fault =>
        simp only [initTokens, if_neg hne, hstep] at htokens
        cases htokens
      | ok result =>
        obtain ⟨token, next⟩ := result
        obtain ⟨hle, hrest⟩ := tokenStep_length h hstep
        cases next with
        | none =>
          simp only [initTokens, if_neg hne, hstep] at htokens
          cases htokens
          rw [concatTokens_cons, length_append, length_append]
          exact hle
        | some r =>
          obtain ⟨n, rfl⟩ := hrest r rfl
          obtain ⟨more, hmore, rfl⟩ := initTokens_next_eq_ok hne hstep htokens
          have hmoreLe := ih (spells_drop_succ h n) hmore
          rw [getD_some] at hle
          rw [concatTokens_cons, length_append, length_append]
          omega

theorem losslessAt_single (h : Spells hex (b :: rest)) (hb : b.toNat < 0x80) :
    LosslessAt (depth + 1) hex ↔ rest = [] := by
  have hne := ne_nil_of_spells h
  have hlength := length_of_spells h
  have hstep := tokenStep_single h hb
  split at hstep
  · next hmany =>
      refine iff_of_false ?_ ?_
      · rintro ⟨tokens, htokens, hall⟩
        obtain ⟨more, hmore, rfl⟩ := initTokens_next_eq_ok hne hstep htokens
        have hle := length_concatTokens_le (spells_drop_succ h 1) hmore
        have hsum := congrArg length hall
        rw [concatTokens_cons] at hsum
        simp only [length_append, length_nil, length_take, length_drop]
          at hsum hle
        omega
      · rintro rfl
        exact absurd hmany (by simp)
  · next hfew =>
      rw [losslessAt_last hne hstep, nil_append, take_eq_self_iff, ← length_eq_zero_iff]
      omega

theorem losslessAt_string (h : Spells hex (b :: rest)) (hlow : 0x80 ≤ b.toNat)
    (hhigh : b.toNat ≤ 0xbf)
    (ih : ∀ n, LosslessAt depth (hex.drop (2 * (n + 1))) ↔ Walks (rest.drop n)) :
    LosslessAt (depth + 1) hex ↔
      lengthCount b ≤ rest.length ∧ Walks (rest.drop (lengthCount b + readLength b rest)) := by
  have hne := ne_nil_of_spells h
  have hlength := length_of_spells h
  have hstep := tokenStep_string h hlow hhigh
  have hcut := take_append_take_append_drop hex (lengthCount b) (readLength b rest)
  split at hstep
  · next hcomplete =>
      split at hstep
      · rw [losslessAt_next hne hstep hcut, ih, and_iff_right hcomplete]
      · next hend =>
          have hnothing : hex.drop (2 * (lengthCount b + readLength b rest + 1)) = [] :=
            drop_of_length_le (by omega)
          rw [hnothing, append_nil] at hcut
          refine iff_of_true ((losslessAt_last hne hstep).mpr hcut) ⟨hcomplete, ?_⟩
          rw [drop_of_length_le (by omega), Walks]
          trivial
  · next hincomplete =>
      exact iff_of_false (not_losslessAt_error hne hstep) fun hwalks => hincomplete hwalks.1

theorem losslessAt_list (h : Spells hex (b :: rest)) (hlow : 0xc0 ≤ b.toNat)
    (ih : ∀ n, LosslessAt depth (hex.drop (2 * (n + 1))) ↔ Walks (rest.drop n)) :
    LosslessAt (depth + 1) hex ↔
      lengthCount b ≤ rest.length ∧ Walks (rest.drop (lengthCount b)) := by
  have hne := ne_nil_of_spells h
  have hlength := length_of_spells h
  have hstep := tokenStep_list h hlow
  by_cases hcomplete : lengthCount b ≤ rest.length
  · rw [if_pos hcomplete] at hstep
    have hcut : hex.take (2 * (lengthCount b + 1)) ++ [] ++ hex.drop (2 * (lengthCount b + 1)) =
        hex := by
      rw [append_nil, take_append_drop]
    rw [losslessAt_next hne hstep hcut, ih, and_iff_right hcomplete]
  · rw [if_neg hcomplete] at hstep
    refine iff_of_false ?_ fun hwalks => hcomplete hwalks.1
    -- An incomplete header is dropped with everything behind it.
    rintro ⟨tokens, htokens, hall⟩
    obtain ⟨more, hmore, rfl⟩ := initTokens_next_eq_ok hne hstep htokens
    have hle := length_concatTokens_le (spells_drop_succ h (lengthCount b)) hmore
    have hsum := congrArg length hall
    rw [concatTokens_cons] at hsum
    simp only [length_append, length_nil, length_drop] at hsum hle
    omega

theorem losslessAt_iff_walks (hdepth : bytes.length < depth) (h : Spells hex bytes) :
    LosslessAt depth hex ↔ Walks bytes := by
  induction depth generalizing hex bytes with
  | zero => exact absurd hdepth (Nat.not_lt_zero _)
  | succ depth ih =>
    cases bytes with
    | nil =>
      obtain rfl : hex = [] := length_eq_zero_iff.mp h.length_eq
      rw [Walks]
      exact iff_of_true losslessAt_nil trivial
    | cons b rest =>
      have hrest : ∀ n, LosslessAt depth (hex.drop (2 * (n + 1))) ↔ Walks (rest.drop n) := by
        intro n
        refine ih ?_ (spells_drop_succ h n)
        rw [length_cons] at hdepth
        rw [length_drop]
        omega
      rw [Walks]
      split
      · next hsingle => exact losslessAt_single h hsingle
      · next hheader =>
          unfold skipped
          split
          · next hstring => exact losslessAt_string h (by omega) hstring hrest
          · next hlist => exact losslessAt_list h (by omega) hrest

theorem lossless_iff_walks (h : Spells hex bytes) : Lossless hex ↔ Walks bytes := by
  refine losslessAt_iff_walks ?_ h
  rw [h.length_eq]
  omega

end Bytes

/-! ### Items with short strings -/

def IsSinglePiece : Piece → Prop
  | .listHeader _ => False
  | .string bytes => isSingle bytes

/-- A one-byte string below `0x80` comes only at the very end of the item. -/
def SinglesLast (item : Item) : Prop := ∀ piece ∈ (pieces item).dropLast, ¬ IsSinglePiece piece

def ShortStrings (item : Item) : Prop :=
  ∀ bytes, Piece.string bytes ∈ pieces item → bytes.length ≤ 55

theorem walks_string {bytes : List UInt8} (hshort : bytes.length ≤ 55) (rest : List UInt8) :
    Walks (encodeString bytes ++ rest) ↔ (isSingle bytes → rest = []) ∧ Walks rest := by
  unfold encodeString
  split
  · next hsingle =>
      obtain ⟨b, rfl, hb⟩ : ∃ b, bytes = [b] ∧ b.toNat < 0x80 := by
        unfold isSingle at hsingle
        split at hsingle
        · exact ⟨_, rfl, of_decide_eq_true hsingle⟩
        · cases hsingle
      rw [singleton_append, Walks, if_pos hb]
      constructor
      · rintro rfl
        rw [Walks]
        exact ⟨fun _ => rfl, trivial⟩
      · exact fun h => h.1 hsingle
  · next hmany =>
      have hbyte := UInt8.toNat_ofNat_of_lt' (n := 0x80 + bytes.length) (show _ < 256 by omega)
      have hcount : lengthCount (UInt8.ofNat (0x80 + bytes.length)) = 0 := by
        rw [lengthCount, hbyte, if_pos (by omega)]
      have hskip : skipped (UInt8.ofNat (0x80 + bytes.length)) (bytes ++ rest) = bytes.length := by
        rw [skipped, hcount, readLength, hbyte, if_pos (by omega), if_pos (by omega)]
        omega
      rw [header, if_pos hshort, singleton_append, cons_append, Walks, hbyte,
        if_neg (by omega), hcount, hskip, drop_left]
      constructor
      · exact fun h => ⟨fun hsingle => absurd hsingle hmany, h.2⟩
      · exact fun h => ⟨Nat.zero_le _, h.2⟩

theorem walks_listHeader {n : Nat} (hn : n < 2 ^ 64) (rest : List UInt8) :
    Walks (header 0xc0 n ++ rest) ↔ Walks rest := by
  unfold header
  split
  · have hbyte := UInt8.toNat_ofNat_of_lt' (n := 0xc0 + n) (show _ < 256 by omega)
    have hcount : lengthCount (UInt8.ofNat (0xc0 + n)) = 0 := by
      rw [lengthCount, hbyte, if_neg (by omega), if_neg (by omega), if_pos (by omega)]
    have hskip : skipped (UInt8.ofNat (0xc0 + n)) rest = 0 := by
      rw [skipped, hbyte, if_neg (by omega), hcount]
    rw [singleton_append, Walks, hbyte, if_neg (by omega), hcount, hskip, drop_zero]
    exact and_iff_right (Nat.zero_le _)
  · next hlong =>
      have hpos := lengthBytes_pos (n := n) (by omega)
      have hle : (lengthBytes n).length ≤ 8 := length_lengthBytes_le hn
      have hbyte := UInt8.toNat_ofNat_of_lt' (n := 0xc0 + 55 + (lengthBytes n).length)
        (show _ < 256 by omega)
      have hcount : lengthCount (UInt8.ofNat (0xc0 + 55 + (lengthBytes n).length)) =
          (lengthBytes n).length := by
        rw [lengthCount, hbyte, if_neg (by omega), if_neg (by omega), if_neg (by omega)]
        omega
      have hskip : skipped (UInt8.ofNat (0xc0 + 55 + (lengthBytes n).length))
          (lengthBytes n ++ rest) = (lengthBytes n).length := by
        rw [skipped, hbyte, if_neg (by omega), hcount]
      rw [cons_append, Walks, hbyte, if_neg (by omega), hcount, hskip, drop_left]
      refine and_iff_right ?_
      rw [length_append]
      omega

theorem bytes_ne_nil (piece : Piece) : piece.bytes ≠ [] := by
  cases piece with
  | listHeader n =>
    change header 0xc0 n ≠ []
    unfold header
    split <;> exact cons_ne_nil _ _
  | string bytes =>
    change encodeString bytes ≠ []
    unfold encodeString
    split
    · next hsingle =>
        rintro rfl
        cases hsingle
    · unfold header
      split <;> exact cons_ne_nil _ _

theorem walks_flatMap_iff (ps : List Piece)
    (hstrings : ∀ bytes, Piece.string bytes ∈ ps → bytes.length ≤ 55)
    (hlists : ∀ n, Piece.listHeader n ∈ ps → n < 2 ^ 64) :
    Walks (ps.flatMap Piece.bytes) ↔ ∀ piece ∈ ps.dropLast, ¬ IsSinglePiece piece := by
  induction ps with
  | nil =>
    rw [flatMap_nil, Walks]
    exact iff_of_true trivial fun piece hpiece => absurd hpiece not_mem_nil
  | cons p ps ih =>
    have ih := ih (fun bytes h => hstrings bytes (mem_cons_of_mem _ h))
      (fun n h => hlists n (mem_cons_of_mem _ h))
    have hhead : Walks (p.bytes ++ ps.flatMap Piece.bytes) ↔
        (IsSinglePiece p → ps.flatMap Piece.bytes = []) ∧ Walks (ps.flatMap Piece.bytes) := by
      cases p with
      | listHeader n =>
        refine (walks_listHeader (hlists n mem_cons_self) _).trans ?_
        exact ⟨fun h => ⟨fun hfalse => hfalse.elim, h⟩, fun h => h.2⟩
      | string bytes => exact walks_string (hstrings bytes mem_cons_self) _
    rw [flatMap_cons, hhead, ih]
    cases ps with
    | nil => simp
    | cons q qs =>
      have hmore : (q :: qs).flatMap Piece.bytes ≠ [] := by
        rw [flatMap_cons]
        exact append_ne_nil_of_left_ne_nil (bytes_ne_nil q) _
      rw [dropLast_cons_cons, forall_mem_cons]
      exact and_congr_left fun _ => ⟨fun h hp => hmore (h hp), fun h hp => absurd hp h⟩

mutual

theorem payload_le_encode : ∀ (item : Item) (n : Nat), Piece.listHeader n ∈ pieces item →
    n ≤ (encode item).length
  | .string bytes, n, h => by
      rw [pieces, mem_singleton] at h
      cases h
  | .list items, n, h => by
      rw [pieces, mem_cons] at h
      rw [encode, length_append]
      rcases h with h | h
      · cases h
        omega
      · have := payload_le_encodeAll items n h
        omega

theorem payload_le_encodeAll : ∀ (items : List Item) (n : Nat),
    Piece.listHeader n ∈ piecesAll items →
    n ≤ (encodeAll items).length
  | [], n, h => by
      rw [piecesAll] at h
      cases h
  | item :: items, n, h => by
      rw [piecesAll, mem_append] at h
      rw [encodeAll, length_append]
      rcases h with h | h
      · have := payload_le_encode item n h
        omega
      · have := payload_le_encodeAll items n h
        omega

end

theorem walks_encode_iff {item : Item} (hstrings : ShortStrings item)
    (hlength : (encode item).length < 2 ^ 64) : Walks (encode item) ↔ SinglesLast item := by
  rw [encode_eq_flatMap]
  refine walks_flatMap_iff (pieces item) hstrings fun n hn => ?_
  exact (payload_le_encode item n hn).trans_lt hlength

/-! ### The encoding of an item -/

/-- **Tokenising an encoding loses nothing exactly if the code's walk over it goes through.** When
the item has no string of more than 55 bytes, that is: a one-byte string below `0x80` comes only at
its very end. -/
theorem tokens_lossless_iff (item : Item) (hex : List UInt8) (h : Spells hex (encode item)) :
    (Lossless hex ↔ Walks (encode item)) ∧
      (ShortStrings item → (encode item).length < 2 ^ 64 →
        (Lossless hex ↔ SinglesLast item)) := by
  refine ⟨lossless_iff_walks h, fun hstrings hlength => ?_⟩
  rw [lossless_iff_walks h, walks_encode_iff hstrings hlength]

/-- A list of two words, spelled in both cases. -/
theorem tokens_lossless_words : Lossless (ascii "C883636174837a6F67") := by
  have hspells : Spells (ascii "C883636174837a6F67")
      (encode (.list [.string (ascii "cat"), .string (ascii "zog")])) := by decide
  refine ((tokens_lossless_iff _ _ hspells).2 ?_ (by decide)).mpr ?_
  · simp [ShortStrings, pieces, piecesAll, ascii]
  · simp [SinglesLast, pieces, piecesAll, IsSinglePiece, isSingle, ascii]

/-- The list of the bytes 1 and 2: the second one is in no token. -/
theorem tokens_lose_byte :
    Spells (ascii "c20102") (encode (.list [.string [1], .string [2]])) ∧
      initTokens 7 (ascii "c20102") = some (.ok [(ascii "c2", []), ([], ascii "01")]) ∧
      ¬ Lossless (ascii "c20102") := by
  have htokens : initTokens 7 (ascii "c20102") =
      some (.ok [(ascii "c2", []), ([], ascii "01")]) := by rfl
  refine ⟨by decide, htokens, ?_⟩
  rintro ⟨tokens, htokens', hall⟩
  cases htokens.symm.trans htokens'
  exact absurd hall (by decide)

end LinuxWorkouts.Rlp
