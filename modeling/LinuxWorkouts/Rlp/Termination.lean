import LinuxWorkouts.Rlp.Lossless

/-!
When `init_tokens` returns.

The text of a call need not be hexadecimal, and the length digits need not agree with what follows.
A call throws `std::out_of_range` on an `Incomplete` text, calls itself with the same text on a
`Looping` one, and otherwise goes on with a shorter text or ends. From this step the three ways in
which the whole recursion can end are told apart by the texts it is `Called` with.
-/

namespace LinuxWorkouts.Rlp

open Ascii Hex StdString List

def firstByte (hex : List UInt8) : Int := hexToDecimal (hex.take 2)

/-- One character that is no digit, or a long string whose text ends within its header. -/
def Incomplete (hex : List UInt8) : Prop :=
  hex.length = 1 ∧ firstByte hex < 0 ∨
    ∃ k : Nat, k ≤ 8 ∧ 1 ≤ k ∧ firstByte hex = 0xb7 + k ∧ hex.length < 2 * (k + 1)

/-- A long string whose length digits count backwards over its own header. -/
def Looping (hex : List UInt8) : Prop :=
  ∃ k : Nat, k ≤ 8 ∧ 2 ≤ k ∧ firstByte hex = 0xb7 + k ∧ 2 * (k + 1) ≤ hex.length ∧
    hexToDecimal ((hex.drop 2).take k) + k + 1 = 0

instance (hex : List UInt8) : Decidable (Incomplete hex) :=
  inferInstanceAs (Decidable (_ ∨ _))

instance (hex : List UInt8) : Decidable (Looping hex) :=
  inferInstanceAs (Decidable (∃ k : Nat, k ≤ 8 ∧ _))

/-- The texts of the calls that `init_tokens` makes, itself included. -/
inductive Called : List UInt8 → List UInt8 → Prop where
  | self (hex : List UInt8) : Called hex hex
  | next {hex r t : List UInt8} {token : Token} : hex ≠ [] →
      tokenStep hex = .ok (token, some r) → Called r t → Called hex t

def Returns (hex : List UInt8) : Prop := ∃ depth tokens, initTokens depth hex = some (.ok tokens)

def Throws (hex : List UInt8) : Prop := ∃ depth, initTokens depth hex = some (.error .outOfRange)

def Diverges (hex : List UInt8) : Prop := ∀ depth, initTokens depth hex = none

/-! ### Numbers -/

theorem digit_bounds (c : UInt8) :
    -1 ≤ getDecimalDigitFromHexChar c ∧ getDecimalDigitFromHexChar c ≤ 15 := by
  simp only [getDecimalDigitFromHexChar, isHexChar, Bool.or_eq_true, Bool.and_eq_true,
    decide_eq_true_eq, UInt8.le_iff_toNat_le, UInt8.reduceToNat]
  split_ifs <;> omega

theorem hexToDecimalLoop_bounds (cs : List UInt8) (power : Nat) (resNum : Int) :
    ∃ n : Int, hexToDecimalLoop cs power resNum = resNum + 16 ^ power * n ∧
      -16 ^ cs.length < n ∧ n < 16 ^ cs.length := by
  induction cs generalizing power resNum with
  | nil => exact ⟨0, by simp [hexToDecimalLoop], by simp, by simp⟩
  | cons c cs ih =>
    obtain ⟨n, hn, hlow, hhigh⟩ :=
      ih (power + 1) (resNum + 16 ^ power * getDecimalDigitFromHexChar (toupper c))
    obtain ⟨hdigit, hdigit'⟩ := digit_bounds (toupper c)
    refine ⟨getDecimalDigitFromHexChar (toupper c) + 16 * n, ?_, ?_, ?_⟩
    · rw [hexToDecimalLoop, hn]
      ring
    · rw [length_cons, pow_succ]
      omega
    · rw [length_cons, pow_succ]
      omega

theorem hexToDecimal_bounds (cs : List UInt8) :
    -16 ^ cs.length < hexToDecimal cs ∧ hexToDecimal cs < 16 ^ cs.length := by
  obtain ⟨n, hn, hlow, hhigh⟩ := hexToDecimalLoop_bounds cs.reverse 0 0
  rw [length_reverse] at hlow hhigh
  rw [hexToDecimal, hn]
  constructor <;> simpa

theorem hexToDecimal_bounds_of_length {cs : List UInt8} {k : Nat} (h : cs.length ≤ k) :
    -16 ^ k < hexToDecimal cs ∧ hexToDecimal cs < 16 ^ k := by
  obtain ⟨hlow, hhigh⟩ := hexToDecimal_bounds cs
  have hpow : (16 : Int) ^ cs.length ≤ 16 ^ k := pow_le_pow_right₀ (by norm_num) h
  omega

section Call

variable {hex : List UInt8}

theorem getEncodingDesc_take (hex : List UInt8) :
    getEncodingDesc (hex.take 2) = ⟨encodingType (firstByte hex), firstByte hex, hex.take 2⟩ := rfl

theorem firstByte_bounds (hex : List UInt8) : -256 < firstByte hex ∧ firstByte hex < 256 :=
  hexToDecimal_bounds_of_length (length_take_le 2 hex)

theorem two_le_length (h : 16 ≤ firstByte hex) : 2 ≤ hex.length := by
  by_contra hlength
  have hshort : (hex.take 2).length ≤ 1 := by
    rw [length_take]
    omega
  have hbound := (hexToDecimal_bounds_of_length hshort).2
  rw [firstByte] at h
  omega

/-! ### One call -/

theorem readLongLength_eq {k : Nat} (hk : k ≤ 8) (hone : 1 ≤ k)
    (hfirst : firstByte hex = 0xb7 + k) :
    ∃ n : Int, readLongLength hex k = .ok (sizeT n) ∧ -2 ^ 32 < n ∧ n < 2 ^ 32 ∧
      (n + k + 1 = 0 ↔ 2 ≤ k ∧ hexToDecimal ((hex.drop 2).take k) + k + 1 = 0) := by
  have hlength : 2 ≤ hex.length := two_le_length (by omega)
  by_cases hk1 : k = 1
  · refine ⟨firstByte hex, ?_, by omega, by omega, by omega⟩
    rw [readLongLength, if_pos hk1, substr_of_le (Nat.zero_le _)]
    rfl
  · have hdigits : ((hex.drop 2).take k).length ≤ 8 := (length_take_le _ _).trans hk
    obtain ⟨hlow, hhigh⟩ := hexToDecimal_bounds_of_length hdigits
    refine ⟨hexToDecimal ((hex.drop 2).take k), ?_, by omega, by omega, by omega⟩
    rw [readLongLength, if_neg hk1, substr_of_le hlength]
    rfl

theorem tokenEnd_sizeT {n : Int} {k : Nat} (hlow : -2 ^ 32 < n) (hhigh : n < 2 ^ 32) (hk : k ≤ 8) :
    tokenEnd ⟨sizeT n, k + 1⟩ = 0 ↔ n + k + 1 = 0 := by
  simp only [tokenEnd, byteToHexLen, sizeT]
  omega

theorem tokenStep_long {k : Nat} (hk : k ≤ 8) (hone : 1 ≤ k) (hfirst : firstByte hex = 0xb7 + k) :
    ∃ token finish, (finish = 0 ↔ 2 ≤ k ∧ hexToDecimal ((hex.drop 2).take k) + k + 1 = 0) ∧
      tokenStep hex =
        if 2 * (k + 1) ≤ hex.length then
          .ok (token, if finish < hex.length then some (hex.drop finish) else none)
        else .error .outOfRange := by
  obtain ⟨n, hread, hlow, hhigh, hzero⟩ := readLongLength_eq hk hone hfirst
  have htype : encodingType (firstByte hex) = .medium := by
    rw [encodingType, if_neg (by omega), if_neg (by omega), if_pos (by omega)]
  have hcount : sizeT (firstByte hex - 0xb7) = k := by
    rw [hfirst, add_sub_cancel_left, sizeT_natCast (by omega)]
  have hinfo : getLenInfo hex (getEncodingDesc (hex.take 2)) = .ok ⟨sizeT n, k + 1⟩ := by
    simp only [getEncodingDesc_take, getLenInfo, htype, longLenInfo, hcount, hread,
      Except.map, Except.ok.injEq, LenInfo.mk.injEq, true_and]
    exact_mod_cast sizeT_natCast (n := k + 1) (by omega)
  have hstep := tokenStep_eq_string (.inr htype) hinfo
  rw [byteToHexLen_eq (show k + 1 < 2 ^ 63 by omega)] at hstep
  exact ⟨_, _, (tokenEnd_sizeT hlow hhigh hk).trans hzero, hstep⟩

theorem tokenStep_of_looping (h : Looping hex) :
    ∃ token, tokenStep hex = .ok (token, some hex) := by
  obtain ⟨k, hk, htwo, hfirst, hcomplete, hdigits⟩ := h
  obtain ⟨token, finish, hfinish, hstep⟩ := tokenStep_long hk (by omega) hfirst
  have hzero : finish = 0 := hfinish.mpr ⟨htwo, hdigits⟩
  refine ⟨token, ?_⟩
  rw [hstep, if_pos hcomplete, if_pos (by omega), hzero, drop_zero]

theorem tokenStep_longList (hfirst : firstByte hex < 0 ∨ 0xf8 ≤ firstByte hex) :
    (hex.length < 2 → tokenStep hex = .error .outOfRange) ∧
      (2 ≤ hex.length → ∃ token n, 0 < n ∧ tokenStep hex = .ok (token, some (hex.drop n))) := by
  have hbounds := firstByte_bounds hex
  have htype : encodingType (firstByte hex) = .longList := by
    rw [encodingType, if_neg (by omega), if_neg (by omega), if_neg (by omega), if_neg (by omega)]
  constructor
  · intro hlength
    have hnegative : firstByte hex < 0 := by
      by_contra hnonneg
      have hlong : 2 ≤ hex.length := two_le_length (by omega)
      omega
    have hcount : sizeT (firstByte hex - 0xf7) ≠ 1 := by
      rw [sizeT]
      omega
    have hinfo : getLenInfo hex (getEncodingDesc (hex.take 2)) = .error .outOfRange := by
      simp only [getEncodingDesc_take, getLenInfo, htype, longLenInfo, readLongLength,
        if_neg hcount, substr, if_neg (Nat.not_le.mpr hlength), Except.map]
    rw [tokenStep, currentState, substr_of_le (Nat.zero_le _), Except.bind, drop_zero, hinfo]
    rfl
  · intro hlength
    obtain ⟨dataLen, hread⟩ : ∃ dataLen,
        readLongLength hex (sizeT (firstByte hex - 0xf7)) = .ok dataLen := by
      rw [readLongLength, substr_of_le (Nat.zero_le _), substr_of_le hlength]
      split_ifs
      · exact ⟨_, rfl⟩
      · exact ⟨_, rfl⟩
    have hinfo : getLenInfo hex (getEncodingDesc (hex.take 2)) =
        .ok ⟨dataLen, sizeT (sizeT (firstByte hex - 0xf7) + 1)⟩ := by
      simp only [getEncodingDesc_take, getLenInfo, htype, longLenInfo, hread, Except.map]
    refine ⟨_, _, ?_, tokenStep_eq_list (.inr htype) hinfo⟩
    simp only [byteToHexLen, sizeT]
    omega

theorem tokenStep_plain (hlow : 0 ≤ firstByte hex) (hhigh : firstByte hex < 0xf8)
    (hmedium : ¬ (0xb8 ≤ firstByte hex ∧ firstByte hex ≤ 0xbf)) :
    ∃ token next, tokenStep hex = .ok (token, next) ∧
      ∀ r, next = some r → ∃ n, 0 < n ∧ r = hex.drop n := by
  by_cases hsingle : firstByte hex ≤ 0x7f
  · have htype : encodingType (firstByte hex) = .single := by
      rw [encodingType, if_pos ⟨hlow, hsingle⟩]
    have hinfo : getLenInfo hex (getEncodingDesc (hex.take 2)) = .ok ⟨1, 1⟩ := by
      simp only [getEncodingDesc_take, getLenInfo, htype]
    refine ⟨_, _, tokenStep_eq_single htype hinfo, ?_⟩
    intro r hr
    split_ifs at hr
    cases hr
    exact ⟨tokenEnd ⟨1, 1⟩, by decide, rfl⟩
  · by_cases hshort : firstByte hex ≤ 0xb7
    · have htype : encodingType (firstByte hex) = .short := by
        rw [encodingType, if_neg (by omega), if_pos (by omega)]
      have hinfo : getLenInfo hex (getEncodingDesc (hex.take 2)) =
          .ok ⟨sizeT (firstByte hex - 0x80), 1⟩ := by
        simp only [getEncodingDesc_take, getLenInfo, htype]
      have hlength : byteToHexLen 1 ≤ hex.length := two_le_length (by omega)
      have hstep := tokenStep_eq_string (.inl htype) hinfo
      rw [if_pos hlength] at hstep
      refine ⟨_, _, hstep, ?_⟩
      intro r hr
      split_ifs at hr
      cases hr
      refine ⟨_, ?_, rfl⟩
      simp only [tokenEnd, byteToHexLen, sizeT]
      omega
    · have htype : encodingType (firstByte hex) = .list := by
        rw [encodingType, if_neg (by omega), if_neg (by omega), if_neg hmedium, if_pos (by omega)]
      have hinfo : getLenInfo hex (getEncodingDesc (hex.take 2)) =
          .ok ⟨sizeT (firstByte hex - 0xc0), 1⟩ := by
        simp only [getEncodingDesc_take, getLenInfo, htype]
      refine ⟨_, _, tokenStep_eq_list (.inl htype) hinfo, ?_⟩
      intro r hr
      cases hr
      exact ⟨byteToHexLen 1, by decide, rfl⟩

theorem tokenStep_of_incomplete (h : Incomplete hex) : tokenStep hex = .error .outOfRange := by
  rcases h with ⟨hlength, hnegative⟩ | ⟨k, hk, hone, hfirst, hlength⟩
  · exact (tokenStep_longList (.inl hnegative)).1 (by omega)
  · obtain ⟨token, finish, -, hstep⟩ := tokenStep_long hk hone hfirst
    rw [hstep, if_neg (by omega)]

theorem tokenStep_of_complete (hne : hex ≠ []) (hcomplete : ¬ Incomplete hex)
    (hloop : ¬ Looping hex) :
    ∃ token next, tokenStep hex = .ok (token, next) ∧
      ∀ r, next = some r → ∃ n, 0 < n ∧ r = hex.drop n := by
  have hpos : 0 < hex.length := length_pos_iff.mpr hne
  by_cases hlist : firstByte hex < 0 ∨ 0xf8 ≤ firstByte hex
  · have hlength : 2 ≤ hex.length := by
      rcases hlist with hnegative | hlarge
      · by_contra hshort
        exact hcomplete (.inl ⟨by omega, hnegative⟩)
      · exact two_le_length (by omega)
    obtain ⟨token, n, hn, hstep⟩ := (tokenStep_longList hlist).2 hlength
    refine ⟨token, _, hstep, ?_⟩
    intro r hr
    cases hr
    exact ⟨n, hn, rfl⟩
  · by_cases hmedium : 0xb8 ≤ firstByte hex ∧ firstByte hex ≤ 0xbf
    · obtain ⟨k, hk⟩ : ∃ k : Nat, firstByte hex = 0xb7 + k :=
        ⟨(firstByte hex - 0xb7).toNat, by omega⟩
      obtain ⟨token, finish, hfinish, hstep⟩ := tokenStep_long (by omega) (by omega) hk
      have hlength : 2 * (k + 1) ≤ hex.length := by
        by_contra hshort
        exact hcomplete (.inr ⟨k, by omega, by omega, hk, by omega⟩)
      have hforward : 0 < finish := by
        by_contra hzero
        obtain ⟨htwo, hdigits⟩ := hfinish.mp (by omega)
        exact hloop ⟨k, by omega, htwo, hk, hlength, hdigits⟩
      rw [if_pos hlength] at hstep
      refine ⟨token, _, hstep, ?_⟩
      intro r hr
      split_ifs at hr
      cases hr
      exact ⟨finish, hforward, rfl⟩
    · exact tokenStep_plain (by omega) (by omega) hmedium

theorem incomplete_ne_nil (h : Incomplete hex) : hex ≠ [] := by
  rintro rfl
  revert h
  decide

theorem looping_ne_nil (h : Looping hex) : hex ≠ [] := by
  rintro rfl
  revert h
  decide

theorem not_looping_of_incomplete (h : Incomplete hex) : ¬ Looping hex := by
  intro hloop
  obtain ⟨token, hstep⟩ := tokenStep_of_looping hloop
  rw [tokenStep_of_incomplete h] at hstep
  cases hstep

end Call

/-! ### The recursion -/

section Recursion

variable {hex r t : List UInt8} {token : Token}

theorem initTokens_mono {depth : Nat} {result : Except Fault (List Token)}
    (h : initTokens depth hex = some result) : initTokens (depth + 1) hex = some result := by
  induction depth generalizing hex result with
  | zero => cases h
  | succ depth ih =>
    rw [initTokens] at h ⊢
    split_ifs at h ⊢ with hnil
    · exact h
    · cases hstep : tokenStep hex with
      | error fault =>
        rw [hstep] at h
        exact h
      | ok out =>
        obtain ⟨token, _ | r⟩ := out
        · rw [hstep] at h
          exact h
        · rw [hstep] at h
          obtain ⟨result', hresult', rfl⟩ := Option.map_eq_some_iff.mp h
          simp only [ih hresult', Option.map_some]

theorem initTokens_of_le {depth depth' : Nat} {result : Except Fault (List Token)}
    (hle : depth ≤ depth') (h : initTokens depth hex = some result) :
    initTokens depth' hex = some result := by
  induction hle with
  | refl => exact h
  | step _ ih => exact initTokens_mono ih

theorem not_throws_of_returns (h : Returns hex) : ¬ Throws hex := by
  rintro ⟨depth', hthrow⟩
  obtain ⟨depth, tokens, hreturn⟩ := h
  have hsame := (initTokens_of_le (le_max_left depth depth') hreturn).symm.trans
    (initTokens_of_le (le_max_right depth depth') hthrow)
  cases hsame

theorem returns_next (hne : hex ≠ []) (hstep : tokenStep hex = .ok (token, some r))
    (h : Returns r) : Returns hex := by
  obtain ⟨depth, tokens, hreturn⟩ := h
  refine ⟨depth + 1, token :: tokens, ?_⟩
  rw [initTokens_next hne hstep, hreturn]
  rfl

theorem throws_next (hne : hex ≠ []) (hstep : tokenStep hex = .ok (token, some r))
    (h : Throws r) : Throws hex := by
  obtain ⟨depth, hthrow⟩ := h
  refine ⟨depth + 1, ?_⟩
  rw [initTokens_next hne hstep, hthrow]
  rfl

theorem diverges_next (hne : hex ≠ []) (hstep : tokenStep hex = .ok (token, some r))
    (h : Diverges r) : Diverges hex := by
  intro depth
  cases depth with
  | zero => rfl
  | succ depth =>
    rw [initTokens_next hne hstep, h depth]
    rfl

theorem throws_of_incomplete (h : Incomplete hex) : Throws hex := by
  refine ⟨1, ?_⟩
  rw [initTokens, if_neg (incomplete_ne_nil h), tokenStep_of_incomplete h]

theorem diverges_of_looping (h : Looping hex) : Diverges hex := by
  obtain ⟨token, hstep⟩ := tokenStep_of_looping h
  intro depth
  induction depth with
  | zero => rfl
  | succ depth ih =>
    rw [initTokens_next (looping_ne_nil h) hstep, ih]
    rfl

theorem called_next_iff (hne : hex ≠ []) (hstep : tokenStep hex = .ok (token, some r)) :
    Called hex t ↔ t = hex ∨ Called r t := by
  constructor
  · intro h
    cases h with
    | self => exact .inl rfl
    | next _ hstep' hcalled =>
      rw [hstep] at hstep'
      cases hstep'
      exact .inr hcalled
  · rintro (rfl | h)
    · exact .self t
    · exact .next hne hstep h

theorem called_last (hlast : ∀ token r, hex ≠ [] → tokenStep hex ≠ .ok (token, some r))
    (h : Called hex t) : t = hex := by
  cases h with
  | self => rfl
  | next hne hstep _ => exact absurd hstep (hlast _ _ hne)

theorem called_loop (hstep : tokenStep hex = .ok (token, some hex)) (h : Called hex t) :
    t = hex := by
  induction h with
  | self => rfl
  | next hne hstep' hcalled ih =>
    rw [hstep] at hstep'
    cases hstep'
    exact ih hstep

def Settled (hex : List UInt8) : Prop :=
  Returns hex ∧ (∀ t, Called hex t → ¬ Incomplete t ∧ ¬ Looping t) ∨
    Throws hex ∧ (∃ t, Called hex t ∧ Incomplete t) ∧ (∀ t, Called hex t → ¬ Looping t) ∨
    Diverges hex ∧ (∃ t, Called hex t ∧ Looping t) ∧ (∀ t, Called hex t → ¬ Incomplete t)

theorem settled_of_incomplete (h : Incomplete hex) : Settled hex := by
  refine .inr (.inl ⟨throws_of_incomplete h, ⟨hex, .self hex, h⟩, ?_⟩)
  intro t ht
  rw [called_last (fun token r _ => by simp [tokenStep_of_incomplete h]) ht]
  exact not_looping_of_incomplete h

theorem settled_of_looping (hincomplete : ¬ Incomplete hex) (hloop : Looping hex) :
    Settled hex := by
  obtain ⟨token, hstep⟩ := tokenStep_of_looping hloop
  refine .inr (.inr ⟨diverges_of_looping hloop, ⟨hex, .self hex, hloop⟩, ?_⟩)
  intro t ht
  rw [called_loop hstep ht]
  exact hincomplete

theorem Settled.next {token : List UInt8 × List UInt8} {r : List UInt8} (h : Settled r)
    (hne : hex ≠ [])
    (hstep : tokenStep hex = .ok (token, some r)) (hincomplete : ¬ Incomplete hex)
    (hloop : ¬ Looping hex) : Settled hex := by
  have hcalled : ∀ t, Called hex t → t = hex ∨ Called r t :=
    fun t ht => (called_next_iff hne hstep).mp ht
  rcases h with ⟨hreturns, hall⟩ | ⟨hthrows, ⟨t, ht, hbad⟩, hall⟩ |
    ⟨hdiverges, ⟨t, ht, hbad⟩, hall⟩
  · refine .inl ⟨returns_next hne hstep hreturns, fun t ht => ?_⟩
    rcases hcalled t ht with rfl | ht
    · exact ⟨hincomplete, hloop⟩
    · exact hall t ht
  · refine .inr (.inl ⟨throws_next hne hstep hthrows, ⟨t, .next hne hstep ht, hbad⟩,
      fun t ht => ?_⟩)
    rcases hcalled t ht with rfl | ht
    · exact hloop
    · exact hall t ht
  · refine .inr (.inr ⟨diverges_next hne hstep hdiverges, ⟨t, .next hne hstep ht, hbad⟩,
      fun t ht => ?_⟩)
    rcases hcalled t ht with rfl | ht
    · exact hincomplete
    · exact hall t ht

theorem recursion_cases (hex : List UInt8) : Settled hex := by
  induction hlength : hex.length using Nat.strong_induction_on generalizing hex with
  | h length ih =>
  by_cases hincomplete : Incomplete hex
  · exact settled_of_incomplete hincomplete
  by_cases hloop : Looping hex
  · exact settled_of_looping hincomplete hloop
  by_cases hne : hex = []
  · refine .inl ⟨⟨1, [], by rw [initTokens, if_pos hne]⟩, ?_⟩
    intro t ht
    rw [called_last (fun _ _ h => absurd hne h) ht]
    exact ⟨hincomplete, hloop⟩
  obtain ⟨token, next, hstep, hnext⟩ := tokenStep_of_complete hne hincomplete hloop
  cases next with
  | none =>
    refine .inl ⟨⟨1, [token], by rw [initTokens, if_neg hne, hstep]⟩, ?_⟩
    intro t ht
    rw [called_last (fun _ _ _ => by simp [hstep]) ht]
    exact ⟨hincomplete, hloop⟩
  | some r =>
    obtain ⟨n, hn, hr⟩ := hnext r rfl
    have hshorter : r.length < length := by
      have hpos : 0 < hex.length := length_pos_iff.mpr hne
      rw [hr, length_drop]
      omega
    exact (ih r.length hshorter r rfl).next hne hstep hincomplete hloop

theorem not_diverges_of_returns (h : Returns hex) : ¬ Diverges hex := by
  intro hdiverges
  obtain ⟨depth, tokens, hreturn⟩ := h
  rw [hdiverges depth] at hreturn
  cases hreturn

theorem not_diverges_of_throws (h : Throws hex) : ¬ Diverges hex := by
  intro hdiverges
  obtain ⟨depth, hthrow⟩ := h
  rw [hdiverges depth] at hthrow
  cases hthrow

/-! ### Lines of digits -/

theorem hexToDecimalLoop_nonneg {cs : List UInt8} (h : ∀ c ∈ cs, isHexChar (toupper c))
    (power : Nat)
    {resNum : Int} (hres : 0 ≤ resNum) : 0 ≤ hexToDecimalLoop cs power resNum := by
  induction cs generalizing power resNum with
  | nil => exact hres
  | cons c cs ih =>
    refine ih (fun d hd => h d (mem_cons_of_mem _ hd)) (power + 1) ?_
    have hdigit : 0 ≤ getDecimalDigitFromHexChar (toupper c) := by
      have hhex := h c mem_cons_self
      rw [getDecimalDigitFromHexChar, if_pos hhex]
      simp only [isHexChar, Bool.or_eq_true, Bool.and_eq_true, decide_eq_true_eq,
        UInt8.le_iff_toNat_le, UInt8.reduceToNat] at hhex ⊢
      split_ifs <;> omega
    positivity

theorem called_suffix (h : Called hex t) : t <:+ hex := by
  induction h with
  | self => exact suffix_rfl
  | @next hex r t token hne hstep _ ih =>
    refine ih.trans ?_
    by_cases hincomplete : Incomplete hex
    · rw [tokenStep_of_incomplete hincomplete] at hstep
      cases hstep
    by_cases hloop : Looping hex
    · obtain ⟨token', hstep'⟩ := tokenStep_of_looping hloop
      rw [hstep'] at hstep
      cases hstep
      exact suffix_rfl
    · obtain ⟨token', next, hstep', hnext⟩ := tokenStep_of_complete hne hincomplete hloop
      rw [hstep'] at hstep
      cases hstep
      obtain ⟨n, -, rfl⟩ := hnext r rfl
      exact drop_suffix n hex

/-- **A line of hexadecimal digits** of either case may throw, but it always ends. -/
theorem not_diverges_of_digits (h : ∀ c ∈ hex, isHexChar (toupper c)) : ¬ Diverges hex := by
  intro hdiverges
  rcases recursion_cases hex with ⟨hreturns, -⟩ | ⟨hthrows, -⟩ | ⟨-, ⟨t, ht, hloop⟩, -⟩
  · exact not_diverges_of_returns hreturns hdiverges
  · exact not_diverges_of_throws hthrows hdiverges
  · obtain ⟨k, -, -, -, -, hdigits⟩ := hloop
    have hnonneg : 0 ≤ hexToDecimal ((t.drop 2).take k) := by
      refine hexToDecimalLoop_nonneg (fun c hc => h c ?_) 0 le_rfl
      have hmem : c ∈ t := mem_of_mem_drop (mem_of_mem_take (mem_reverse.mp hc))
      exact (called_suffix ht).subset hmem
    omega

theorem not_diverges_of_digits_long : ¬ Diverges (ascii "b90000") :=
  not_diverges_of_digits (by decide +kernel)

/-! ### The whole recursion -/

/-- **When `init_tokens` returns, throws and never ends**, for every text. -/
theorem init_tokens_ends_iff (hex : List UInt8) :
    (Returns hex ↔ ∀ t, Called hex t → ¬ Incomplete t ∧ ¬ Looping t) ∧
      (Throws hex ↔ ∃ t, Called hex t ∧ Incomplete t) ∧
      (Diverges hex ↔ ∃ t, Called hex t ∧ Looping t) := by
  rcases recursion_cases hex with ⟨hreturns, hall⟩ | ⟨hthrows, ⟨t, ht, hbad⟩, hall⟩ |
    ⟨hdiverges, ⟨t, ht, hbad⟩, hall⟩
  · refine ⟨⟨fun _ => hall, fun _ => hreturns⟩, ⟨?_, ?_⟩, ⟨?_, ?_⟩⟩
    · exact fun hthrows => absurd hthrows (not_throws_of_returns hreturns)
    · exact fun ⟨t, ht, hbad⟩ => absurd hbad (hall t ht).1
    · exact fun hdiverges => absurd hdiverges (not_diverges_of_returns hreturns)
    · exact fun ⟨t, ht, hbad⟩ => absurd hbad (hall t ht).2
  · refine ⟨⟨?_, ?_⟩, ⟨fun _ => ⟨t, ht, hbad⟩, fun _ => hthrows⟩, ⟨?_, ?_⟩⟩
    · exact fun hreturns => absurd hthrows (not_throws_of_returns hreturns)
    · exact fun hnone => absurd hbad (hnone t ht).1
    · exact fun hdiverges => absurd hdiverges (not_diverges_of_throws hthrows)
    · exact fun ⟨t, ht, hbad⟩ => absurd hbad (hall t ht)
  · refine ⟨⟨?_, ?_⟩, ⟨?_, ?_⟩, ⟨fun _ => ⟨t, ht, hbad⟩, fun _ => hdiverges⟩⟩
    · exact fun hreturns => absurd hdiverges (not_diverges_of_returns hreturns)
    · exact fun hnone => absurd hbad (hnone t ht).2
    · exact fun hthrows => absurd hdiverges (not_diverges_of_throws hthrows)
    · exact fun ⟨t, ht, hbad⟩ => absurd hbad (hall t ht)

/-- A lone header byte and a lone character that is no digit throw; a long string whose two length
digits are read as -3 is read again and again. -/
theorem init_tokens_fails :
    Throws (ascii "b8") ∧ Throws (ascii "g") ∧ Diverges (ascii "b9gd00") :=
  ⟨throws_of_incomplete (by decide), throws_of_incomplete (by decide),
    diverges_of_looping (by decide)⟩

end Recursion

end LinuxWorkouts.Rlp
