import LinuxWorkouts.Kafka.Consumer

/-!
The messages that `writeAsync` of `golang/kafka/producer/producer.go` sends, against what
`parseButtonEvents` of the consumer reads.

The producer converts its numbers with `sarama.StringEncoder(n)`, a conversion of an integer to a
string type: the result is the character with this number in UTF-8 and not the digits of the number.
The sum of an encoder and a string is taken as the concatenation. The consumer reads digits; of the
characters it takes for a number, each is read as another one than it was written for.
-/

namespace LinuxWorkouts.Kafka

open Ascii Goroutines List

/-- `string(n)`: the character U+FFFD stands for what is no code point. -/
def stringOfInt (n : Int) : List UInt8 :=
  if 0 ≤ n ∧ n.toNat.isValidChar then String.utf8EncodeChar (Char.ofNat n.toNat)
  else String.utf8EncodeChar (Char.ofNat 0xFFFD)

/-- The key of the message for an event. -/
def messageKey (be : ButtonEvents) : List UInt8 :=
  stringOfInt be.buttonId ++ ofChar ':' :: be.buttonName

def messageValue (be : ButtonEvents) : List UInt8 := stringOfInt be.clicksCnt

/-! ### Characters -/

theorem le_of_mem_utf8EncodeChar {c : Char} (hc : 128 ≤ c.val.toNat) {b : UInt8}
    (hb : b ∈ String.utf8EncodeChar c) : 128 ≤ b.toNat := by
  simp only [String.utf8EncodeChar] at hb
  split_ifs at hb with h1 h2 h3
  · omega
  all_goals
    simp only [mem_cons, not_mem_nil, or_false] at hb
    rcases hb with rfl | rfl | rfl | rfl <;> rw [UInt8.toNat_ofNat'] <;> omega

theorem stringOfInt_cases (n : Int) :
    (∃ m : Nat, m < 128 ∧ n = m ∧ stringOfInt n = [UInt8.ofNat m]) ∨
      ∀ b ∈ stringOfInt n, 128 ≤ b.toNat := by
  by_cases hvalid : 0 ≤ n ∧ n.toNat.isValidChar
  · obtain ⟨hpos, hchar⟩ := hvalid
    obtain ⟨m, rfl⟩ := Int.eq_ofNat_of_zero_le hpos
    rw [Int.toNat_natCast] at hchar
    have hval : (Char.ofNat m).val.toNat = m := (Char.toNat_ofNat m).trans (if_pos hchar)
    rw [stringOfInt, if_pos ⟨hpos, hchar⟩, Int.toNat_natCast]
    by_cases hm : m < 128
    · refine .inl ⟨m, hm, rfl, ?_⟩
      rw [String.utf8EncodeChar, hval, if_pos (Nat.le_of_lt_succ hm)]
    · exact .inr fun b hb => le_of_mem_utf8EncodeChar (hval.symm ▸ not_lt.mp hm) hb
  · rw [stringOfInt, if_neg hvalid]
    exact .inr fun b hb => le_of_mem_utf8EncodeChar (by decide) hb

/-! ### What the consumer reads -/

theorem atoi_cons_of_not {b : UInt8} {s : List UInt8} (hdigit : ¬ isDigit b)
    (hplus : b ≠ ofChar '+') (hminus : b ≠ ofChar '-') : atoi (b :: s) = .error .invalid := by
  simp [atoi, parseUint, parseUintLoop, hdigit, hplus, hminus]

theorem atoi_singleton {b : UInt8} {n : Int} (h : atoi [b] = .ok n) : n + 48 = b.toNat := by
  by_cases hplus : b = ofChar '+'
  · rw [hplus] at h
    cases h
  by_cases hminus : b = ofChar '-'
  · rw [hminus] at h
    cases h
  by_cases hdigit : isDigit b
  · obtain ⟨hlow, hhigh⟩ := isDigit_iff.mp hdigit
    have hparse : parseUint [b] = some (b.toNat - 48) := by
      rw [parseUint, if_neg (cons_ne_nil b []), parseUintLoop, if_neg (not_not.mpr hdigit),
        if_neg (by decide), if_neg (by omega), parseUintLoop, Nat.mul_zero, Nat.zero_add]
    have hvalue : atoi [b] = .ok ((b.toNat - 48 : Nat) : Int) := by
      simp only [atoi, head?_cons, Option.some.injEq, hplus, hminus, or_self, if_false, hparse]
      rw [if_neg (by omega)]
    rw [hvalue] at h
    cases h
    omega
  · rw [atoi_cons_of_not hdigit hplus hminus] at h
    cases h

theorem atoi_of_high {s : List UInt8} (h : ∀ b ∈ s, 128 ≤ b.toNat) : atoi s = .error .invalid := by
  cases s with
  | nil => rfl
  | cons b s =>
    have hb := h b mem_cons_self
    refine atoi_cons_of_not (fun hdigit => ?_) ?_ ?_
    · have := (isDigit_iff.mp hdigit).2
      omega
    · rintro rfl
      exact absurd hb (by decide)
    · rintro rfl
      exact absurd hb (by decide)

theorem parseButtonEvents_id {key value : List UInt8} {be : ButtonEvents}
    (h : parseButtonEvents key value = .goes (.ok be)) :
    ∃ idToken rest, key.splitOn (ofChar ':') = idToken :: rest ∧
      atoi idToken = .ok be.buttonId := by
  rw [parseButtonEvents] at h
  split at h
  · cases h
  · next idToken rest hsplit =>
      refine ⟨idToken, rest, hsplit, ?_⟩
      split at h
      · cases h
      · next buttonId hid =>
          split at h
          · cases h
          · split at h
            · cases h
            · cases h
              exact hid

/-- No event comes out of its own message: of the numbers, the consumer reads those of the ten digit
characters only, and as the digits. -/
theorem parseButtonEvents_message_ne (be : ButtonEvents) :
    parseButtonEvents (messageKey be) (messageValue be) ≠ .goes (.ok be) := by
  intro h
  obtain ⟨idToken, rest, hsplit, hid⟩ := parseButtonEvents_id h
  have htoken : ofChar ':' ∉ stringOfInt be.buttonId → idToken = stringOfInt be.buttonId := by
    intro hcolon
    rw [messageKey, splitOn_append_cons_self_of_not_mem hcolon] at hsplit
    exact (cons.inj hsplit).1.symm
  rcases stringOfInt_cases be.buttonId with ⟨m, hm, hn, hstring⟩ | hhigh
  · rw [hstring, mem_singleton] at htoken
    by_cases hcolon : ofChar ':' = UInt8.ofNat m
    · -- the key starts with the separator, so that the first token is empty
      have hempty : idToken = [] := by
        have hfirst := splitOn_append_cons_self_of_not_mem (not_mem_nil (a := ofChar ':'))
          (ofChar ':' :: be.buttonName)
        rw [messageKey, hstring, ← hcolon] at hsplit
        exact (cons.inj (hsplit.symm.trans hfirst)).1
      rw [hempty] at hid
      cases hid
    · rw [htoken hcolon] at hid
      have hread := atoi_singleton hid
      rw [UInt8.toNat_ofNat', Nat.mod_eq_of_lt (by omega)] at hread
      omega
  · have hcolon : ofChar ':' ∉ stringOfInt be.buttonId := fun hmem =>
      absurd (hhigh _ hmem) (by decide)
    rw [htoken hcolon, atoi_of_high hhigh] at hid
    cases hid

def firstButton : ButtonEvents := ⟨1, ascii "buy", 5⟩

theorem parseButtonEvents_firstButton :
    parseButtonEvents (messageKey firstButton) (messageValue firstButton) =
      .goes (.error .invalid) := by
  rfl

end LinuxWorkouts.Kafka
