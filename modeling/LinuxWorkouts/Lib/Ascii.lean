import Mathlib

/-!
Bytes as text: literals, C strings, decimal numbers and lines.

* `decimal` is what `printf` writes for `%ld`, `parseInt` the value that Go's
  `strconv.ParseInt` returns for base 10 and 64 bits; `parseInt_decimal` is the round
  trip between the two. `atoi` is Go's `strconv.Atoi` with its errors, `stoi` C++'s `std::stoi`.
* `splitLine` cuts a buffer behind its first newline; `splitLine_of_append` says which
  line comes out when the buffer is a part of a longer stream.
-/

namespace LinuxWorkouts.Ascii

open List

def ofChar (c : Char) : UInt8 := UInt8.ofNat c.toNat

def ascii (s : String) : List UInt8 := s.toList.map ofChar

theorem ascii_ofList (l : List Char) : ascii (String.ofList l) = l.map ofChar := by
  rw [ascii, String.toList_ofList]

def newline : UInt8 := 10

def slash : UInt8 := ofChar '/'

/-! ### C strings -/

/-- The string a C function sees in a buffer: the bytes before the first NUL. -/
def cString (buf : List UInt8) : List UInt8 := buf.takeWhile (· ≠ 0)

def strncmpEq (a b : List UInt8) (n : Nat) : Bool := (cString a).take n = (cString b).take n

theorem cString_append {s rest : List UInt8} (h : 0 ∉ s) : cString (s ++ 0 :: rest) = s := by
  have hs : ∀ b ∈ s, decide (b ≠ 0) = true := by
    intro b hb
    exact decide_eq_true fun h0 => h (h0 ▸ hb)
  rw [cString, takeWhile_append_of_pos hs, takeWhile_cons_of_neg (by decide), append_nil]

/-! ### Decimal numbers -/

def decimal (n : Nat) : List UInt8 := (Nat.toDigits 10 n).map ofChar

def isDigit (b : UInt8) : Bool := 48 ≤ b && b ≤ 57

/-- Go's loop over the digits. A byte that is no digit is an error (`none`); the loop
stops at the largest value when the number does not fit. -/
def parseUintLoop : List UInt8 → Nat → Option Nat
  | [], n => some n
  | b :: bs, n =>
    if ¬ isDigit b then none
    else if 2 ^ 64 / 10 + 1 ≤ n then some (2 ^ 64 - 1)
    else if 2 ^ 64 ≤ 10 * n + (b.toNat - 48) then some (2 ^ 64 - 1)
    else parseUintLoop bs (10 * n + (b.toNat - 48))

def parseUint (s : List UInt8) : Option Nat := if s = [] then none else parseUintLoop s 0

/-- The value only: where Go also returns an error it is 0 or the nearest number. -/
def parseInt (s : List UInt8) : Int :=
  let neg := s.head? = some (ofChar '-')
  let digits := if s.head? = some (ofChar '+') ∨ neg then s.tail else s
  match parseUint digits with
  | none => 0
  | some un =>
    if neg then (if 2 ^ 63 < un then -2 ^ 63 else -un)
    else (if 2 ^ 63 ≤ un then 2 ^ 63 - 1 else un)

/-- The errors of `strconv.Atoi`. -/
inductive AtoiError
  | invalid
  | outOfRange
  deriving DecidableEq, Repr

def atoi (s : List UInt8) : Except AtoiError Int :=
  let neg := s.head? = some (ofChar '-')
  let digits := if s.head? = some (ofChar '+') ∨ neg then s.tail else s
  match parseUint digits with
  | none => .error .invalid
  | some un =>
    if neg then (if 2 ^ 63 < un then .error .outOfRange else .ok (-un))
    else (if 2 ^ 63 ≤ un then .error .outOfRange else .ok un)

def isSpace (b : UInt8) : Bool := 9 ≤ b && b ≤ 13 || b == 32

/-- The exceptions of `std::stoi`. -/
inductive StoiError
  | invalidArgument
  | outOfRange
  deriving DecidableEq, Repr

def digitsValue (digits : List UInt8) : Nat :=
  digits.foldl (fun n b => 10 * n + (b.toNat - 48)) 0

/-- `std::stoi` where `int` has 32 bits: white space, a sign and digits; what follows is ignored. -/
def stoi (s : List UInt8) : Except StoiError Int :=
  let text := s.dropWhile isSpace
  let neg := text.head? = some (ofChar '-')
  let digits := (if text.head? = some (ofChar '+') ∨ neg then text.tail else text).takeWhile isDigit
  let n : Int := if neg then -digitsValue digits else digitsValue digits
  if digits = [] then .error .invalidArgument
  else if n < -2 ^ 31 ∨ 2 ^ 31 ≤ n then .error .outOfRange
  else .ok n

def signedDecimal : Int → List UInt8
  | .ofNat n => decimal n
  | .negSucc n => ofChar '-' :: decimal (n + 1)

def trimSpace (s : List UInt8) : List UInt8 :=
  ((s.dropWhile isSpace).reverse.dropWhile isSpace).reverse

section Decimal

variable {n : Nat} {b : UInt8} {c : Char}

theorem digit_toNat (h : c.isDigit) : 48 ≤ c.toNat ∧ c.toNat ≤ 57 := by
  simp only [Char.isDigit, Bool.and_eq_true, decide_eq_true_eq] at h
  exact ⟨UInt32.le_iff_toNat_le.mp h.1, UInt32.le_iff_toNat_le.mp h.2⟩

theorem ofChar_toNat (h : c.isDigit) : (ofChar c).toNat = c.toNat := by
  have := digit_toNat h
  rw [ofChar, UInt8.toNat_ofNat']
  omega

theorem isDigit_iff : isDigit b ↔ 48 ≤ b.toNat ∧ b.toNat ≤ 57 := by
  simp [isDigit, UInt8.le_iff_toNat_le]

theorem isDigit_ofChar (h : c.isDigit) : isDigit (ofChar c) := by
  rw [isDigit_iff, ofChar_toNat h]
  exact digit_toNat h

theorem isDigit_of_mem_decimal (h : b ∈ decimal n) : isDigit b := by
  obtain ⟨c, hc, rfl⟩ := mem_map.mp h
  exact isDigit_ofChar (Nat.isDigit_of_mem_toDigits (by decide) (by decide) hc)

theorem decimal_ne_nil : decimal n ≠ [] := by
  simp [decimal, Nat.toDigits_ne_nil]

theorem le_ofDigitChars (l : List Char) (init : Nat) : init ≤ Nat.ofDigitChars 10 l init := by
  induction l generalizing init with
  | nil => simp
  | cons c l ih =>
    rw [Nat.ofDigitChars_cons]
    have := ih (10 * init + (c.toNat - '0'.toNat))
    omega

theorem parseUintLoop_map (l : List Char) (init : Nat) (hl : ∀ c ∈ l, c.isDigit)
    (hlt : Nat.ofDigitChars 10 l init < 2 ^ 64) :
    parseUintLoop (l.map ofChar) init = some (Nat.ofDigitChars 10 l init) := by
  induction l generalizing init with
  | nil => simp [parseUintLoop]
  | cons c l ih =>
    rw [Nat.ofDigitChars_cons] at hlt ⊢
    have hc := hl c mem_cons_self
    change Nat.ofDigitChars 10 l (10 * init + (c.toNat - 48)) < 2 ^ 64 at hlt
    have hle := le_ofDigitChars l (10 * init + (c.toNat - 48))
    rw [map_cons, parseUintLoop, ofChar_toNat hc, if_neg (by simp [isDigit_ofChar hc]),
      if_neg (by omega), if_neg (by omega)]
    exact ih _ (fun d hd => hl d (mem_cons_of_mem _ hd)) hlt

theorem parseUint_decimal (h : n < 2 ^ 64) : parseUint (decimal n) = some n := by
  rw [parseUint, if_neg decimal_ne_nil, decimal, parseUintLoop_map]
  · rw [Nat.ofDigitChars_ten_toDigits]
  · exact fun c hc => Nat.isDigit_of_mem_toDigits (by decide) (by decide) hc
  · rwa [Nat.ofDigitChars_ten_toDigits]

theorem decimal_head_ne (hb : ¬ isDigit b) : (decimal n).head? ≠ some b :=
  fun h => hb (isDigit_of_mem_decimal (mem_of_head? h))

theorem parseInt_decimal (h : n < 2 ^ 63) : parseInt (decimal n) = n := by
  have hneg : (decimal n).head? ≠ some (ofChar '-') := decimal_head_ne (by decide)
  have hpos : (decimal n).head? ≠ some (ofChar '+') := decimal_head_ne (by decide)
  simp only [parseInt, hneg, hpos, or_self, if_false, parseUint_decimal (show n < 2 ^ 64 by omega)]
  rw [if_neg (by omega)]

theorem not_isSpace_of_isDigit (h : isDigit b) : ¬ isSpace b := by
  have := isDigit_iff.mp h
  simp only [isSpace, UInt8.le_iff_toNat_le, Bool.or_eq_true, Bool.and_eq_true, decide_eq_true_eq,
    beq_iff_eq, ← UInt8.toNat_inj, UInt8.reduceToNat]
  omega

theorem dropWhile_isSpace {s : List UInt8} (h : ∀ b ∈ s, isDigit b) : s.dropWhile isSpace = s := by
  cases s with
  | nil => rfl
  | cons b s =>
    exact dropWhile_cons_of_neg (not_isSpace_of_isDigit (h b mem_cons_self))

theorem digitsValue_decimal (n : Nat) : digitsValue (decimal n) = n := by
  have hfold : ∀ (l : List Char) (init : Nat), (∀ c ∈ l, c.isDigit) →
      (l.map ofChar).foldl (fun n b => 10 * n + (b.toNat - 48)) init =
        Nat.ofDigitChars 10 l init := by
    intro l
    induction l with
    | nil => simp
    | cons c l ih =>
      intro init hl
      rw [map_cons, foldl_cons, ofChar_toNat (hl c mem_cons_self), Nat.ofDigitChars_cons]
      exact ih _ fun d hd => hl d (mem_cons_of_mem _ hd)
  rw [digitsValue, decimal, hfold _ _ fun c hc =>
    Nat.isDigit_of_mem_toDigits (by decide) (by decide) hc, Nat.ofDigitChars_ten_toDigits]

theorem stoi_decimal (h : n < 2 ^ 31) : stoi (decimal n) = .ok n := by
  have htext : (decimal n).dropWhile isSpace = decimal n :=
    dropWhile_isSpace fun b hb => isDigit_of_mem_decimal hb
  have hneg : (decimal n).head? ≠ some (ofChar '-') := decimal_head_ne (by decide)
  have hpos : (decimal n).head? ≠ some (ofChar '+') := decimal_head_ne (by decide)
  have hdigits : (decimal n).takeWhile isDigit = decimal n := by
    rw [takeWhile_eq_self_iff]
    exact fun b hb => isDigit_of_mem_decimal hb
  simp only [stoi, htext, hneg, hpos, or_self, if_false, hdigits, decimal_ne_nil,
    digitsValue_decimal]
  rw [if_neg (by omega)]

theorem trimSpace_decimal : trimSpace (decimal n ++ [newline]) = decimal n := by
  have hfront : (decimal n ++ [newline]).dropWhile isSpace = decimal n ++ [newline] := by
    obtain ⟨b, s, hs⟩ := exists_cons_of_ne_nil (decimal_ne_nil (n := n))
    rw [hs, cons_append]
    have hb : b ∈ decimal n := hs ▸ mem_cons_self
    exact dropWhile_cons_of_neg (not_isSpace_of_isDigit (isDigit_of_mem_decimal hb))
  have hback : (decimal n).reverse.dropWhile isSpace = (decimal n).reverse :=
    dropWhile_isSpace fun b hb => isDigit_of_mem_decimal (mem_reverse.mp hb)
  rw [trimSpace, hfront, reverse_append, reverse_singleton, singleton_append,
    dropWhile_cons_of_pos (by decide), hback, reverse_reverse]

theorem newline_not_mem_decimal : newline ∉ decimal n :=
  fun h => absurd (isDigit_of_mem_decimal h) (by decide)

end Decimal

/-! ### Lines -/

/-- The bytes up to the first newline, which is included, and those behind it. -/
def splitLine (buf : List UInt8) : List UInt8 × List UInt8 :=
  (buf.takeWhile (· ≠ newline) ++ [newline], (buf.dropWhile (· ≠ newline)).tail)

theorem splitLine_append {line rest : List UInt8} (h : newline ∉ line) :
    splitLine (line ++ newline :: rest) = (line ++ [newline], rest) := by
  have hl : ∀ b ∈ line, decide (b ≠ newline) = true := by
    intro b hb
    exact decide_eq_true fun heq => h (heq ▸ hb)
  rw [splitLine, takeWhile_append_of_pos hl, dropWhile_append_of_pos hl]
  simp

theorem splitLine_of_append {before buf after line rest : List UInt8} (hbefore : newline ∉ before)
    (hbuf : newline ∈ buf) (hline : newline ∉ line)
    (heq : before ++ buf ++ after = line ++ newline :: rest) :
    before ++ (splitLine buf).1 = line ++ [newline] ∧ (splitLine buf).2 ++ after = rest := by
  obtain ⟨l, r, rfl, hl⟩ := eq_append_cons_of_mem hbuf
  rw [splitLine_append hl]
  have h : (before ++ l) ++ newline :: (r ++ after) = line ++ newline :: rest := by
    simpa using heq
  have hnot : newline ∉ before ++ l := by
    simp [hbefore, hl]
  have hsplit := congrArg splitLine h
  rw [splitLine_append hnot, splitLine_append hline] at hsplit
  exact ⟨by rw [← append_assoc, (Prod.mk.inj hsplit).1], (Prod.mk.inj hsplit).2⟩

end LinuxWorkouts.Ascii
