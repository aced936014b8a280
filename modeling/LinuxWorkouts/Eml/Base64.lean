import LinuxWorkouts.Lib.Ascii
import LinuxWorkouts.Lib.StdString

/-!
The base64 decoders of the mail parser (`base64_to_bytes.cpp`).

`decoding_table` is allocated without being cleared and indexed with a signed `char`, so a byte
outside the alphabet reads memory that the program never wrote. The loops count in `int`, which
overflows on a text of 2^31 characters. What comes of either is `Junk`, a parameter of everything
that decodes.
-/

namespace LinuxWorkouts.Eml

open Ascii StdString

/-- Memory that is read and was never written: the bytes at and around `decoding_table`, the two
bytes in front of an empty string, and the `temp` of `url_decode`; and what the two decoders return
for a text on which their counters overflow. -/
structure Junk where
  table : Int → UInt8
  before : UInt8 × UInt8
  temp : Int
  stringOverflow : List UInt8 → List UInt8
  bytesOverflow : List UInt8 → List UInt8

def Junk.clear : Junk := ⟨fun _ => 0, (0, 0), 0, fun _ => [], fun _ => []⟩

def encodingTable : List UInt8 :=
  ascii "ABCDEFGHIJKLMNOPQRSTUVWXYZabcdefghijklmnopqrstuvwxyz0123456789+/"

/-- The entries that `build_decoding_table` writes, over what was there before. -/
def buildDecodingTable (table : Int → UInt8) (i : Int) : UInt8 :=
  match encodingTable.findIdx? fun c => (c.toNat : Int) = i with
  | some k => UInt8.ofNat k
  | none => table i

/-- The value of one character: `char` is signed, as an index and as an entry. -/
def sextet (junk : Junk) (c : UInt8) : UInt32 :=
  if c = ofChar '=' then 0
  else UInt32.ofInt (buildDecodingTable junk.table c.toInt8.toInt).toInt8.toInt

def triple (junk : Junk) (a b c d : UInt8) : UInt32 :=
  (sextet junk a <<< 18) + (sextet junk b <<< 12) + (sextet junk c <<< 6) + sextet junk d

/-- `data[input_length - n]`, where an empty string is read in front of its first byte. -/
def fromEnd (junk : Junk) (data : List UInt8) (n : Nat) : UInt8 :=
  match data.reverse[n - 1]? with
  | some c => c
  | none => if n = 1 then junk.before.1 else junk.before.2

def padding (junk : Junk) (data : List UInt8) : Nat :=
  (if fromEnd junk data 1 = ofChar '=' then 1 else 0) +
    (if fromEnd junk data 2 = ofChar '=' then 1 else 0)

/-- The loop of `base64_decode_to_string`; `j` counts every byte, also one that is left out. -/
def stringLoop (junk : Junk) (outputLength : Nat) : List UInt8 → Nat → List UInt8
  | a :: b :: c :: d :: rest, j =>
    let t := triple junk a b c d
    (if j < outputLength then [(t >>> 16).toUInt8] else []) ++
      (if j + 1 < outputLength then [(t >>> 8).toUInt8] else []) ++
      (if j + 2 < outputLength then [t.toUInt8] else []) ++
      stringLoop junk outputLength rest (j + 3)
  | _, _ => []

/-- `none` is the `std::length_error` of `reserve` when the length has wrapped. -/
def base64DecodeToString (junk : Junk) (data : List UInt8) : Option (List UInt8) :=
  if data.length % 4 ≠ 0 then some []
  else
    let full := data.length / 4 * 3
    if full < padding junk data then none
    else if data.length < 2 ^ 31 then some (stringLoop junk (full - padding junk data) data 0)
    else some (junk.stringOverflow data)

/-- The loop of `base64_decode_to_bytes`; `j` counts the bytes that are stored. -/
def bytesLoop (junk : Junk) (outputLength : Nat) : List UInt8 → List UInt8 → List UInt8
  | a :: b :: c :: d :: rest, decoded =>
    let t := triple junk a b c d
    let store (decoded : List UInt8) (x : UInt8) :=
      if decoded.length < outputLength then decoded ++ [x] else decoded
    bytesLoop junk outputLength rest
      (store (store (store decoded (t >>> 16).toUInt8) (t >>> 8).toUInt8) t.toUInt8)
  | _, decoded => decoded ++ List.replicate (outputLength - decoded.length) 0

/-- `none` is the exception of the vector's constructor when the length has wrapped. -/
def base64DecodeToBytes (junk : Junk) (data : List UInt8) : Option (List UInt8) :=
  if data.length % 4 ≠ 0 then some []
  else
    let full := data.length / 4 * 3
    if full < padding junk data then none
    else if data.length < 2 ^ 31 then some (bytesLoop junk (full - padding junk data) data [])
    else some (junk.bytesOverflow data)

theorem base64DecodeToString_isSome (junk : Junk) {data : List UInt8} (h : data ≠ []) :
    (base64DecodeToString junk data).isSome := by
  rw [base64DecodeToString]
  split
  · rfl
  · next hlen =>
      have hpos : 0 < data.length := List.length_pos_of_ne_nil h
      have hpad : padding junk data ≤ 2 := by
        rw [padding]
        split <;> split <;> omega
      rw [if_neg (by omega)]
      split <;> rfl

end LinuxWorkouts.Eml
