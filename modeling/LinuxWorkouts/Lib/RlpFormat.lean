import Mathlib

/-!
The recursive length prefix format.

An item is a byte string or a list of items. A byte below `0x80` is its own encoding; every other
string and every list has a header with its length in front. `pieces` are the strings and the list
headers of an item in the order they are written (`encode_eq_flatMap`), so that what reads an
encoding from left to right is studied by induction on a list.
-/

namespace LinuxWorkouts.RlpFormat

open List

inductive Item where
  | string (bytes : List UInt8)
  | list (items : List Item)

/-- A length in as few bytes as it needs, the most significant first. -/
def lengthBytes (n : Nat) : List UInt8 := (Nat.digits 256 n).reverse.map UInt8.ofNat

/-- The header for a payload of `n` bytes: one byte up to 55, and otherwise the number of length
bytes followed by them. -/
def header (base n : Nat) : List UInt8 :=
  if n ≤ 55 then [UInt8.ofNat (base + n)]
  else UInt8.ofNat (base + 55 + (lengthBytes n).length) :: lengthBytes n

def isSingle : List UInt8 → Bool
  | [b] => b.toNat < 0x80
  | _ => false

def encodeString (bytes : List UInt8) : List UInt8 :=
  if isSingle bytes then bytes else header 0x80 bytes.length ++ bytes

mutual

def encode : Item → List UInt8
  | .string bytes => encodeString bytes
  | .list items => header 0xc0 (encodeAll items).length ++ encodeAll items

def encodeAll : List Item → List UInt8
  | [] => []
  | item :: items => encode item ++ encodeAll items

end

/-! ### What an encoding is made of -/

inductive Piece where
  | listHeader (payload : Nat)
  | string (bytes : List UInt8)

def Piece.bytes : Piece → List UInt8
  | .listHeader payload => header 0xc0 payload
  | .string bytes => encodeString bytes

mutual

/-- The list headers and strings of an item, in the order they are written. -/
def pieces : Item → List Piece
  | .string bytes => [.string bytes]
  | .list items => .listHeader (encodeAll items).length :: piecesAll items

def piecesAll : List Item → List Piece
  | [] => []
  | item :: items => pieces item ++ piecesAll items

end

mutual

theorem encode_eq_flatMap : ∀ item : Item, encode item = (pieces item).flatMap Piece.bytes
  | .string bytes => by
      rw [encode, pieces, flatMap_singleton, Piece.bytes]
  | .list items => by
      rw [encode, pieces, flatMap_cons, Piece.bytes, ← encodeAll_eq_flatMap items]

theorem encodeAll_eq_flatMap :
    ∀ items : List Item, encodeAll items = (piecesAll items).flatMap Piece.bytes
  | [] => by rw [encodeAll, piecesAll, flatMap_nil]
  | item :: items => by
      rw [encodeAll, piecesAll, flatMap_append, encode_eq_flatMap item, encodeAll_eq_flatMap items]

end

theorem lengthBytes_pos {n : Nat} (h : 0 < n) : 0 < (lengthBytes n).length := by
  rw [lengthBytes, length_map, length_reverse]
  exact length_pos_of_ne_nil (Nat.digits_ne_nil_iff_ne_zero.mpr h.ne')

theorem length_lengthBytes_le {n k : Nat} (h : n < 256 ^ k) : (lengthBytes n).length ≤ k := by
  rw [lengthBytes, length_map, length_reverse]
  exact (Nat.digits_length_le_iff (by norm_num) n).mpr h

end LinuxWorkouts.RlpFormat
