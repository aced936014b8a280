import LinuxWorkouts.Lib.Ascii
import LinuxWorkouts.Lib.StdString

/-!
The character sets and the quoted-printable decoder of the mail parser (`charset_decoder.cpp`,
`base16.cpp`).
-/

namespace LinuxWorkouts.Eml

open Ascii StdString

/-! ### Character sets -/

def OFFSET : UInt8 := 128
def FIRSTBYTE : UInt8 := 208

structure CharsetOffset where
  first : UInt8
  second : UInt8

def iso88595 : CharsetOffset := ⟨32, 64⟩
def win1251 : CharsetOffset := ⟨48, 64⟩

def utf8Table : List (UInt8 × UInt8 × UInt8) :=
  [
   (226, 148, 128), (226, 148, 130), (226, 148, 140), (226, 148, 144),
   (226, 148, 148), (226, 148, 152), (226, 148, 156), (226, 148, 164),
   (226, 148, 172), (226, 148, 180), (226, 148, 188), (226, 150, 128),
   (226, 150, 132), (226, 150, 136), (226, 150, 140), (226, 150, 144),
   (226, 150, 145), (226, 150, 146), (226, 150, 147), (226, 140, 160),
   (226, 150, 160), (226, 136, 153), (226, 136, 154), (226, 137, 136),
   (226, 137, 164), (226, 137, 165), (194, 160, 0), (226, 140, 161),
   (194, 176, 0), (194, 178, 0), (194, 183, 0), (195, 183, 0),
   (226, 149, 144), (226, 149, 145), (226, 149, 146), (209, 145, 0),
   (226, 149, 147), (226, 149, 148), (226, 149, 149), (226, 149, 150),
   (226, 149, 151), (226, 149, 152), (226, 149, 153), (226, 149, 154),
   (226, 149, 155), (226, 149, 156), (226, 149, 157), (226, 149, 158),
   (226, 149, 159), (226, 149, 160), (226, 149, 161), (208, 129, 0),
   (226, 149, 162), (226, 149, 163), (226, 149, 164), (226, 149, 165),
   (226, 149, 166), (226, 149, 167), (226, 149, 168), (226, 149, 169),
   (226, 149, 170), (226, 149, 171), (226, 149, 172), (194, 169, 0),
   (209, 142, 0), (208, 176, 0), (208, 177, 0), (209, 134, 0),
   (208, 180, 0), (208, 181, 0), (209, 132, 0), (208, 179, 0),
   (209, 133, 0), (208, 184, 0), (208, 185, 0), (208, 186, 0),
   (208, 187, 0), (208, 188, 0), (208, 189, 0), (208, 190, 0),
   (208, 191, 0), (209, 143, 0), (209, 128, 0), (209, 129, 0),
   (209, 130, 0), (209, 131, 0), (208, 182, 0), (208, 178, 0),
   (209, 140, 0), (209, 139, 0), (208, 183, 0), (209, 136, 0),
   (209, 141, 0), (209, 137, 0), (209, 135, 0), (209, 138, 0),
   (208, 174, 0), (208, 144, 0), (208, 145, 0), (208, 166, 0),
   (208, 148, 0), (208, 149, 0), (208, 164, 0), (208, 147, 0),
   (208, 165, 0), (208, 152, 0), (208, 153, 0), (208, 154, 0),
   (208, 155, 0), (208, 156, 0), (208, 157, 0), (208, 158, 0),
   (208, 159, 0), (208, 175, 0), (208, 160, 0), (208, 161, 0),
   (208, 162, 0), (208, 163, 0), (208, 150, 0), (208, 146, 0),
   (208, 172, 0), (208, 171, 0), (208, 151, 0), (208, 168, 0),
   (208, 173, 0), (208, 169, 0), (208, 167, 0), (208, 170, 0)]

def win1251ByteToUtf8 (offset : CharsetOffset) (b : UInt8) : List UInt8 :=
  if b < 127 then [b]
  else if 192 ≤ b ∧ b ≤ 239 then [FIRSTBYTE, b - offset.first]
  else if 239 < b ∧ b ≤ 255 then [FIRSTBYTE + 1, b - (offset.first + offset.second)]
  else if b = 168 then [FIRSTBYTE, b - offset.first]
  else if b = 184 then [FIRSTBYTE + 1, b - (offset.first + offset.second)]
  else []

def iso88595ByteToUtf8 (offset : CharsetOffset) (b : UInt8) : List UInt8 :=
  if b < 176 then (if b = 161 then [FIRSTBYTE, b - offset.first] else [b])
  else if 176 ≤ b ∧ b ≤ 223 then [FIRSTBYTE, b - offset.first]
  else if (223 < b ∧ b ≤ 239) ∨ b = 241 then [FIRSTBYTE + 1, b - (offset.first + offset.second)]
  else []

def koi8rByteToUtf8 (b : UInt8) : List UInt8 :=
  if b < OFFSET then [b]
  else
    match utf8Table[(b + OFFSET).toNat]? with
    | some row => [row.1, row.2.1]
    | none => []

def rawBytesToUtf8 (bytes charset : List UInt8) : List UInt8 :=
  if bytes = [] then []
  else if charset = [] then []
  else if charset = ascii "ISO-8859-5" then bytes.flatMap (iso88595ByteToUtf8 iso88595)
  else if charset = ascii "Windows-1251" ∨ charset = ascii "Win-1251" ∨ charset = ascii "win-1251" ∨
      charset = ascii "windows-1251" then bytes.flatMap (win1251ByteToUtf8 win1251)
  else if charset = ascii "KOI-8R" ∨ charset = ascii "koi8-r" then bytes.flatMap koi8rByteToUtf8
  else bytes

def byteToUtf8 (charset : List UInt8) : UInt8 → List UInt8 :=
  if charset = ascii "ISO-8859-5" then iso88595ByteToUtf8 iso88595
  else if charset = ascii "Windows-1251" ∨ charset = ascii "Win-1251" ∨ charset = ascii "win-1251" ∨
      charset = ascii "windows-1251" then win1251ByteToUtf8 win1251
  else if charset = ascii "KOI-8R" ∨ charset = ascii "koi8-r" then koi8rByteToUtf8
  else fun b => [b]

theorem rawBytesToUtf8_eq (bytes : List UInt8) {charset : List UInt8} (hcharset : charset ≠ []) :
    rawBytesToUtf8 bytes charset = bytes.flatMap (byteToUtf8 charset) := by
  rw [rawBytesToUtf8, if_neg hcharset, byteToUtf8]
  split
  · next hbytes => rw [hbytes, List.flatMap_nil]
  · split_ifs
    · rfl
    · rfl
    · rfl
    · rw [List.flatMap_singleton']

/-! ### Quoted-printable -/

def isHexChar (c : UInt8) : Bool :=
  (ofChar 'A' ≤ c && c ≤ ofChar 'F') || (ofChar '0' ≤ c && c ≤ ofChar '9')

def getDecimalDigitFromHexChar (c : UInt8) : Int :=
  if ¬ isHexChar c then -1
  else if c ≤ ofChar '9' then c.toNat - (ofChar '0').toNat
  else c.toNat - (ofChar 'A').toNat + 10

def toUpper (c : UInt8) : UInt8 := if ofChar 'a' ≤ c ∧ c ≤ ofChar 'z' then c - 32 else c

def hexToDecimal (hexNum : List UInt8) : Int :=
  (hexNum.reverse.zipIdx.map fun d => 16 ^ d.2 * getDecimalDigitFromHexChar (toUpper d.1)).sum

/-- One `=` with the two characters behind it, of which there may be fewer. -/
def decodeHexToken (hexToken charset : List UInt8) : List UInt8 :=
  rawBytesToUtf8 [UInt8.ofInt (hexToDecimal hexToken)] charset

/-- Behind `=`, two characters are skipped if the first is a digit in upper case, else one. -/
def quotedPrintable (charset : List UInt8) : List UInt8 → List UInt8
  | [] => []
  | [c] => if c = ofChar '=' then decodeHexToken [] charset else [c]
  | [c, x] =>
    if c = ofChar '=' then decodeHexToken [x] charset else c :: quotedPrintable charset [x]
  | c :: x :: y :: rest =>
    if c = ofChar '=' then
      decodeHexToken [x, y] charset ++
        (if isHexChar x then quotedPrintable charset rest else quotedPrintable charset (y :: rest))
    else c :: quotedPrintable charset (x :: y :: rest)

end LinuxWorkouts.Eml
