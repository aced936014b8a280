import LinuxWorkouts.Lib.StdString

/-!
The tokens of an encoding in `c++/RTL.cpp`.

`init_tokens` reads the first byte of a hexadecimal text, takes the header and the data it announces
as a token and calls itself with the rest. The numbers are as the code computes them: `int64_t` for
what is read from the digits, where a character that is no digit counts as -1, and `size_t` for
lengths and positions.
-/

namespace LinuxWorkouts.Rlp

open StdString

inductive EncodingType where
  | single
  | short
  | medium
  | list
  | longList
  deriving DecidableEq, Repr

structure LenInfo where
  dataLen : Nat
  headerLen : Nat
  deriving DecidableEq, Repr

structure EncodingTypeDesc where
  type : EncodingType
  firstByte : Int
  firstByteHex : List UInt8
  deriving DecidableEq, Repr

structure RLPEncodeState where
  lenInfo : LenInfo
  encodingDesc : EncodingTypeDesc
  hexStr : List UInt8
  deriving DecidableEq, Repr

def sizeT (n : Int) : Nat := (n % 2 ^ 64).toNat

/-! ### Numbers -/

def isHexChar (c : UInt8) : Bool := 65 ≤ c && c ≤ 70 || 48 ≤ c && c ≤ 57

/-- The `switch` of `get_decimal_digit_from_hex_char` over the digits and the letters. -/
def getDecimalDigitFromHexChar (c : UInt8) : Int :=
  if isHexChar c then
    if c ≤ 57 then c.toNat - 48 else c.toNat - 55
  else -1

def toupper (c : UInt8) : UInt8 := if 97 ≤ c && c ≤ 122 then c - 32 else c

/-- The loop of `hex_to_decimal`, over the characters from the last one on. -/
def hexToDecimalLoop : List UInt8 → Nat → Int → Int
  | [], _, resNum => resNum
  | c :: cs, power, resNum =>
    hexToDecimalLoop cs (power + 1)
      (resNum + 16 ^ power * getDecimalDigitFromHexChar (toupper c))

/-- `hex_to_decimal`. From 16 digits on the conversion of the power is undefined; the code gets
there only for list lengths, which it does not use. -/
def hexToDecimal (hexNum : List UInt8) : Int := hexToDecimalLoop hexNum.reverse 0 0

/-! ### Headers -/

/-- The type that the first byte announces. -/
def encodingType (byte : Int) : EncodingType :=
  if 0x00 ≤ byte ∧ byte ≤ 0x7f then .single
  else if 0x80 ≤ byte ∧ byte ≤ 0xb7 then .short
  else if 0xb8 ≤ byte ∧ byte ≤ 0xbf then .medium
  else if 0xc0 ≤ byte ∧ byte ≤ 0xf7 then .list
  else .longList

def getEncodingDesc (hexByte : List UInt8) : EncodingTypeDesc where
  type := encodingType (hexToDecimal hexByte)
  firstByte := hexToDecimal hexByte
  firstByteHex := hexByte

/-- The length of a long string or list, as the code reads it: for one length byte from the first
byte, and otherwise from as many digits as there are length bytes. -/
def readLongLength (hexStr : List UInt8) (lenOfLen : Nat) : Except Fault Nat :=
  if lenOfLen = 1 then (substr hexStr 0 2).map fun digits => sizeT (hexToDecimal digits)
  else (substr hexStr 2 lenOfLen).map fun digits => sizeT (hexToDecimal digits)

def longLenInfo (hexStr : List UInt8) (lenOfLen : Nat) : Except Fault LenInfo :=
  (readLongLength hexStr lenOfLen).map fun dataLen => ⟨dataLen, sizeT (lenOfLen + 1)⟩

def getLenInfo (hexStr : List UInt8) (desc : EncodingTypeDesc) : Except Fault LenInfo :=
  match desc.type with
  | .single => .ok ⟨1, 1⟩
  | .short => .ok ⟨sizeT (desc.firstByte - 0x80), 1⟩
  | .medium => longLenInfo hexStr (sizeT (desc.firstByte - 0xb7))
  | .list => .ok ⟨sizeT (desc.firstByte - 0xc0), 1⟩
  | .longList => longLenInfo hexStr (sizeT (desc.firstByte - 0xf7))

/-! ### Tokens -/

abbrev Token := List UInt8 × List UInt8

def byteToHexLen (lenInBytes : Nat) : Nat := sizeT (2 * lenInBytes)

def tokenEnd (info : LenInfo) : Nat := byteToHexLen (sizeT (info.dataLen + info.headerLen))

def getHeadKeyToken (state : RLPEncodeState) : List UInt8 :=
  if byteToHexLen state.lenInfo.headerLen > state.hexStr.length then []
  else state.hexStr.take (byteToHexLen state.lenInfo.headerLen)

def getKeyValue (state : RLPEncodeState) : Except Fault Token :=
  if state.encodingDesc.type = .single then
    (substr state.hexStr 0 (byteToHexLen state.lenInfo.dataLen)).map fun value => ([], value)
  else
    (substr state.hexStr 0 (byteToHexLen state.lenInfo.headerLen)).bind fun key =>
      (substr state.hexStr (byteToHexLen state.lenInfo.headerLen)
        (byteToHexLen state.lenInfo.dataLen)).map fun value => (key, value)

def hasNextToken (state : RLPEncodeState) : Bool :=
  tokenEnd state.lenInfo < state.hexStr.length

def getNextToken (state : RLPEncodeState) : List UInt8 :=
  if tokenEnd state.lenInfo > state.hexStr.length then []
  else state.hexStr.drop (tokenEnd state.lenInfo)

/-- The state of one call of `init_tokens` with a text that is not empty. -/
def currentState (hexStr : List UInt8) : Except Fault RLPEncodeState :=
  (substr hexStr 0 2).bind fun firstByteHex =>
    (getLenInfo hexStr (getEncodingDesc firstByteHex)).map fun lenInfo =>
      ⟨lenInfo, getEncodingDesc firstByteHex, hexStr⟩

/-- What one call adds to the tokens, and the text it calls itself with, if it does. -/
def tokenStep (hexStr : List UInt8) : Except Fault (Token × Option (List UInt8)) :=
  (currentState hexStr).bind fun state =>
    if state.encodingDesc.type = .list ∨ state.encodingDesc.type = .longList then
      .ok ((getHeadKeyToken state, []),
        some (hexStr.drop (byteToHexLen state.lenInfo.headerLen)))
    else
      (getKeyValue state).map fun token =>
        (token, if hasNextToken state then some (getNextToken state) else none)

/-- `init_tokens` with at most `depth` nested calls: the tokens it adds, or the exception that ends
it. The text is passed by value here; its caller does not use it again. -/
def initTokens : Nat → List UInt8 → Option (Except Fault (List Token))
  | 0, _ => none
  | depth + 1, hexStr =>
    if hexStr = [] then some (.ok [])
    else
      match tokenStep hexStr with
      | .error fault => some (.error fault)
      | .ok (token, none) => some (.ok [token])
      | .ok (token, some rest) => (initTokens depth rest).map (Except.map (token :: ·))

def concatTokens (tokens : List Token) : List UInt8 :=
  tokens.flatMap fun token => token.1 ++ token.2

end LinuxWorkouts.Rlp
