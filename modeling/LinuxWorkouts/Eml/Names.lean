import LinuxWorkouts.Eml.Base64
import LinuxWorkouts.Eml.Charset
import LinuxWorkouts.Eml.Patterns

/-!
The names of attachments: how a name is cut out of its header line and how an encoded name is
decoded (`get_attachments.cpp`).
-/

namespace LinuxWorkouts.Eml

open Ascii StdString List

/-! ### Cutting out -/

def delQuotesIfNeeded (str : List UInt8) : Except Fault (List UInt8) := do
  let first ← charAt str 0
  let str := if first = quote then str.drop 1 else str
  let last ← back str
  .ok (if last = quote then str.dropLast else str)

def getBoundaryVal (line : List UInt8) : Except Fault (List UInt8) :=
  let startPos := find line (ofChar '=') 0
  let offset := sizeSub line.length (past startPos 3)
  substr line (past startPos 2) offset

def getFilenameVal (line : List UInt8) : Except Fault (List UInt8) := do
  let startPos := find line (ofChar '=') 0
  let offset := sizeSub line.length (past startPos 1)
  let last ← back line
  let offset := if last = ofChar ';' then sizeSub offset 1 else offset
  let res ← substr line (past startPos 1) offset
  delQuotesIfNeeded res

/-! ### Encoded names -/

def splitLine (separators : List UInt8) : List UInt8 → List UInt8 → List (List UInt8)
  | [], val => if val ≠ [] then [val] else []
  | c :: line, val =>
    if c ∉ separators then splitLine separators line (val ++ [c])
    else (if val ≠ [] then [val] else []) ++ splitLine separators line []

theorem mem_of_mem_splitLine {separators line val token : List UInt8} {c : UInt8}
    (hp : token ∈ splitLine separators line val) (hc : c ∈ token) : c ∈ val ++ line := by
  induction line generalizing val with
  | nil =>
    rw [splitLine] at hp
    split at hp
    · rw [mem_singleton.mp hp] at hc
      exact mem_append_left _ hc
    · cases hp
  | cons d line ih =>
    rw [splitLine] at hp
    split at hp
    · have hmem := ih hp
      rw [append_assoc] at hmem
      exact hmem
    · rcases mem_append.mp hp with hp | hp
      · split at hp
        · rw [mem_singleton.mp hp] at hc
          exact mem_append_left _ hc
        · cases hp
      · have hmem := ih hp
        exact mem_append_right _ (mem_cons_of_mem d hmem)

def getEncodedLineTokens (line : List UInt8) (separator : UInt8) :
    Except Fault (List UInt8 × List UInt8 × List UInt8) :=
  match find line separator 0 with
  | none => .ok ([], [], line)
  | some first => do
      let second := find line separator (first + 1)
      let res0 ← substr line 0 first
      let res1 ← substr line (first + 1) (upTo second (first + 1))
      let res2 ← substr line (past second 1) line.length
      .ok (res0, res1, res2)

def getDecodedTextRfc2047 (junk : Junk) (token : List UInt8) : Except Fault (List UInt8) := do
  let preparedToken ← substr token 2 (sizeSub token.length 4)
  let (charset, encoding, encodedtext) ← getEncodedLineTokens preparedToken (ofChar '?')
  if encoding = ascii "B" ∨ encoding = ascii "b" then
    .ok (rawBytesToUtf8 ((base64DecodeToBytes junk encodedtext).getD []) charset)
  else if encoding = ascii "Q" ∨ encoding = ascii "q" then
    .ok (quotedPrintable charset encodedtext)
  else .ok []

/-- The tokens of an encoded name. -/
def nameTokens (str : List UInt8) : List (List UInt8) :=
  splitLine [ofChar ' ', 10, 13, 9] str []

/-- One round of the loop of `parse_rfc2047`. -/
def appendDecoded (junk : Junk) (filename token : List UInt8) : Except Fault (List UInt8) :=
  if rfc2047 token then do
    let text ← getDecodedTextRfc2047 junk token
    .ok (filename ++ text)
  else .ok filename

def parseRfc2047 (junk : Junk) (str : List UInt8) : Except Fault (List UInt8) :=
  (nameTokens str).foldlM (appendDecoded junk) []

def hexDigit (c : UInt8) : Option Nat :=
  if isHexChar (toUpper c) then some (getDecimalDigitFromHexChar (toUpper c)).toNat else none

/-- `sscanf(s, "%lx", &temp)`: blanks, a sign and `0x` may come first; without a digit `temp` keeps
its value. -/
def scanHex (s : List UInt8) (temp : Int) : Int :=
  let s := (cString s).dropWhile isSpace
  let negative := s.head? = some (ofChar '-')
  let s := if negative ∨ s.head? = some (ofChar '+') then s.tail else s
  let s := if s.take 2 = ascii "0x" ∨ s.take 2 = ascii "0X" then ofChar '0' :: s.drop 2 else s
  let digits := (s.takeWhile fun c => (hexDigit c).isSome).filterMap hexDigit
  if digits = [] then temp
  else
    let value : Int := digits.foldl (fun n d => 16 * n + d) 0
    if negative then -value else value

/-- The loop of `url_decode`. -/
def urlDecode : Int → List UInt8 → List UInt8
  | _, [] => []
  | temp, [c] => if c = ofChar '%' then [UInt8.ofInt (scanHex [] temp)] else [c]
  | temp, [c, x] =>
    if c = ofChar '%' then [UInt8.ofInt (scanHex [x] temp)] else c :: urlDecode temp [x]
  | temp, c :: x :: y :: rest =>
    if c = ofChar '%' then
      UInt8.ofInt (scanHex [x, y] temp) :: urlDecode (scanHex [x, y] temp) rest
    else c :: urlDecode temp (x :: y :: rest)

def getDecodedTextRfc2231 (junk : Junk) (token : List UInt8) : Except Fault (List UInt8) := do
  let (_, _, encodedtext) ← getEncodedLineTokens token apostrophe
  .ok (urlDecode junk.temp encodedtext)

inductive EncodeResult where
  | unknown
  | rfc2047
  | rfc2231
deriving DecidableEq, Repr

def checkEncoding (str : List UInt8) : EncodeResult :=
  if hint2047 str then .rfc2047 else if hint2231 str then .rfc2231 else .unknown

/-- The decoding at the end of an attachment. -/
def decodeName (junk : Junk) (attachFilename : List UInt8) : Except Fault (List UInt8) :=
  match checkEncoding attachFilename with
  | .rfc2047 => parseRfc2047 junk attachFilename
  | .rfc2231 => getDecodedTextRfc2231 junk attachFilename
  | .unknown => .ok attachFilename

end LinuxWorkouts.Eml
