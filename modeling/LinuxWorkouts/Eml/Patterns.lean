import LinuxWorkouts.Lib.Ascii
import LinuxWorkouts.Lib.Search

/-!
The patterns by which the mail parser knows its lines (`get_attachments.hpp`, the structures at the
top of `get_attachments.cpp`).

Each regular expression is given as the language it denotes and as the test that the model of
the parser runs; the `_iff` lemmas say that the test answers the search. In a string literal `\?` is
just `?`, so the patterns for encoded names have optional parts where an escaped question mark was
meant, and any `=` matches them.
-/

namespace LinuxWorkouts.Eml

open Ascii Search
open scoped Computability

def quote : UInt8 := 34

def apostrophe : UInt8 := 39

def dot (c : UInt8) : Bool := c != 10 && c != 13

def word (s : String) : Language UInt8 := {ascii s}

def toLower (c : UInt8) : UInt8 := if ofChar 'A' ≤ c ∧ c ≤ ofChar 'Z' then c + 32 else c

def icase (p : Language UInt8) : Language UInt8 := {w | w.map toLower ∈ p}

def contains (line : List UInt8) (s : String) : Bool := decide (ascii s <:+: line)

variable {line s : List UInt8}

theorem contains_iff {s : String} : contains line s ↔ Occurs (word s) line := by
  rw [contains, decide_eq_true_eq, word, occurs_singleton]

theorem occurs_icase {p : Language UInt8} :
    Occurs (icase p) line ↔ Occurs p (line.map toLower) := by
  constructor
  · rintro ⟨m, hm, hs⟩
    exact ⟨m.map toLower, hm, hs.map toLower⟩
  · rintro ⟨m, hm, l, r, h⟩
    obtain ⟨lm, r', hline, hlm, -⟩ := List.map_eq_append_iff.mp h.symm
    obtain ⟨l', m', rfl, -, rfl⟩ := List.map_eq_append_iff.mp hlm
    exact ⟨m', hm, l', r', hline.symm⟩

/-! ### The lines of a mail -/

/-- `boundary="*` -/
def BOUNDARY_PATTERN : Language UInt8 := word "boundary=" * (word "\"")∗

def boundPattern (line : List UInt8) : Bool := contains line "boundary="

theorem boundPattern_iff : boundPattern line ↔ Occurs BOUNDARY_PATTERN line := by
  rw [boundPattern, contains_iff, BOUNDARY_PATTERN, occurs_mul_right (Language.nil_mem_kstar _)]

/-- `Content-Disposition: attachment*` -/
def ATTACH_PATTERN : Language UInt8 := word "Content-Disposition: attachmen" * (word "t")∗

def attachPattern (line : List UInt8) : Bool := contains line "Content-Disposition: attachmen"

theorem attachPattern_iff : attachPattern line ↔ Occurs ATTACH_PATTERN line := by
  rw [attachPattern, contains_iff, ATTACH_PATTERN, occurs_mul_right (Language.nil_mem_kstar _)]

/-- `filename*|FileName*|FILENAME*` -/
def FILENAME_PATTERN : Language UInt8 :=
  word "filenam" * (word "e")∗ + word "FileNam" * (word "e")∗ + word "FILENAM" * (word "E")∗

def filenamePattern (line : List UInt8) : Bool :=
  contains line "filenam" || contains line "FileNam" || contains line "FILENAM"

theorem filenamePattern_iff : filenamePattern line ↔ Occurs FILENAME_PATTERN line := by
  simp only [filenamePattern, Bool.or_eq_true, contains_iff, FILENAME_PATTERN, occurs_add,
    occurs_mul_right (Language.nil_mem_kstar _)]

/-! ### The header test -/

/-- The file name pattern, compared in lower case. -/
def FILENAME_PATTERN_ICASE : Language UInt8 :=
  icase (word "filenam" * (word "e")∗ + word "filenam" * (word "e")∗ + word "filenam" * (word "e")∗)

def filenameIcase (line : List UInt8) : Bool := contains (line.map toLower) "filenam"

theorem filenameIcase_iff : filenameIcase line ↔ Occurs FILENAME_PATTERN_ICASE line := by
  simp only [filenameIcase, contains_iff, FILENAME_PATTERN_ICASE, occurs_icase, occurs_add,
    occurs_mul_right (Language.nil_mem_kstar _), or_self]

/-- `AntiVirus.*Status.*`, compared in lower case. -/
def ANTIVIRUS_PATTERN : Language UInt8 :=
  icase (word "antivirus" * (oneOf dot)∗ * word "status" * (oneOf dot)∗)

def antiVirusPattern (line : List UInt8) : Bool :=
  gapTest dot (ascii "antivirus") (ascii "status") (line.map toLower)

theorem antiVirusPattern_iff : antiVirusPattern line ↔ Occurs ANTIVIRUS_PATTERN line := by
  have hstatus : ∀ c ∈ ascii "status", dot c := by simp [ascii, ofChar, dot]
  rw [antiVirusPattern, ANTIVIRUS_PATTERN, occurs_icase,
    occurs_mul_right (Language.nil_mem_kstar _), word, word, occurs_gap hstatus]

def isHeaderFind (line : List UInt8) : Bool :=
  contains line "Content-ID:" || contains line "Content-Transfer-Encoding:" ||
    contains line "Content-Description:" || contains line "Content-Type:" ||
    contains line "Content-Disposition: attachment" || contains line "size=" ||
    contains line "creation-date=" || contains line "modification-date=" ||
    contains line "read-date="

def isHeaderRegex (line : List UInt8) : Bool := filenameIcase line || antiVirusPattern line

def isHeader (line : List UInt8) : Bool := isHeaderFind line || isHeaderRegex line

/-! ### Encoded names -/

/-- `=?.*?=` -/
def RFC2047HINT : Language UInt8 := (1 + word "=") * (oneOf dot)∗ * word "="

def hint2047 (s : List UInt8) : Bool := contains s "="

theorem hint2047_iff : hint2047 s ↔ Occurs RFC2047HINT s := by
  rw [hint2047, contains_iff, RFC2047HINT, mul_assoc, occurs_mul_left (nil_mem_optional _),
    occurs_mul_left (Language.nil_mem_kstar _)]

/-- `.*'.*'.*` -/
def RFC2231HINT : Language UInt8 :=
  (oneOf dot)∗ * (word "'" * (oneOf dot)∗ * word "'" * (oneOf dot)∗)

def hint2231 (s : List UInt8) : Bool := gapTest dot (ascii "'") (ascii "'") s

theorem hint2231_iff : hint2231 s ↔ Occurs RFC2231HINT s := by
  have hquote : ∀ c ∈ ascii "'", dot c := by simp [ascii, ofChar, dot]
  rw [hint2231, RFC2231HINT, occurs_mul_left (Language.nil_mem_kstar _),
    occurs_mul_right (Language.nil_mem_kstar _), word, occurs_gap hquote]

/-- `=?([^?]+)?([QBqb])?([^?]+)?=` -/
def RFC2047 : Language UInt8 :=
  let text := oneOf fun c => c != ofChar '?'
  let encoding := oneOf fun c => decide (c ∈ ascii "QBqb")
  (1 + word "=") * ((1 + text * text∗) * ((1 + encoding) * ((1 + text * text∗) * word "=")))

def rfc2047 (s : List UInt8) : Bool := contains s "="

theorem rfc2047_iff : rfc2047 s ↔ Occurs RFC2047 s := by
  rw [rfc2047, contains_iff, RFC2047]
  simp only [occurs_mul_left (nil_mem_optional _)]

theorem contains_eq_iff : contains s "=" ↔ ofChar '=' ∈ s := by
  rw [contains, decide_eq_true_eq]
  exact List.singleton_infix_iff _ _

/-- **The tests answer the searches of the source.** With `\?` for a question mark, the patterns for
an encoded name match whatever has an `=`. -/
theorem patterns_decided (line : List UInt8) :
    (boundPattern line ↔ Occurs BOUNDARY_PATTERN line) ∧
      (attachPattern line ↔ Occurs ATTACH_PATTERN line) ∧
      (filenamePattern line ↔ Occurs FILENAME_PATTERN line) ∧
      (isHeaderRegex line ↔ Occurs (FILENAME_PATTERN_ICASE + ANTIVIRUS_PATTERN) line) ∧
      (hint2231 line ↔ Occurs RFC2231HINT line) ∧
      (Occurs RFC2047HINT line ↔ ofChar '=' ∈ line) ∧
        (Occurs RFC2047 line ↔ ofChar '=' ∈ line) := by
  refine ⟨boundPattern_iff, attachPattern_iff, filenamePattern_iff, ?_, hint2231_iff,
    hint2047_iff.symm.trans contains_eq_iff, rfc2047_iff.symm.trans contains_eq_iff⟩
  rw [isHeaderRegex, Bool.or_eq_true, filenameIcase_iff, antiVirusPattern_iff, occurs_add]

end LinuxWorkouts.Eml
