import Mathlib

/-!
Russian text in three code pages with one byte for each character.

`repertoire` are the characters that all of them have here: ASCII below 127 and the Russian letters.
A code page is a function from characters to bytes, and a text is encoded character by
character; `utf8` is the encoding of a text in UTF-8. `flatMap_congr_iff` compares two decoders that
put out equally much for every character.
-/

namespace LinuxWorkouts.CodePages

open List

def capitalYo : Char := Char.ofNat 0x401

def smallYo : Char := Char.ofNat 0x451

def russianLetters : List Char :=
  (range 64).map (fun k => Char.ofNat (0x410 + k)) ++ [capitalYo, smallYo]

def repertoire : List Char := (range 127).map Char.ofNat ++ russianLetters

def utf8 (text : List Char) : List UInt8 := text.flatMap String.utf8EncodeChar

def iso88595 (c : Char) : UInt8 :=
  if c.toNat < 128 then UInt8.ofNat c.toNat else UInt8.ofNat (c.toNat - 0x360)

/-- windows-1251: the letters in the order of Unicode at the end of the page, and yo before them. -/
def windows1251 (c : Char) : UInt8 :=
  if c.toNat < 128 then UInt8.ofNat c.toNat
  else if c = capitalYo then 0xA8
  else if c = smallYo then 0xB8
  else UInt8.ofNat (c.toNat - 0x350)

/-- The letters of KOI8-R from `0xC0` on, which follow the Latin alphabet. -/
def koi8Letters : List Char :=
  "юабцдефгхийклмнопярстужвьызшэщчъЮАБЦДЕФГХИЙКЛМНОПЯРСТУЖВЬЫЗШЭЩЧЪ".toList

def koi8r (c : Char) : UInt8 :=
  if c.toNat < 128 then UInt8.ofNat c.toNat
  else if c = smallYo then 0xA3
  else if c = capitalYo then 0xB3
  else UInt8.ofNat (0xC0 + koi8Letters.idxOf c)

theorem decode_text {decode : UInt8 → List UInt8} {page : Char → UInt8} {text : List Char}
    (h : ∀ c ∈ text, decode (page c) = String.utf8EncodeChar c) :
    (text.map page).flatMap decode = utf8 text := by
  rw [flatMap_map]
  exact flatMap_congr h

theorem flatMap_congr_iff {α β : Type*} {f g : α → List β} {l : List α}
    (hlength : ∀ a ∈ l, (f a).length = (g a).length) :
    l.flatMap f = l.flatMap g ↔ ∀ a ∈ l, f a = g a := by
  induction l with
  | nil => simp
  | cons a l ih =>
    obtain ⟨ha, hl⟩ := forall_mem_cons.mp hlength
    rw [forall_mem_cons, flatMap_cons, flatMap_cons]
    constructor
    · intro h
      obtain ⟨hfa, hrest⟩ := append_inj h ha
      exact ⟨hfa, (ih hl).mp hrest⟩
    · rintro ⟨hfa, hrest⟩
      rw [hfa, (ih hl).mpr hrest]

end LinuxWorkouts.CodePages
