import LinuxWorkouts.Eml.Parser
import LinuxWorkouts.Lib.Transition

/-!
When the line loop of the mail parser survives its input.

Each function that cuts a string has one lemma that says exactly when it returns:
`getBoundaryVal_returns`, `getFilenameVal_returns`, `decodeName_returns`. `LineSafe` puts them
together for a line, and `mainLoop_returns_iff` is the loop over any lines.
-/

namespace LinuxWorkouts.Eml

open Ascii StdString Transition List

/-! ### Boundaries and file names -/

/-- The text behind the first `=`, all of the line if there is none. -/
def valueText (line : List UInt8) : List UInt8 := line.drop (past (find line (ofChar '=') 0) 1)

/-- The value of a file name line: a `;` at the end does not belong to it. -/
def filenameText (line : List UInt8) : List UInt8 :=
  if line.getLast? = some (ofChar ';') then (valueText line).dropLast else valueText line

section Values

variable {line str : List UInt8}

theorem getBoundaryVal_returns (h : ofChar '=' ∈ line) :
    Returns (getBoundaryVal line) ↔ valueText line ≠ [] := by
  obtain ⟨a, b, rfl, ha⟩ := eq_append_cons_of_mem h
  rw [getBoundaryVal, returns_substr, valueText, find_append_cons ha]
  have hdrop : (a ++ ofChar '=' :: b).drop (a.length + 1) = b := by
    rw [drop_append, drop_eq_nil_of_le (by omega)]
    simp
  have hvalue : (a ++ ofChar '=' :: b).drop (past (some a.length) 1) = b := hdrop
  rw [hvalue, length_append, length_cons, past]
  cases b with
  | nil => simp
  | cons c b => simp

theorem delQuotesIfNeeded_returns : Returns (delQuotesIfNeeded str) ↔ str ∉ [[], [quote]] := by
  have hback : ∀ t : List UInt8, Returns (back t) ↔ t ≠ [] := by
    intro t
    cases t using reverseRecOn with
    | nil => exact iff_of_false (back_nil ▸ not_returns_error _) (fun h => h rfl)
    | append_singleton t c =>
      rw [back_concat]
      exact iff_of_true (returns_ok c) (by simp)
  have hrest : ∀ t : List UInt8, Returns (do
      let last ← back t
      (.ok (if last = quote then t.dropLast else t) : Except Fault (List UInt8))) ↔ t ≠ [] := by
    intro t
    rw [← hback t]
    constructor
    · intro h
      obtain ⟨c, hc, -⟩ := returns_bind.mp h
      exact ⟨c, hc⟩
    · rintro ⟨c, hc⟩
      exact returns_bind.mpr ⟨c, hc, returns_ok _⟩
  cases str with
  | nil => exact (hrest []).trans (by simp)
  | cons c str =>
    by_cases hc : c = quote
    · subst hc
      refine (hrest str).trans ?_
      simp
    · have hsame : delQuotesIfNeeded (c :: str) = (do
          let last ← back (c :: str)
          (.ok (if last = quote then (c :: str).dropLast else c :: str) :
            Except Fault (List UInt8))) := by
        rw [delQuotesIfNeeded]
        show (Except.ok c).bind _ = _
        simp only [Except.bind, if_neg hc]
      rw [hsame, hrest]
      simp [hc]

theorem past_find_lt {init : List UInt8} :
    past (find (init ++ [ofChar ';']) (ofChar '=') 0) 1 < (init ++ [ofChar ';']).length := by
  rw [length_append, length_singleton]
  by_cases hmem : ofChar '=' ∈ init
  · have hlt := idxOf_lt_length_iff.mpr hmem
    rw [find, drop_zero, if_pos (mem_append_left _ hmem), idxOf_append_of_mem hmem, past]
    omega
  · have hnot : ofChar '=' ∉ init ++ [ofChar ';'] := by
      rw [mem_append, not_or, mem_singleton]
      exact ⟨hmem, by decide⟩
    rw [find_eq_none hnot, past]
    omega

theorem getFilenameVal_eq (h : line ≠ []) :
    getFilenameVal line = delQuotesIfNeeded (filenameText line) := by
  cases line using reverseRecOn with
  | nil => exact absurd rfl h
  | append_singleton init c =>
    let text := init ++ [c]
    let start := past (find text (ofChar '=') 0) 1
    have hstart : start ≤ text.length := past_one_le
    have hoffset : sizeSub text.length start = (valueText text).length := by
      rw [sizeSub, if_pos hstart, valueText, length_drop]
    have hsub : ∀ count, substr text start count = .ok ((valueText text).take count) :=
      fun count => substr_of_le hstart
    have hcut : getFilenameVal text = delQuotesIfNeeded ((valueText text).take
        (if c = ofChar ';' then sizeSub (valueText text).length 1
          else (valueText text).length)) := by
      rw [getFilenameVal, back_concat]
      show (substr text start _).bind _ = _
      rw [hsub, hoffset]
      rfl
    have hlast : text.getLast? = some c := getLast?_concat
    rw [hcut, filenameText, hlast]
    by_cases hc : c = ofChar ';'
    · subst hc
      have hpos : 1 ≤ (valueText text).length := by
        rw [valueText, length_drop]
        have hlt : start < text.length := past_find_lt
        omega
      rw [if_pos rfl, if_pos rfl, sizeSub, if_pos hpos, ← dropLast_eq_take]
    · have hne : some c ≠ some (ofChar ';') := fun h => hc (Option.some.inj h)
      rw [if_neg hc, if_neg hne, take_length]

theorem getFilenameVal_returns :
    Returns (getFilenameVal line) ↔ filenameText line ∉ [[], [quote]] := by
  by_cases h : line = []
  · subst h
    apply iff_of_false
    · exact not_returns_error Fault.badIndex
    · exact fun h => h mem_cons_self
  · rw [getFilenameVal_eq h, delQuotesIfNeeded_returns]

end Values

/-! ### Encoded names -/

section Encoded

variable {junk : Junk} {line token str name : List UInt8}

theorem getEncodedLineTokens_returns (line : List UInt8) (separator : UInt8) :
    Returns (getEncodedLineTokens line separator) := by
  rw [getEncodedLineTokens]
  cases hfirst : find line separator 0 with
  | none => exact returns_ok _
  | some first =>
    have hlt : first + 1 ≤ line.length := (find_lt hfirst).1
    have hpast : past (find line separator (first + 1)) 1 ≤ line.length := past_one_le
    refine returns_bind.mpr ⟨_, substr_of_le (Nat.zero_le _), ?_⟩
    refine returns_bind.mpr ⟨_, substr_of_le hlt, ?_⟩
    exact returns_bind.mpr ⟨_, substr_of_le hpast, returns_ok _⟩

theorem getDecodedTextRfc2047_returns :
    Returns (getDecodedTextRfc2047 junk token) ↔ 2 ≤ token.length := by
  constructor
  · intro h
    obtain ⟨prepared, hp, -⟩ := returns_bind.mp h
    exact returns_substr.mp ⟨prepared, hp⟩
  · intro hlen
    obtain ⟨prepared, hp⟩ : Returns (substr token 2 (sizeSub token.length 4)) :=
      returns_substr.mpr hlen
    obtain ⟨tokens, ht⟩ := getEncodedLineTokens_returns prepared (ofChar '?')
    refine returns_bind.mpr ⟨prepared, hp, returns_bind.mpr ⟨tokens, ht, ?_⟩⟩
    dsimp only
    split
    · exact returns_ok _
    · split <;> exact returns_ok _

def loneEquals : List UInt8 := [ofChar '=']

theorem rfc2047_short_iff : rfc2047 token ∧ token.length < 2 ↔ token = loneEquals := by
  rw [rfc2047, contains_eq_iff]
  constructor
  · rintro ⟨hmem, hlen⟩
    cases token with
    | nil => cases hmem
    | cons c rest =>
      have hrest : rest = [] := by
        rw [length_cons] at hlen
        exact length_eq_zero_iff.mp (by omega)
      subst hrest
      rw [loneEquals, mem_singleton.mp hmem]
  · rintro rfl
    exact ⟨mem_singleton.mpr rfl, by decide⟩

theorem appendDecoded_returns (junk : Junk) (filename token : List UInt8) :
    Returns (appendDecoded junk filename token) ↔ token ≠ loneEquals := by
  rw [appendDecoded, ne_eq, ← rfc2047_short_iff]
  split
  · next hw =>
      constructor
      · rintro h ⟨-, hshort⟩
        obtain ⟨text, htext, -⟩ := returns_bind.mp h
        have hlen := getDecodedTextRfc2047_returns.mp ⟨text, htext⟩
        omega
      · intro hlong
        have hlen : 2 ≤ token.length := by
          by_contra hlt
          exact hlong ⟨hw, by omega⟩
        obtain ⟨text, htext⟩ := getDecodedTextRfc2047_returns.mpr hlen
        exact returns_bind.mpr ⟨text, htext, returns_ok _⟩
  · next hw => exact iff_of_true (returns_ok _) fun h => hw h.1

theorem parseRfc2047_returns : Returns (parseRfc2047 junk str) ↔ loneEquals ∉ nameTokens str := by
  rw [parseRfc2047, returns_foldlM (appendDecoded_returns junk)]
  constructor
  · exact fun h hmem => h _ hmem rfl
  · exact fun h token htoken heq => h (heq ▸ htoken)

theorem decodeName_returns : Returns (decodeName junk name) ↔ loneEquals ∉ nameTokens name := by
  rw [decodeName, checkEncoding]
  by_cases hint : hint2047 name
  · rw [if_pos hint]
    exact parseRfc2047_returns
  · rw [if_neg hint]
    have hnot : loneEquals ∉ nameTokens name := by
      intro h
      apply hint
      rw [hint2047, contains_eq_iff]
      exact mem_of_mem_splitLine h (mem_singleton.mpr rfl)
    refine iff_of_true ?_ hnot
    split
    · next h => split at h <;> cases h
    · obtain ⟨tokens, ht⟩ := getEncodedLineTokens_returns name apostrophe
      exact returns_bind.mpr ⟨tokens, ht, returns_ok _⟩
    · exact returns_ok _

end Encoded

/-! ### The loop -/

/-- The line saves the attachment that is being read; `s` is the state behind the first blocks. -/
def saves (s : Scan) (line : List UInt8) : Bool :=
  s.attachFound && s.attachBodyStartFound && closes s.boundaries line

def pendingName (s : Scan) : List UInt8 := getAttachFilename (s.attachmentsCnt + 1) s.filenameTokens

/-- A file name that ends here has a value that is not a lone quote, a boundary has a value, and a
name that is decoded here has no token `=`. -/
def LineSafe (s : Scan) (line : List UInt8) : Prop :=
  let line := removeCarriageReturnIfNeeded line
  (endsFilename s line → filenameText s.curFilename ∉ [[], [quote]]) ∧
    (boundPattern line → valueText line ≠ []) ∧
    ∀ t ∈ (readHeader s line).toOption, saves t line → loneEquals ∉ nameTokens (pendingName t)

/-- One round of the loop, `none` when it throws or reads outside a string. -/
def lineStep (junk : Junk) (s : Scan) (line : List UInt8) : Option Scan :=
  (processLine junk s line).toOption

section Loop

variable {junk : Junk} {s s' : Scan} {line : List UInt8}

theorem newTokens_returns :
    Returns (newTokens s line) ↔
      (endsFilename s line → filenameText s.curFilename ∉ [[], [quote]]) := by
  rw [newTokens]
  split
  · next h =>
      rw [returns_map, getFilenameVal_returns]
      exact ⟨fun hr _ => hr, fun hr => hr h⟩
  · next h => exact iff_of_true (returns_ok _) fun he => absurd he h

theorem equals_mem_of_boundPattern (h : boundPattern line) : ofChar '=' ∈ line := by
  rw [boundPattern, contains, decide_eq_true_eq] at h
  exact h.subset (by decide)

theorem newBoundaries_returns :
    Returns (newBoundaries line) ↔ (boundPattern line → valueText line ≠ []) := by
  rw [newBoundaries]
  split
  · next h =>
      rw [returns_map, getBoundaryVal_returns (equals_mem_of_boundPattern h)]
      exact ⟨fun hr _ => hr, fun hr => hr h⟩
  · next h => exact iff_of_true (returns_ok _) fun he => absurd he h

theorem readHeader_returns :
    Returns (readHeader s line) ↔ Returns (newTokens s line) ∧ Returns (newBoundaries line) := by
  constructor
  · rintro ⟨t, ht⟩
    obtain ⟨tokens, bounds, htokens, hbounds, -⟩ := readHeader_ok_iff.mp ht
    exact ⟨⟨tokens, htokens⟩, bounds, hbounds⟩
  · rintro ⟨⟨tokens, htokens⟩, bounds, hbounds⟩
    exact ⟨_, readHeader_ok_iff.mpr ⟨tokens, bounds, htokens, hbounds, rfl⟩⟩

theorem readAttachment_returns (hs : s.Staged) : Returns (readAttachment junk s line) ↔
    (saves s line → loneEquals ∉ nameTokens (pendingName s)) := by
  cases hbody : s.attachBodyStartFound with
  | false =>
    rw [readAttachment_header hbody]
    refine iff_of_true (returns_ok _) fun h => ?_
    rw [saves, hbody, Bool.and_false, Bool.false_and] at h
    cases h
  | true =>
    rw [readAttachment_body (hs hbody) hbody, saves, hs hbody, hbody, Bool.and_self, Bool.true_and]
    split
    · next h =>
        rw [← decodeName_returns]
        constructor
        · intro hr _
          obtain ⟨name, hname, -⟩ := returns_bind.mp hr
          exact ⟨name, hname⟩
        · intro hr
          obtain ⟨name, hname⟩ := hr h
          exact returns_bind.mpr ⟨name, hname, returns_ok _⟩
    · next h => exact iff_of_true (returns_ok _) fun he => absurd he h

theorem processLine_returns (junk : Junk) (hs : s.Staged) :
    Returns (processLine junk s line) ↔ LineSafe s line := by
  rw [LineSafe, ← newTokens_returns, ← newBoundaries_returns, ← and_assoc, ← readHeader_returns]
  constructor
  · intro h
    obtain ⟨t, ht, hr⟩ := returns_bind.mp h
    refine ⟨⟨t, ht⟩, ?_⟩
    rw [ht]
    intro u hu
    cases hu
    exact (readAttachment_returns (hs.readHeader ht)).mp hr
  · rintro ⟨⟨t, ht⟩, hname⟩
    refine returns_bind.mpr ⟨t, ht, (readAttachment_returns (hs.readHeader ht)).mpr ?_⟩
    rw [ht] at hname
    exact hname t rfl

theorem lineStep_eq_some : lineStep junk s line = some s' ↔ processLine junk s line = .ok s' := by
  rw [lineStep]
  cases processLine junk s line with
  | error e => simp [Except.toOption]
  | ok t => simp [Except.toOption]

theorem loop_returns (hs : s.Staged) (lines : List (List UInt8)) :
    Returns (mainLoop junk s lines) ↔ Along (lineStep junk) LineSafe s lines := by
  induction lines generalizing s with
  | nil => exact iff_of_true (returns_ok s) trivial
  | cons line lines ih =>
    rw [mainLoop_cons, returns_bind, Along, ← processLine_returns junk hs]
    constructor
    · rintro ⟨t, ht, hrest⟩
      refine ⟨⟨t, ht⟩, fun u hu => ?_⟩
      cases ht.symm.trans (lineStep_eq_some.mp hu)
      exact (ih (hs.processLine ht)).mp hrest
    · rintro ⟨⟨t, ht⟩, hrest⟩
      exact ⟨t, ht, (ih (hs.processLine ht)).mpr (hrest t (lineStep_eq_some.mpr ht))⟩

end Loop

/-- **The loop survives its input iff every line of it is safe**, whatever the lines are and
whatever the memory holds that it reads without having written it. -/
theorem mainLoop_returns_iff (junk : Junk) (lines : List (List UInt8)) :
    Returns (mainLoop junk .start lines) ↔ Along (lineStep junk) LineSafe .start lines :=
  loop_returns Scan.start_staged lines

/-- A boundary parameter without a value. -/
theorem mainLoop_throws : mainLoop .clear .start
    [ascii "Content-Type: multipart/mixed; boundary="] = .error .outOfRange := by
  decide +kernel

end LinuxWorkouts.Eml
