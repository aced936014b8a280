import LinuxWorkouts.Eml.Names

/-!
The line loop of the mail parser (`main` of `get_attachments.cpp`).

`processLine` is the body of the loop, one definition for each of its blocks, in their order. The
calls of `save_str_to_file` are recorded in `saved`. A line works on two groups of variables: the
file name and the boundaries, and the attachment that is being read. `readHeader_eq`,
`readAttachment_header` and `readAttachment_body` say what it does to each; what later modules
prove rests on them and not on the blocks.
-/

namespace LinuxWorkouts.Eml

open Ascii StdString

/-- The variables of the loop. -/
structure Scan where
  attachFound : Bool
  attachBodyStartFound : Bool
  filenameParsingStarts : Bool
  attachmentData : List UInt8
  boundaries : List (List UInt8)
  curFilename : List UInt8
  filenameTokens : List (List UInt8)
  attachmentsCnt : Nat
  saved : List (List UInt8 × List UInt8)
deriving DecidableEq, Repr

def Scan.start : Scan := ⟨false, false, false, [], [], [], [], 0, []⟩

def emptyLine (line : List UInt8) : Bool :=
  decide (line ∈ [[], [10], [13], [13, 10], [13, 10, 13, 10], [32]])

def removeCarriageReturnIfNeeded (line : List UInt8) : List UInt8 :=
  if line.getLast? = some 13 then line.dropLast else line

def containAnyBoundary (boundaries : List (List UInt8)) (line : List UInt8) : Bool :=
  boundaries.any fun b => decide (b <:+: line)

/-! ### The blocks of the loop -/

def continuesFilename (s : Scan) (line : List UInt8) : Bool :=
  !emptyLine line && s.filenameParsingStarts && !isHeader line && !s.attachBodyStartFound

def endsFilename (s : Scan) (line : List UInt8) : Bool :=
  s.filenameParsingStarts && (emptyLine line || isHeader line || s.attachBodyStartFound)

def accumulateFilename (s : Scan) (line : List UInt8) : Except Fault Scan :=
  if continuesFilename s line then .ok { s with curFilename := s.curFilename ++ line }
  else if endsFilename s line then do
    let filename ← getFilenameVal s.curFilename
    .ok { s with
          filenameTokens := s.filenameTokens ++ [filename], filenameParsingStarts := false,
          curFilename := [] }
  else .ok s

def startFilename (s : Scan) (line : List UInt8) : Scan :=
  if filenamePattern line && !s.filenameParsingStarts then
    { s with curFilename := s.curFilename ++ line, filenameParsingStarts := true }
  else s

def saveBoundary (s : Scan) (line : List UInt8) : Except Fault Scan :=
  if boundPattern line then do
    let val ← getBoundaryVal line
    .ok { s with boundaries := s.boundaries ++ [ascii "--" ++ val] }
  else .ok s

def markAttachment (s : Scan) (line : List UInt8) : Scan :=
  { s with attachFound := s.attachFound || attachPattern line }

/-- The name before it is decoded: the tokens in a row, or a numbered one if there are none. -/
def getAttachFilename (attachmentsCnt : Nat) (filenameTokens : List (List UInt8)) : List UInt8 :=
  if filenameTokens.flatten = [] then ascii "temp" ++ decimal attachmentsCnt
  else filenameTokens.flatten

/-- The data that is saved: an exception of the decoder makes it empty. -/
def decodeData (junk : Junk) (data : List UInt8) : List UInt8 :=
  (base64DecodeToString junk data).getD []

def saveAttachment (junk : Junk) (s : Scan) : Except Fault Scan := do
  let name ← decodeName junk (getAttachFilename (s.attachmentsCnt + 1) s.filenameTokens)
  .ok { s with
        attachFound := false, attachBodyStartFound := false,
        attachmentsCnt := s.attachmentsCnt + 1,
        saved := s.saved ++ [(name, decodeData junk s.attachmentData)],
        attachmentData := [], filenameTokens := [] }

def readBody (junk : Junk) (s : Scan) (line : List UInt8) : Except Fault Scan :=
  if s.attachFound && s.attachBodyStartFound then
    if emptyLine line || containAnyBoundary s.boundaries line then saveAttachment junk s
    else .ok { s with attachmentData := s.attachmentData ++ line }
  else .ok s

def startBody (s : Scan) (line : List UInt8) : Scan :=
  if s.attachFound && emptyLine line then { s with attachBodyStartFound := true } else s

/-- The blocks that read file names and boundaries. -/
def readHeader (s : Scan) (line : List UInt8) : Except Fault Scan := do
  let s ← accumulateFilename s line
  saveBoundary (startFilename s line) line

/-- The blocks that read attachments. -/
def readAttachment (junk : Junk) (s : Scan) (line : List UInt8) : Except Fault Scan := do
  let s ← readBody junk (markAttachment s line) line
  .ok (startBody s line)

def processLine (junk : Junk) (s : Scan) (line : List UInt8) : Except Fault Scan := do
  let line := removeCarriageReturnIfNeeded line
  let s ← readHeader s line
  readAttachment junk s line

/-- The loop over the lines that `getline` returns. -/
def mainLoop (junk : Junk) (s : Scan) (lines : List (List UInt8)) : Except Fault Scan :=
  lines.foldlM (processLine junk) s

/-! ### Runs -/

theorem mainLoop_cons (junk : Junk) (s : Scan) (line : List UInt8) (lines : List (List UInt8)) :
    mainLoop junk s (line :: lines) = (processLine junk s line).bind fun s =>
      mainLoop junk s lines :=
  rfl

theorem mainLoop_append (junk : Junk) (s : Scan) (xs ys : List (List UInt8)) :
    mainLoop junk s (xs ++ ys) = (mainLoop junk s xs).bind fun s => mainLoop junk s ys :=
  List.foldlM_append

/-! ### What a line does -/

def newTokens (s : Scan) (line : List UInt8) : Except Fault (List (List UInt8)) :=
  if endsFilename s line then (getFilenameVal s.curFilename).map ([·]) else .ok []

def newBoundaries (line : List UInt8) : Except Fault (List (List UInt8)) :=
  if boundPattern line then (getBoundaryVal line).map fun val => [ascii "--" ++ val] else .ok []

def nextFilename (s : Scan) (line : List UInt8) : List UInt8 :=
  if s.filenameParsingStarts && !endsFilename s line then s.curFilename ++ line
  else (if s.filenameParsingStarts then [] else s.curFilename) ++
    (if filenamePattern line then line else [])

def closes (boundaries : List (List UInt8)) (line : List UInt8) : Bool :=
  emptyLine line || containAnyBoundary boundaries line

section Spec

variable {junk : Junk} {s s' : Scan} {line : List UInt8}

theorem continuesFilename_eq (s : Scan) (line : List UInt8) :
    continuesFilename s line = (s.filenameParsingStarts && !endsFilename s line) := by
  rw [continuesFilename, endsFilename]
  cases s.filenameParsingStarts <;> cases emptyLine line <;> cases isHeader line <;>
    cases s.attachBodyStartFound <;> rfl

/-- The variables behind a header line with the values it ends. -/
def Scan.afterHeader (s : Scan) (line : List UInt8) (tokens bounds : List (List UInt8)) : Scan :=
  { s with
    filenameTokens := s.filenameTokens ++ tokens
    filenameParsingStarts :=
      (s.filenameParsingStarts && !endsFilename s line) || filenamePattern line
    curFilename := nextFilename s line
    boundaries := s.boundaries ++ bounds }

theorem readHeader_eq (s : Scan) (line : List UInt8) :
    readHeader s line =
      (newTokens s line).bind fun tokens => (newBoundaries line).bind fun bounds =>
        .ok (s.afterHeader line tokens bounds) := by
  have hbound : ∀ t : Scan, saveBoundary t line = (newBoundaries line).bind fun bounds =>
      .ok { t with boundaries := t.boundaries ++ bounds } := by
    intro t
    rw [saveBoundary, newBoundaries]
    split
    · cases getBoundaryVal line <;> rfl
    · simp [Except.bind]
  simp only [Scan.afterHeader]
  rw [readHeader, accumulateFilename, continuesFilename_eq, newTokens, nextFilename]
  cases hparse : s.filenameParsingStarts with
  | false =>
    have hends : endsFilename s line = false := by
      rw [endsFilename, hparse, Bool.false_and]
    simp only [hends, Bool.false_eq_true, if_false, Except.bind, hbound, startFilename,
      Bool.not_false, Bool.and_true, Bool.false_or]
    cases hfile : filenamePattern line <;> cases newBoundaries line <;>
      simp [bind, Except.bind, hparse]
  | true =>
    cases hends : endsFilename s line with
    | false =>
      simp only [Bool.not_false, Bool.and_self, if_true, Except.bind, hbound, startFilename]
      cases newBoundaries line <;> simp [bind, Except.bind]
    | true =>
      simp only [Bool.not_true, Bool.and_false, Bool.false_eq_true, if_false, if_true, hbound,
        startFilename, Bool.false_or]
      cases getFilenameVal s.curFilename with
      | error e => rfl
      | ok v =>
        cases hfile : filenamePattern line <;> cases newBoundaries line <;>
          simp [bind, Except.bind, Except.map]

theorem readAttachment_header (hbody : s.attachBodyStartFound = false) :
    readAttachment junk s line =
      .ok { s with
            attachFound := s.attachFound || attachPattern line,
            attachBodyStartFound := (s.attachFound || attachPattern line) && emptyLine line } := by
  rw [readAttachment, readBody, markAttachment]
  simp only [hbody, Bool.and_false, Bool.false_eq_true, if_false, bind, Except.bind, startBody]
  cases (s.attachFound || attachPattern line) <;> cases emptyLine line <;> simp

theorem readAttachment_body (hfound : s.attachFound = true)
    (hbody : s.attachBodyStartFound = true) :
    readAttachment junk s line =
      if closes s.boundaries line then saveAttachment junk s
      else .ok { s with attachmentData := s.attachmentData ++ line } := by
  have hmark : markAttachment s line = s := by
    rw [markAttachment, hfound, Bool.true_or, ← hfound]
  rw [readAttachment, hmark, readBody, hfound, hbody, closes]
  cases hc : emptyLine line || containAnyBoundary s.boundaries line with
  | false =>
    have hempty : emptyLine line = false := (Bool.or_eq_false_iff.mp hc).1
    simp [bind, Except.bind, startBody, hempty]
  | true =>
    simp only [Bool.and_self, if_true, saveAttachment, bind, Except.bind]
    cases decodeName junk (getAttachFilename (s.attachmentsCnt + 1) s.filenameTokens) with
    | error e => rfl
    | ok name => simp [startBody]

theorem emptyLine_of_attachPattern (h : attachPattern line) : emptyLine line = false := by
  rw [attachPattern, contains, decide_eq_true_eq] at h
  have hlen : 30 ≤ line.length := h.length_le
  rw [emptyLine, decide_eq_false_iff_not]
  intro hmem
  fin_cases hmem <;> simp at hlen

theorem readHeader_ok_iff : readHeader s line = .ok s' ↔ ∃ tokens bounds,
    newTokens s line = .ok tokens ∧ newBoundaries line = .ok bounds ∧
      s' = s.afterHeader line tokens bounds := by
  rw [readHeader_eq]
  constructor
  · intro h
    obtain ⟨tokens, htokens, h⟩ := bind_eq_ok.mp h
    obtain ⟨bounds, hbounds, h⟩ := bind_eq_ok.mp h
    cases h
    exact ⟨tokens, bounds, htokens, hbounds, rfl⟩
  · rintro ⟨tokens, bounds, htokens, hbounds, rfl⟩
    rw [htokens, hbounds]
    rfl

theorem readHeader_plain (hparse : s.filenameParsingStarts = false)
    (hnofile : filenamePattern line = false) (hnobound : boundPattern line = false) :
    readHeader s line = .ok s := by
  have hends : endsFilename s line = false := by
    rw [endsFilename, hparse, Bool.false_and]
  refine readHeader_ok_iff.mpr ⟨[], [], ?_, ?_, ?_⟩
  · rw [newTokens, hends]
    rfl
  · rw [newBoundaries, hnobound]
    rfl
  · have hnext : nextFilename s line = s.curFilename := by
      simp [nextFilename, hparse, hnofile]
    rw [Scan.afterHeader, hnext, hends, hnofile, Bool.not_false, Bool.and_true, Bool.or_false,
      List.append_nil, List.append_nil]

/-- A body is being read only behind the line that announces an attachment. -/
def Scan.Staged (s : Scan) : Prop := s.attachBodyStartFound = true → s.attachFound = true

theorem Scan.start_staged : Scan.start.Staged := fun h => Bool.noConfusion h

theorem processLine_ok_iff : processLine junk s line = .ok s' ↔
    ∃ t, readHeader s (removeCarriageReturnIfNeeded line) = .ok t ∧
      readAttachment junk t (removeCarriageReturnIfNeeded line) = .ok s' := bind_eq_ok

theorem processLine_plain (hfound : s.attachFound = false)
    (hbody : s.attachBodyStartFound = false) (hparse : s.filenameParsingStarts = false)
    (hquiet : attachPattern (removeCarriageReturnIfNeeded line) = false)
    (hnofile : filenamePattern (removeCarriageReturnIfNeeded line) = false)
    (hnobound : boundPattern (removeCarriageReturnIfNeeded line) = false) :
    processLine junk s line = .ok s := by
  refine processLine_ok_iff.mpr ⟨s, readHeader_plain hparse hnofile hnobound, ?_⟩
  rw [readAttachment_header hbody, hquiet, Bool.or_false]
  refine congrArg Except.ok ?_
  obtain ⟨found, body, parse, data, bounds, cur, tokens, cnt, saved⟩ := s
  cases hfound
  cases hbody
  rfl

theorem Scan.Staged.readHeader (hs : s.Staged) (h : Eml.readHeader s line = .ok s') :
    s'.Staged := by
  obtain ⟨tokens, bounds, -, -, rfl⟩ := readHeader_ok_iff.mp h
  exact hs

theorem Scan.Staged.readAttachment (hs : s.Staged) (h : Eml.readAttachment junk s line = .ok s') :
    s'.Staged := by
  cases hbody : s.attachBodyStartFound with
  | false =>
    rw [readAttachment_header hbody] at h
    cases h
    exact fun h => (Bool.and_eq_true_iff.mp h).1
  | true =>
    rw [readAttachment_body (hs hbody) hbody] at h
    split at h
    · obtain ⟨name, -, h⟩ := bind_eq_ok.mp h
      cases h
      exact fun h => Bool.noConfusion h
    · cases h
      exact hs

theorem Scan.Staged.processLine (hs : s.Staged) (h : Eml.processLine junk s line = .ok s') :
    s'.Staged := by
  obtain ⟨t, ht, h⟩ := processLine_ok_iff.mp h
  exact (hs.readHeader ht).readAttachment h

end Spec

end LinuxWorkouts.Eml
