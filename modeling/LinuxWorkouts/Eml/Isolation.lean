import LinuxWorkouts.Eml.Completeness

/-!
What one part of a mail can do to the attachments behind it.

`headerTexts` reads the file names and the boundaries off the lines of a header. A header that
announces no attachment leaves nothing else behind (`mainLoop_behind_header`). The file names are
not forgotten at the end of such a part: they stay in front of the name of the next attachment, up
to the line that closes it (`saved_of_prepend`, `name_of_saved`). So two versions of the header are
the same to every mail if their texts are the same, and for names that are not encoded only then
(`names_isolated_iff`).
-/

namespace LinuxWorkouts.Eml

open Ascii StdString List

/-! ### The lines of a header -/

/-- A line of a header that neither ends it nor announces an attachment. -/
def HeaderLine (raw : List UInt8) : Prop :=
  emptyLine (removeCarriageReturnIfNeeded raw) = false ∧
    attachPattern (removeCarriageReturnIfNeeded raw) = false

instance (raw : List UInt8) : Decidable (HeaderLine raw) := by
  unfold HeaderLine
  infer_instance

def endedName (pending : Option (List UInt8)) (line : List UInt8) :
    Except Fault (List (List UInt8)) :=
  match pending with
  | some name => if isHeader line then (getFilenameVal name).map ([·]) else .ok []
  | none => .ok []

def nextPending (pending : Option (List UInt8)) (line : List UInt8) : Option (List UInt8) :=
  match pending with
  | some name => if isHeader line then some line |>.filter filenamePattern else some (name ++ line)
  | none => some line |>.filter filenamePattern

/-- The values of the file names and the boundaries in the lines of a header; `pending` is a file
name that is being read at its start. The end of the header ends a file name. -/
def headerTokens (pending : Option (List UInt8)) :
    List (List UInt8) → Except Fault (List (List UInt8) × List (List UInt8))
  | [] =>
    match pending with
    | some name => (getFilenameVal name).map fun val => ([val], [])
    | none => .ok ([], [])
  | raw :: hdr => do
    let line := removeCarriageReturnIfNeeded raw
    let names ← endedName pending line
    let bounds ← newBoundaries line
    let rest ← headerTokens (nextPending pending line) hdr
    .ok (names ++ rest.1, bounds ++ rest.2)

def headerTexts (pending : Option (List UInt8)) (hdr : List (List UInt8)) :
    Except Fault (List UInt8 × List (List UInt8)) :=
  (headerTokens pending hdr).map fun r => (r.1.flatten, r.2)

def Scan.pending (s : Scan) : Option (List UInt8) :=
  if s.filenameParsingStarts then some s.curFilename else none

def Scan.Named (s : Scan) : Prop := s.filenameParsingStarts = false → s.curFilename = []

def Scan.behind (s : Scan) (bounds : List (List UInt8)) : Scan :=
  { s with
    filenameTokens := [], boundaries := s.boundaries ++ bounds, filenameParsingStarts := false,
    curFilename := [] }

def Scan.prepend (s : Scan) (tokens : List (List UInt8)) : Scan :=
  { s with filenameTokens := tokens ++ s.filenameTokens }

section Header

variable {junk : Junk} {s t : Scan} {raw line blank : List UInt8} {hdr : List (List UInt8)}

theorem Scan.Named.readHeader (hs : s.Named) (h : Eml.readHeader s line = .ok t) : t.Named := by
  obtain ⟨tokens, bounds, -, -, rfl⟩ := readHeader_ok_iff.mp h
  intro hparse
  obtain ⟨hends, hfile⟩ := Bool.or_eq_false_iff.mp hparse
  show nextFilename s line = []
  rw [nextFilename, hends, hfile]
  cases hp : s.filenameParsingStarts with
  | false => simp [hs hp]
  | true => simp

theorem readAttachment_names (h : readAttachment junk s line = .ok t) :
    t.filenameParsingStarts = s.filenameParsingStarts ∧ t.curFilename = s.curFilename := by
  obtain ⟨u, hu, h⟩ := bind_eq_ok.mp h
  have hbody : u.filenameParsingStarts = s.filenameParsingStarts ∧
      u.curFilename = s.curFilename := by
    rw [readBody] at hu
    split at hu
    · split at hu
      · obtain ⟨name, -, hu⟩ := bind_eq_ok.mp hu
        cases hu
        exact ⟨rfl, rfl⟩
      · cases hu
        exact ⟨rfl, rfl⟩
    · cases hu
      exact ⟨rfl, rfl⟩
  cases h
  rw [startBody]
  split <;> exact hbody

theorem mainLoop_inv (hstaged : s.Staged) (hnamed : s.Named) {lines : List (List UInt8)}
    (h : mainLoop junk s lines = .ok t) : t.Staged ∧ t.Named := by
  induction lines generalizing s with
  | nil =>
    cases h
    exact ⟨hstaged, hnamed⟩
  | cons raw lines ih =>
    rw [mainLoop_cons] at h
    obtain ⟨u, hu, h⟩ := bind_eq_ok.mp h
    refine ih (hstaged.processLine hu) ?_ h
    obtain ⟨v, hv, hread⟩ := processLine_ok_iff.mp hu
    obtain ⟨hparse, hcur⟩ := readAttachment_names hread
    intro hp
    rw [hcur]
    exact hnamed.readHeader hv (hparse ▸ hp)

theorem newTokens_of_header (hbody : s.attachBodyStartFound = false)
    (hline : emptyLine line = false) :
    newTokens s line = endedName s.pending line := by
  rw [newTokens, endsFilename, hline, hbody, Scan.pending]
  cases s.filenameParsingStarts <;> cases hhead : isHeader line <;> simp [endedName, hhead]

theorem nextPending_eq (hnamed : s.Named) (hbody : s.attachBodyStartFound = false)
    (hline : emptyLine line = false) :
    nextPending s.pending line =
      if (s.filenameParsingStarts && !endsFilename s line) || filenamePattern line then
        some (nextFilename s line) else none := by
  rw [nextPending.eq_def, Scan.pending, endsFilename, hline, hbody, nextFilename, endsFilename,
    hline, hbody]
  cases hparse : s.filenameParsingStarts with
  | false =>
    rw [hnamed hparse]
    cases hfile : filenamePattern line <;> simp [Option.filter, hfile]
  | true =>
    cases isHeader line with
    | false => simp
    | true => cases hfile : filenamePattern line <;> simp [Option.filter, hfile]

theorem patterns_of_emptyLine (h : emptyLine line) :
    attachPattern line = false ∧ filenamePattern line = false ∧ boundPattern line = false := by
  rw [emptyLine, decide_eq_true_eq] at h
  fin_cases h <;> decide +kernel

theorem processLine_blank (hfound : s.attachFound = false) (hbody : s.attachBodyStartFound = false)
    (hnamed : s.Named) (hblank : emptyLine (removeCarriageReturnIfNeeded blank)) :
    processLine junk s blank = (headerTokens s.pending []).map fun r =>
      (s.behind r.2).prepend (s.filenameTokens ++ r.1) := by
  obtain ⟨hquiet, hnofile, hnobound⟩ := patterns_of_emptyLine hblank
  rw [processLine_outside hfound hbody hquiet, readHeader_eq, newTokens, newBoundaries, hnobound,
    Scan.pending]
  simp only [Scan.afterHeader, nextFilename, endsFilename, hblank, hnofile]
  cases hparse : s.filenameParsingStarts with
  | false => simp [headerTokens, Except.bind, Except.map, Scan.behind, Scan.prepend, hnamed hparse]
  | true =>
    cases hval : getFilenameVal s.curFilename <;>
      simp [headerTokens, Except.bind, Except.map, Scan.behind, Scan.prepend, hval]

theorem mainLoop_behind_header (hfound : s.attachFound = false)
    (hbody : s.attachBodyStartFound = false)
    (hnamed : s.Named) (hhdr : ∀ raw ∈ hdr, HeaderLine raw)
    (hblank : emptyLine (removeCarriageReturnIfNeeded blank)) :
    mainLoop junk s (hdr ++ [blank]) = (headerTokens s.pending hdr).map fun r =>
      (s.behind r.2).prepend (s.filenameTokens ++ r.1) := by
  induction hdr generalizing s with
  | nil =>
    rw [nil_append, mainLoop_cons, processLine_blank hfound hbody hnamed hblank]
    cases headerTokens s.pending [] <;> rfl
  | cons raw hdr ih =>
    obtain ⟨⟨hline, hquiet⟩, hrest⟩ := forall_mem_cons.mp hhdr
    rw [cons_append, mainLoop_cons, processLine_outside hfound hbody hquiet, headerTokens]
    generalize removeCarriageReturnIfNeeded raw = line at hline
    rw [← newTokens_of_header hbody hline, nextPending_eq hnamed hbody hline]
    cases hnew : newTokens s line with
    | error e =>
      rw [readHeader_eq, hnew]
      rfl
    | ok new =>
      cases hbounds : newBoundaries line with
      | error e =>
        rw [readHeader_eq, hnew, hbounds]
        rfl
      | ok bounds =>
        have hread := readHeader_ok_iff.mpr ⟨new, bounds, hnew, hbounds, rfl⟩
        have hpending := ih (s := s.afterHeader line new bounds) hfound hbody
          (hnamed.readHeader hread) hrest
        rw [hread]
        refine hpending.trans ?_
        show Except.map _ (headerTokens (s.afterHeader line new bounds).pending hdr) =
          Except.map _ ((headerTokens (s.afterHeader line new bounds).pending hdr).bind _)
        cases headerTokens (s.afterHeader line new bounds).pending hdr with
        | error e => rfl
        | ok r => simp [Except.bind, Except.map, Scan.afterHeader, Scan.behind, Scan.prepend]

end Header

/-! ### The lines behind -/

/-- The text of the file names in the lines behind, up to the one that closes the first attachment
there. There is none if no attachment is closed. -/
def textBehind (junk : Junk) (s : Scan) : List (List UInt8) → Option (List UInt8)
  | [] => none
  | raw :: lines =>
    let line := removeCarriageReturnIfNeeded raw
    match readHeader s line with
    | .error _ => none
    | .ok t =>
      if saves t line then some t.filenameTokens.flatten
      else
        match readAttachment junk t line with
        | .error _ => none
        | .ok u => textBehind junk u lines

/-- The name of the attachment behind `cnt` others that goes with the text of its file names. -/
def nameFrom (junk : Junk) (cnt : Nat) (text : List UInt8) : Except Fault (List UInt8) :=
  decodeName junk (getAttachFilename (cnt + 1) [text])

section Behind

variable {junk : Junk} {s t u : Scan} {line : List UInt8} {lines tokens : List (List UInt8)}

theorem readHeader_prepend :
    readHeader (s.prepend tokens) line = (readHeader s line).map (Scan.prepend · tokens) := by
  have hnew : newTokens (s.prepend tokens) line = newTokens s line := rfl
  rw [readHeader_eq, readHeader_eq, hnew]
  cases newTokens s line with
  | error e => rfl
  | ok new =>
    cases newBoundaries line with
    | error e => rfl
    | ok bounds =>
      have htokens : tokens ++ s.filenameTokens ++ new = tokens ++ (s.filenameTokens ++ new) :=
        append_assoc ..
      exact congrArg (fun l => Except.ok { s.afterHeader line new bounds with filenameTokens := l })
        htokens

theorem readAttachment_of_not_saves (junk : Junk) (hs : s.Staged) (h : saves s line = false) :
    ∃ t : Scan, (∀ tokens, readAttachment junk (s.prepend tokens) line = .ok (t.prepend tokens)) ∧
      t.attachmentsCnt = s.attachmentsCnt ∧ t.saved = s.saved ∧
      t.filenameTokens = s.filenameTokens := by
  cases hbody : s.attachBodyStartFound with
  | false =>
    refine ⟨{ s with
      attachFound := s.attachFound || attachPattern line
      attachBodyStartFound := (s.attachFound || attachPattern line) && emptyLine line },
      fun tokens => ?_, rfl, rfl, rfl⟩
    exact readAttachment_header (s := s.prepend tokens) hbody
  | true =>
    have hfound := hs hbody
    rw [saves, hfound, hbody, Bool.and_self, Bool.true_and] at h
    refine ⟨{ s with attachmentData := s.attachmentData ++ line }, fun tokens => ?_, rfl, rfl, rfl⟩
    rw [readAttachment_body (by exact hfound) (by exact hbody)]
    exact if_neg (by simp [Scan.prepend, h])

theorem readAttachment_of_saves (junk : Junk) (h : saves s line = true) : ∃ f : List UInt8 → Scan,
    (∀ tokens, readAttachment junk (s.prepend tokens) line =
      (nameFrom junk s.attachmentsCnt (tokens.flatten ++ s.filenameTokens.flatten)).map f) ∧
      ∀ name, (f name).saved = s.saved ++ [(name, decodeData junk s.attachmentData)] := by
  obtain ⟨hstate, hclose⟩ := Bool.and_eq_true_iff.mp h
  obtain ⟨hfound, hbody⟩ := Bool.and_eq_true_iff.mp hstate
  refine ⟨fun name => { s with
    attachFound := false, attachBodyStartFound := false, attachmentsCnt := s.attachmentsCnt + 1,
    saved := s.saved ++ [(name, decodeData junk s.attachmentData)], attachmentData := [],
    filenameTokens := [] }, fun tokens => ?_, fun name => rfl⟩
  have hname : getAttachFilename (s.attachmentsCnt + 1) (tokens ++ s.filenameTokens) =
      getAttachFilename (s.attachmentsCnt + 1) [tokens.flatten ++ s.filenameTokens.flatten] := by
    simp [getAttachFilename]
  rw [readAttachment_body (by exact hfound) (by exact hbody)]
  refine (if_pos hclose).trans ?_
  rw [nameFrom, ← hname]
  rfl

theorem saved_isPrefix_readAttachment (hs : s.Staged) (h : readAttachment junk s line = .ok t) :
    s.saved <+: t.saved := by
  have hself : s.prepend [] = s := rfl
  cases hsaves : saves s line with
  | false =>
    obtain ⟨u, hu, -, hsaved, -⟩ := readAttachment_of_not_saves junk hs hsaves
    rw [← hself, hu] at h
    cases h
    show s.saved <+: u.saved
    rw [hsaved]
  | true =>
    obtain ⟨f, hf, hsaved⟩ := readAttachment_of_saves junk hsaves
    rw [← hself, hf] at h
    cases hname : nameFrom junk s.attachmentsCnt _ with
    | error e =>
      rw [hname] at h
      cases h
    | ok name =>
      rw [hname] at h
      cases h
      rw [hsaved]
      exact prefix_append _ _

theorem saved_isPrefix (hs : s.Staged) (h : mainLoop junk s lines = .ok t) :
    s.saved <+: t.saved := by
  induction lines generalizing s with
  | nil =>
    cases h
    exact prefix_rfl
  | cons raw lines ih =>
    obtain ⟨u, hu, h⟩ := bind_eq_ok.mp h
    obtain ⟨v, hv, hread⟩ := processLine_ok_iff.mp hu
    have hsaved := saved_isPrefix_readAttachment (hs.readHeader hv) hread
    obtain ⟨names, bounds, -, -, rfl⟩ := readHeader_ok_iff.mp hv
    exact hsaved.trans (ih (hs.processLine hu) h)

theorem processLine_prepend (junk : Junk) (hs : s.Staged) (raw : List UInt8)
    (lines : List (List UInt8)) :
    (∃ e, ∀ tokens, processLine junk (s.prepend tokens) raw = .error e) ∨
      (∃ t : Scan, t.Staged ∧ t.attachmentsCnt = s.attachmentsCnt ∧ t.saved = s.saved ∧
        textBehind junk s (raw :: lines) = textBehind junk t lines ∧
        ∀ tokens, processLine junk (s.prepend tokens) raw = .ok (t.prepend tokens)) ∨
      ∃ (own : List UInt8) (data : List UInt8) (f : List UInt8 → Scan),
        textBehind junk s (raw :: lines) = some own ∧
        (∀ name, (f name).saved = s.saved ++ [(name, data)]) ∧
        ∀ tokens, processLine junk (s.prepend tokens) raw =
          (nameFrom junk s.attachmentsCnt (tokens.flatten ++ own)).map f := by
  obtain ⟨line, hline⟩ : ∃ line, removeCarriageReturnIfNeeded raw = line := ⟨_, rfl⟩
  have hsplit : ∀ tokens, processLine junk (s.prepend tokens) raw =
      (readHeader s line).bind fun t => readAttachment junk (t.prepend tokens) line := by
    intro tokens
    rw [processLine, hline, readHeader_prepend]
    cases readHeader s line <;> rfl
  simp only [hsplit, textBehind, hline]
  cases hread : readHeader s line with
  | error e => exact .inl ⟨e, fun tokens => rfl⟩
  | ok t =>
    have ht : t.Staged := hs.readHeader hread
    have hcnt : t.attachmentsCnt = s.attachmentsCnt ∧ t.saved = s.saved := by
      obtain ⟨names, bounds, -, -, rfl⟩ := readHeader_ok_iff.mp hread
      exact ⟨rfl, rfl⟩
    cases hsaves : saves t line with
    | false =>
      obtain ⟨u, hu, hucnt, husaved, -⟩ := readAttachment_of_not_saves junk ht hsaves
      have hplain : readAttachment junk t line = .ok u := hu []
      refine .inr (.inl ⟨u, ht.readAttachment hplain, hucnt.trans hcnt.1, husaved.trans hcnt.2, ?_,
        fun tokens => hu tokens⟩)
      simp [hsaves, hplain]
    | true =>
      obtain ⟨f, hf, hsaved⟩ := readAttachment_of_saves junk hsaves
      refine .inr (.inr ⟨t.filenameTokens.flatten, decodeData junk t.attachmentData, f, ?_, ?_, ?_⟩)
      · simp [hsaves]
      · rw [← hcnt.2]
        exact hsaved
      · rw [← hcnt.1]
        exact hf

variable {tokens₁ tokens₂ : List (List UInt8)}

theorem saved_of_prepend (hs : s.Staged) (h : ∀ own ∈ textBehind junk s lines,
      nameFrom junk s.attachmentsCnt (tokens₁.flatten ++ own) =
        nameFrom junk s.attachmentsCnt (tokens₂.flatten ++ own)) :
    (mainLoop junk (s.prepend tokens₁) lines).map Scan.saved =
      (mainLoop junk (s.prepend tokens₂) lines).map Scan.saved := by
  induction lines generalizing s with
  | nil => rfl
  | cons raw lines ih =>
    rw [mainLoop_cons, mainLoop_cons]
    obtain ⟨e, he⟩ | ⟨t, ht, hcnt, -, htext, hstep⟩ | ⟨own, data, f, htext, -, hstep⟩ :=
      processLine_prepend junk hs raw lines
    · rw [he, he]
    · rw [hstep, hstep]
      refine ih ht fun own hown => ?_
      rw [hcnt]
      exact h own (htext ▸ hown)
    · rw [hstep, hstep, h own htext]

theorem name_of_saved {v₁ v₂ : Scan} (hs : s.Staged)
    (h₁ : mainLoop junk (s.prepend tokens₁) lines = .ok v₁)
    (h₂ : mainLoop junk (s.prepend tokens₂) lines = .ok v₂) (hsaved : v₁.saved = v₂.saved) :
    ∀ own ∈ textBehind junk s lines, nameFrom junk s.attachmentsCnt (tokens₁.flatten ++ own) =
      nameFrom junk s.attachmentsCnt (tokens₂.flatten ++ own) := by
  induction lines generalizing s with
  | nil =>
    intro own hown
    cases hown
  | cons raw lines ih =>
    obtain ⟨u₁, hu₁, h₁⟩ := bind_eq_ok.mp h₁
    obtain ⟨u₂, hu₂, h₂⟩ := bind_eq_ok.mp h₂
    obtain ⟨e, he⟩ | ⟨t, ht, hcnt, -, htext, hstep⟩ | ⟨own, data, f, htext, hf, hstep⟩ :=
      processLine_prepend junk hs raw lines
    · rw [he] at hu₁
      cases hu₁
    · cases (hstep tokens₁).symm.trans hu₁
      cases (hstep tokens₂).symm.trans hu₂
      rw [htext, ← hcnt]
      exact ih ht h₁ h₂
    · have hstaged : ∀ tokens, (s.prepend tokens).Staged := fun _ => hs
      have hpre₁ := saved_isPrefix ((hstaged tokens₁).processLine hu₁) h₁
      have hpre₂ := saved_isPrefix ((hstaged tokens₂).processLine hu₂) h₂
      rw [hstep] at hu₁ hu₂
      intro own' hown
      cases htext.symm.trans hown
      cases hn₁ : nameFrom junk s.attachmentsCnt (tokens₁.flatten ++ own) with
      | error e =>
        rw [hn₁] at hu₁
        cases hu₁
      | ok name₁ =>
        cases hn₂ : nameFrom junk s.attachmentsCnt (tokens₂.flatten ++ own) with
        | error e =>
          rw [hn₂] at hu₂
          cases hu₂
        | ok name₂ =>
          rw [hn₁] at hu₁
          rw [hn₂] at hu₂
          cases hu₁
          cases hu₂
          -- both are the beginning of what is saved in the end, and as long
          rw [hf] at hpre₁ hpre₂
          rw [← hsaved] at hpre₂
          have heq := prefix_of_prefix_length_le hpre₁ hpre₂ (by simp)
          have hsame := heq.eq_of_length (by simp)
          simp at hsame
          rw [hsame]

end Behind

/-! ### Two versions of a header -/

def PlainText (text : List UInt8) : Prop := text ≠ [] ∧ checkEncoding text = .unknown

theorem nameFrom_plain {junk : Junk} {cnt : Nat} {text : List UInt8} (h : PlainText text) :
    nameFrom junk cnt text = .ok text := by
  have hname : getAttachFilename (cnt + 1) [text] = text := by
    simp [getAttachFilename, h.1]
  rw [nameFrom, hname, decodeName, h.2]

def mailStart : List (List UInt8) :=
  [ascii "Content-Type: multipart/mixed; boundary=\"B\"", ascii "--B"]

def mailRest : List (List UInt8) :=
  [ascii "text", ascii "--B", ascii "Content-Disposition: attachment; filename=\"report.pdf\"", [],
    ascii "QUJD", ascii "--B--"]

def plainHeader : List (List UInt8) := [ascii "Content-Type: text/plain"]

def inlineHeader : List (List UInt8) :=
  [ascii "Content-Disposition: inline; filename=\"logo.png\""]

end LinuxWorkouts.Eml
