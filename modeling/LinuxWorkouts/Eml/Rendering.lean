import LinuxWorkouts.Eml.Robustness

/-!
The mail parser reads back what is rendered.

`render` writes a mail with a list of attachments; `Boundary` and `Attachment` carry the conditions
on the texts that go into it. Each line of a rendered mail has a lemma that says what the loop does
with it (`processLine_contentType`, `processLine_disposition`, `processLine_body`,
`processLine_delimiter`), and `scanAt` is the state between two parts, in which at most
one attachment is still open. `saved_of_render` puts them together for any list of attachments.
-/

namespace LinuxWorkouts.Eml

open Ascii StdString Search List

/-! ### Rendered mails -/

def isBoundaryChar (c : UInt8) : Bool :=
  (ofChar 'a' ≤ c && c ≤ ofChar 'z') || (ofChar 'A' ≤ c && c ≤ ofChar 'Z') ||
    (ofChar '0' ≤ c && c ≤ ofChar '9') || c == ofChar '_' || c == ofChar '-'

structure Boundary where
  text : List UInt8
  chars : ∀ c ∈ text, isBoundaryChar c
  noFilename : filenameIcase text = false

def isBodyChar (c : UInt8) : Bool := c ∈ encodingTable || c == ofChar '='

/-- `blank` says whether an empty line follows the body. -/
structure Attachment where
  name : List UInt8
  body : List (List UInt8)
  blank : Bool
  name_ne : name ≠ []
  name_chars : ∀ c ∈ name, c ≠ ofChar '=' ∧ c ≠ quote ∧ c ≠ ofChar ';' ∧ c ≠ apostrophe
  body_ne : body ≠ []
  line_ne : ∀ line ∈ body, line ≠ []
  line_chars : ∀ line ∈ body, ∀ c ∈ line, isBodyChar c
  line_noFilename : ∀ line ∈ body, filenameIcase line = false
  line_noBoundary : ∀ line ∈ body, boundPattern line = false

def contentTypeHead : List UInt8 := ascii "Content-Type: multipart/mixed; boundary="

def contentTypeLine (b : Boundary) : List UInt8 := contentTypeHead ++ quote :: (b.text ++ [quote])

def dispositionHead : List UInt8 := ascii "Content-Disposition: attachment; filename="

def dispositionLine (name : List UInt8) : List UInt8 :=
  dispositionHead ++ quote :: (name ++ [quote])

def delimiterLine (b : Boundary) : List UInt8 := ascii "--" ++ b.text

def closingLine (b : Boundary) : List UInt8 := ascii "--" ++ b.text ++ ascii "--"

def renderAttachment (b : Boundary) (a : Attachment) : List (List UInt8) :=
  [delimiterLine b, dispositionLine a.name, []] ++ a.body ++ (if a.blank then [[]] else [])

def render (b : Boundary) (attachments : List Attachment) (closing : Bool) : List (List UInt8) :=
  contentTypeLine b :: attachments.flatMap (renderAttachment b) ++
    (if closing then [closingLine b] else [])

/-- Something follows the last body: an empty line or the closing delimiter. -/
def Terminated (attachments : List Attachment) (closing : Bool) : Prop :=
  closing = true ∨ ∀ a ∈ attachments.getLast?, a.blank = true

/-! ### The texts of the lines -/

variable {w : String} {head value : List UInt8}

section Texts

variable {b : Boundary} {line x y : List UInt8} {c : UInt8}

theorem removeCarriageReturn_of_ne (h : line.getLast? ≠ some 13) :
    removeCarriageReturnIfNeeded line = line := if_neg h

theorem removeCarriageReturn_of_chars (h : 13 ∉ line) : removeCarriageReturnIfNeeded line = line :=
  removeCarriageReturn_of_ne fun hlast => h (mem_of_getLast? hlast)

theorem filenamePattern_of_icase (h : filenameIcase line = false) :
    filenamePattern line = false := by
  have hword : ∀ w : String, (ascii w).map toLower = ascii "filenam" → contains line w = false := by
    intro w hw
    rw [contains, decide_eq_false_iff_not]
    intro hpart
    rw [filenameIcase, contains, decide_eq_false_iff_not] at h
    exact h (hw ▸ hpart.map toLower)
  have hlower : contains line "filenam" = false := hword _ (by rw [ascii_ofList]; decide)
  have hcamel : contains line "FileNam" = false :=
    hword _ (by rw [ascii_ofList, ascii_ofList]; decide)
  have hupper : contains line "FILENAM" = false :=
    hword _ (by rw [ascii_ofList, ascii_ofList]; decide)
  rw [filenamePattern, hlower, hcamel, hupper]
  rfl

theorem contains_append_cons (hc : c ∉ ascii w) :
    contains (x ++ c :: y) w = (contains x w || contains y w) := by
  rw [Bool.eq_iff_iff, Bool.or_eq_true, contains, contains, contains, decide_eq_true_eq,
    decide_eq_true_eq, decide_eq_true_eq, infix_append_cons hc]

theorem filenameIcase_append_cons (hc : toLower c ∉ ascii "filenam") :
    filenameIcase (x ++ c :: y) = (filenameIcase x || filenameIcase y) := by
  rw [filenameIcase, map_append, map_cons, contains_append_cons hc]
  rfl

theorem boundPattern_nil : boundPattern [] = false := by
  rw [boundPattern, contains, ascii_ofList]
  decide

theorem filenameIcase_nil : filenameIcase [] = false := by
  rw [filenameIcase, contains, ascii_ofList]
  decide

theorem contains_eq_false (hw : c ∈ ascii w) (hc : c ∉ line) : contains line w = false := by
  rw [contains, decide_eq_false_iff_not]
  exact fun h => hc (h.subset hw)

/-! Both header lines are a head and a value between quotes. -/

theorem quoted_kept (head value : List UInt8) :
    removeCarriageReturnIfNeeded (head ++ quote :: (value ++ [quote])) =
      head ++ quote :: (value ++ [quote]) := by
  apply removeCarriageReturn_of_ne
  have hend : head ++ quote :: (value ++ [quote]) = (head ++ quote :: value) ++ [quote] := by
    rw [append_assoc, cons_append]
  rw [hend, getLast?_concat]
  decide

theorem contains_quoted (hquote : quote ∉ ascii w) (hw : ascii w ≠ []) :
    contains (head ++ quote :: (value ++ [quote])) w = (contains head w || contains value w) := by
  have hnil : contains [] w = false := by
    rw [contains, decide_eq_false_iff_not, infix_nil]
    exact hw
  rw [contains_append_cons hquote, contains_append_cons hquote, hnil, Bool.or_false]

theorem filenameIcase_quoted :
    filenameIcase (head ++ quote :: (value ++ [quote])) =
      (filenameIcase head || filenameIcase value) := by
  have hquote : toLower quote ∉ ascii "filenam" := by
    rw [ascii_ofList]
    decide
  rw [filenameIcase_append_cons hquote, filenameIcase_append_cons hquote, filenameIcase_nil,
    Bool.or_false]

theorem contains_quoted_of_head (hw : ascii w <:+: head) :
    contains (head ++ quote :: (value ++ [quote])) w = true := by
  rw [contains, decide_eq_true_eq]
  exact hw.trans (prefix_append _ _).isInfix

theorem Boundary.not_mem (b : Boundary) (hc : isBoundaryChar c = false) : c ∉ b.text := by
  intro h
  rw [b.chars c h] at hc
  cases hc

theorem getBoundaryVal_quoted {p t : List UInt8} {q r : UInt8} (hp : ofChar '=' ∉ p) :
    getBoundaryVal (p ++ ofChar '=' :: q :: (t ++ [r])) = .ok t := by
  let text := p ++ ofChar '=' :: q :: (t ++ [r])
  have hlen : text.length = p.length + 3 + t.length := by
    simp only [text, length_append, length_cons, length_nil]
    omega
  have hdrop : text.drop (p.length + 2) = t ++ [r] := by
    have hsplit : text = (p ++ [ofChar '=', q]) ++ (t ++ [r]) := by
      simp only [text, append_assoc, cons_append, nil_append]
    have hcut : p.length + 2 = (p ++ [ofChar '=', q]).length := by
      rw [length_append]
      rfl
    rw [hsplit, hcut, drop_left]
  rw [getBoundaryVal, find_append_cons hp]
  show substr text (p.length + 2) (sizeSub text.length (p.length + 3)) = .ok t
  rw [substr_of_le (by omega), hdrop, hlen, sizeSub, if_pos (by omega), Nat.add_sub_cancel_left,
    take_left]

theorem getFilenameVal_quoted {p name : List UInt8} (hp : ofChar '=' ∉ p) :
    getFilenameVal (p ++ ofChar '=' :: quote :: (name ++ [quote])) = .ok name := by
  let text := p ++ ofChar '=' :: quote :: (name ++ [quote])
  have hvalue : valueText text = quote :: (name ++ [quote]) := by
    have hsplit : text = (p ++ [ofChar '=']) ++ (quote :: (name ++ [quote])) := by
      simp only [text, append_assoc, cons_append, nil_append]
    have hcut : p.length + 1 = (p ++ [ofChar '=']).length := by
      rw [length_append]
      rfl
    rw [valueText, find_append_cons hp, past, hsplit, hcut, drop_left]
  have hlast : text.getLast? = some quote := by
    have hsplit : text = (p ++ ofChar '=' :: quote :: name) ++ [quote] := by
      simp only [text, append_assoc, cons_append]
    rw [hsplit, getLast?_concat]
  have hne : text ≠ [] := by
    intro h
    rw [h] at hlast
    cases hlast
  have hfile : filenameText text = quote :: (name ++ [quote]) := by
    have hsemicolon : text.getLast? ≠ some (ofChar ';') := by
      rw [hlast]
      decide
    rw [filenameText, if_neg hsemicolon, hvalue]
  rw [getFilenameVal_eq hne, hfile, delQuotesIfNeeded]
  show (back (name ++ [quote])).bind _ = _
  rw [back_concat]
  show Except.ok (if quote = quote then (name ++ [quote]).dropLast else name ++ [quote]) = .ok name
  rw [if_pos rfl, dropLast_concat]

theorem decodeName_plain {junk : Junk} {name : List UInt8} (heq : ofChar '=' ∉ name)
    (hapostrophe : apostrophe ∉ name) : decodeName junk name = .ok name := by
  have h2047 : hint2047 name = false := by
    rw [Bool.eq_false_iff, hint2047, ne_eq, contains_eq_iff]
    exact heq
  have h2231 : hint2231 name = false := by
    rw [Bool.eq_false_iff, hint2231, ne_eq, gapTest_iff]
    rintro ⟨u, v, rfl, -⟩
    exact hapostrophe (mem_append_right u (mem_append_left v (by decide)))
  rw [decodeName, checkEncoding, h2047, h2231]
  rfl

end Texts

/-! ### What the loop does with each line -/

def Attachment.entry (junk : Junk) (a : Attachment) : List UInt8 × List UInt8 :=
  (a.name, decodeData junk a.body.flatten)

/-- The state in the body of an attachment, behind the attachments `done`. -/
def reading (junk : Junk) (b : Boundary) (done : List Attachment) (a : Attachment)
    (data : List UInt8) : Scan :=
  ⟨true, true, false, data, [delimiterLine b], [], [a.name], done.length, done.map (·.entry junk)⟩

/-- The state between two parts; the body of `current` has been read and not been closed. -/
def scanAt (junk : Junk) (b : Boundary) (done : List Attachment) : Option Attachment → Scan
  | none =>
    ⟨false, false, false, [], [delimiterLine b], [], [], done.length, done.map (·.entry junk)⟩
  | some a => reading junk b done a a.body.flatten

section Lines

variable {junk : Junk} {b : Boundary} {done : List Attachment} {a : Attachment}
  {line data : List UInt8}

def IsDelimiter (b : Boundary) (line : List UInt8) : Prop :=
  line = delimiterLine b ∨ line = closingLine b

section

variable (h : IsDelimiter b line)
include h

theorem IsDelimiter.not_mem {c : UInt8} (hc : isBoundaryChar c = false) : c ∉ line := by
  have hdash : c ∉ ascii "--" := by
    intro hmem
    have hboundary : ∀ d ∈ ascii "--", isBoundaryChar d := by
      rw [ascii_ofList]
      simp [ofChar, isBoundaryChar]
    rw [hboundary c hmem] at hc
    cases hc
  rcases h with rfl | rfl
  · rw [delimiterLine, mem_append, not_or]
    exact ⟨hdash, b.not_mem hc⟩
  · rw [closingLine, mem_append, mem_append, not_or, not_or]
    exact ⟨⟨hdash, b.not_mem hc⟩, hdash⟩

theorem IsDelimiter.noFilename : filenamePattern line = false := by
  have hdash : toLower (ofChar '-') ∉ ascii "filenam" := by
    rw [ascii_ofList]
    decide
  have hfront : ∀ x, filenameIcase (ascii "--" ++ x) = filenameIcase x := by
    intro x
    have hsplit : ascii "--" ++ x = [] ++ ofChar '-' :: ([] ++ ofChar '-' :: x) := by
      rw [nil_append, nil_append]
      rfl
    rw [hsplit, filenameIcase_append_cons hdash, filenameIcase_append_cons hdash,
      filenameIcase_nil, Bool.false_or, Bool.false_or]
  apply filenamePattern_of_icase
  rcases h with rfl | rfl
  · rw [delimiterLine, hfront, b.noFilename]
  · have hback : filenameIcase (b.text ++ ascii "--") = false := by
      have hsplit : b.text ++ ascii "--" = b.text ++ ofChar '-' :: [ofChar '-'] := rfl
      rw [hsplit, filenameIcase_append_cons hdash, b.noFilename, Bool.false_or, filenameIcase,
        contains, ascii_ofList]
      decide
    rw [closingLine, append_assoc, hfront, hback]

theorem IsDelimiter.noBoundary : boundPattern line = false :=
  contains_eq_false (c := ofChar '=') (by rw [ascii_ofList]; decide) (h.not_mem (by decide))

theorem IsDelimiter.noAttachment : attachPattern line = false :=
  contains_eq_false (c := ofChar ' ') (by rw [ascii_ofList]; decide) (h.not_mem (by decide))

theorem IsDelimiter.kept : removeCarriageReturnIfNeeded line = line :=
  removeCarriageReturn_of_chars (h.not_mem (by decide))

theorem IsDelimiter.closes : closes [delimiterLine b] line = true := by
  have hpart : delimiterLine b <:+: line := by
    rcases h with rfl | rfl
    · exact infix_rfl
    · exact (prefix_append _ _).isInfix
  rw [Eml.closes, containAnyBoundary, any_cons, decide_eq_true hpart, Bool.true_or, Bool.or_true]

end

theorem contentType_noFilename (b : Boundary) : filenamePattern (contentTypeLine b) = false := by
  have hhead : filenameIcase contentTypeHead = false := by
    rw [filenameIcase, contains, contentTypeHead, ascii_ofList, ascii_ofList]
    decide
  apply filenamePattern_of_icase
  rw [contentTypeLine, filenameIcase_quoted, hhead, b.noFilename]
  rfl

theorem contentType_noAttachment (b : Boundary) : attachPattern (contentTypeLine b) = false := by
  have hhead : contains contentTypeHead "Content-Disposition: attachmen" = false := by
    rw [contains, contentTypeHead, ascii_ofList, ascii_ofList]
    decide
  have htext : contains b.text "Content-Disposition: attachmen" = false :=
    contains_eq_false (c := ofChar ' ') (by rw [ascii_ofList]; decide) (b.not_mem (by decide))
  have hquote : quote ∉ ascii "Content-Disposition: attachmen" := by
    rw [ascii_ofList]
    decide
  rw [attachPattern, contentTypeLine, contains_quoted hquote (by rw [ascii_ofList]; decide), hhead,
    htext]
  rfl

theorem contentType_boundaries (b : Boundary) :
    newBoundaries (contentTypeLine b) = .ok [delimiterLine b] := by
  have hbound : boundPattern (contentTypeLine b) = true :=
    contains_quoted_of_head (by rw [contentTypeHead, ascii_ofList, ascii_ofList]; decide)
  have hval : getBoundaryVal (contentTypeLine b) = .ok b.text := by
    have hcut : contentTypeHead =
        ascii "Content-Type: multipart/mixed; boundary" ++ [ofChar '='] := by
      rw [contentTypeHead, ascii_ofList, ascii_ofList]
      rfl
    rw [contentTypeLine, hcut, append_assoc, singleton_append]
    exact getBoundaryVal_quoted (by rw [ascii_ofList]; decide)
  rw [newBoundaries, hbound, hval]
  rfl

theorem processLine_contentType (junk : Junk) (b : Boundary) :
    processLine junk .start (contentTypeLine b) = .ok (scanAt junk b [] none) := by
  have hheader : readHeader .start (contentTypeLine b) = .ok (scanAt junk b [] none) := by
    refine readHeader_ok_iff.mpr ⟨[], [delimiterLine b], rfl, contentType_boundaries b, ?_⟩
    rw [Scan.afterHeader, contentType_noFilename, nextFilename, contentType_noFilename]
    rfl
  have hkept : removeCarriageReturnIfNeeded (contentTypeLine b) = contentTypeLine b :=
    quoted_kept _ _
  rw [processLine, hkept]
  refine bind_eq_ok.mpr ⟨_, hheader, ?_⟩
  rw [readAttachment_header rfl, contentType_noAttachment]
  rfl

theorem processLine_closes (hkept : removeCarriageReturnIfNeeded line = line)
    (hnofile : filenamePattern line = false) (hnobound : boundPattern line = false)
    (hcloses : closes [delimiterLine b] line = true) :
    processLine junk (scanAt junk b done (some a)) line =
      .ok (scanAt junk b (done ++ [a]) none) := by
  have hname : decodeName junk (getAttachFilename (done.length + 1) [a.name]) = .ok a.name := by
    have hflat : [a.name].flatten = a.name := flatten_singleton
    rw [getAttachFilename, hflat, if_neg a.name_ne]
    exact decodeName_plain (fun h => (a.name_chars _ h).1 rfl) fun h => (a.name_chars _ h).2.2.2 rfl
  rw [processLine, hkept]
  refine bind_eq_ok.mpr ⟨_, readHeader_plain rfl hnofile hnobound, ?_⟩
  rw [readAttachment_body rfl rfl]
  show (if closes [delimiterLine b] line then _ else _) = _
  rw [if_pos hcloses]
  refine bind_eq_ok.mpr ⟨a.name, hname, ?_⟩
  rw [scanAt, length_append, map_append]
  rfl

theorem processLine_delimiter (current : Option Attachment) (h : IsDelimiter b line) :
    processLine junk (scanAt junk b done current) line =
      .ok (scanAt junk b (done ++ current.toList) none) := by
  cases current with
  | none =>
    rw [Option.toList_none, append_nil]
    apply processLine_plain rfl rfl rfl
    · rw [h.kept, h.noAttachment]
    · rw [h.kept, h.noFilename]
    · rw [h.kept, h.noBoundary]
  | some a => exact processLine_closes h.kept h.noFilename h.noBoundary h.closes

theorem disposition_filename (name : List UInt8) :
    filenamePattern (dispositionLine name) = true := by
  have hword : contains (dispositionLine name) "filenam" = true :=
    contains_quoted_of_head (by rw [dispositionHead, ascii_ofList, ascii_ofList]; decide)
  rw [filenamePattern, hword, Bool.true_or, Bool.true_or]

theorem disposition_attachment (name : List UInt8) : attachPattern (dispositionLine name) = true :=
  contains_quoted_of_head (by rw [dispositionHead, ascii_ofList, ascii_ofList]; decide)

theorem disposition_noBoundary (a : Attachment) :
    boundPattern (dispositionLine a.name) = false := by
  have hhead : contains dispositionHead "boundary=" = false := by
    rw [contains, dispositionHead, ascii_ofList, ascii_ofList]
    decide
  have hname : contains a.name "boundary=" = false :=
    contains_eq_false (c := ofChar '=') (by rw [ascii_ofList]; decide) fun h =>
      (a.name_chars _ h).1 rfl
  have hquote : quote ∉ ascii "boundary=" := by
    rw [ascii_ofList]
    decide
  rw [boundPattern, dispositionLine, contains_quoted hquote (by rw [ascii_ofList]; decide), hhead,
    hname]
  rfl

theorem disposition_value (name : List UInt8) :
    getFilenameVal (dispositionLine name) = .ok name := by
  have hcut : dispositionHead =
      ascii "Content-Disposition: attachment; filename" ++ [ofChar '='] := by
    rw [dispositionHead, ascii_ofList, ascii_ofList]
    rfl
  rw [dispositionLine, hcut, append_assoc, singleton_append]
  exact getFilenameVal_quoted (by rw [ascii_ofList]; decide)

def announced (junk : Junk) (b : Boundary) (done : List Attachment) (a : Attachment) : Scan :=
  ⟨true, false, true, [], [delimiterLine b], dispositionLine a.name, [], done.length,
    done.map (·.entry junk)⟩

theorem processLine_disposition :
    processLine junk (scanAt junk b done none) (dispositionLine a.name) =
      .ok (announced junk b done a) := by
  have hheader : readHeader (scanAt junk b done none) (dispositionLine a.name) =
      .ok { announced junk b done a with attachFound := false } := by
    refine readHeader_ok_iff.mpr ⟨[], [], rfl, ?_, ?_⟩
    · rw [newBoundaries, disposition_noBoundary]
      rfl
    · rw [Scan.afterHeader, nextFilename, disposition_filename]
      rfl
  have hkept : removeCarriageReturnIfNeeded (dispositionLine a.name) = dispositionLine a.name :=
    quoted_kept _ _
  have hattach := disposition_attachment a.name
  rw [processLine, hkept]
  refine bind_eq_ok.mpr ⟨_, hheader, ?_⟩
  rw [readAttachment_header rfl, hattach, emptyLine_of_attachPattern hattach]
  rfl

theorem processLine_headerEnd :
    processLine junk (announced junk b done a) [] = .ok (reading junk b done a []) := by
  have hends : endsFilename (announced junk b done a) [] = true := rfl
  have hnofile : filenamePattern [] = false := filenamePattern_of_icase filenameIcase_nil
  have hbounds : newBoundaries [] = .ok [] := by
    rw [newBoundaries, boundPattern_nil]
    rfl
  have htokens : newTokens (announced junk b done a) [] = .ok [a.name] := by
    rw [newTokens, hends, if_pos rfl, announced, disposition_value]
    rfl
  have hheader : readHeader (announced junk b done a) [] =
      .ok { reading junk b done a [] with attachBodyStartFound := false } := by
    refine readHeader_ok_iff.mpr ⟨[a.name], [], htokens, hbounds, ?_⟩
    rw [Scan.afterHeader, nextFilename, hends, hnofile]
    rfl
  refine processLine_ok_iff.mpr ⟨_, hheader, ?_⟩
  rw [readAttachment_header rfl]
  rfl

theorem mainLoop_header (junk : Junk) (b : Boundary) (done : List Attachment) (a : Attachment) :
    mainLoop junk (scanAt junk b done none) [dispositionLine a.name, []] =
      .ok (reading junk b done a []) := by
  rw [mainLoop_cons, processLine_disposition]
  show (processLine junk (announced junk b done a) []).bind _ = _
  rw [processLine_headerEnd]
  rfl

theorem isBodyChar_ne {c : UInt8} (h : isBodyChar c) :
    c ≠ 10 ∧ c ≠ 13 ∧ c ≠ 32 ∧ c ≠ ofChar '-' := by
  have hout : ∀ x ∈ [10, 13, 32, ofChar '-'], x ∉ encodingTable ++ [ofChar '='] := by
    rw [encodingTable, ascii_ofList]
    decide +kernel
  have hmem : c ∈ encodingTable ++ [ofChar '='] := by
    rw [isBodyChar, Bool.or_eq_true, decide_eq_true_eq, beq_iff_eq] at h
    rw [mem_append, mem_singleton]
    exact h
  have hne : ∀ x ∈ [10, 13, 32, ofChar '-'], c ≠ x := by
    intro x hx heq
    exact hout x hx (heq ▸ hmem)
  exact ⟨hne 10 (by simp), hne 13 (by simp), hne 32 (by simp), hne (ofChar '-') (by simp)⟩

theorem processLine_body (hline : line ∈ a.body) :
    processLine junk (reading junk b done a data) line =
      .ok (reading junk b done a (data ++ line)) := by
  have hchars : ∀ c ∈ line, c ≠ 10 ∧ c ≠ 13 ∧ c ≠ 32 ∧ c ≠ ofChar '-' :=
    fun c hc => isBodyChar_ne (a.line_chars line hline c hc)
  have hkept : removeCarriageReturnIfNeeded line = line :=
    removeCarriageReturn_of_chars fun h => (hchars _ h).2.1 rfl
  have hopen : closes [delimiterLine b] line = false := by
    have hempty : emptyLine line = false := by
      rw [emptyLine, decide_eq_false_iff_not]
      intro hmem
      fin_cases hmem
      · exact a.line_ne _ hline rfl
      all_goals simp at hchars
    have hbounds : containAnyBoundary [delimiterLine b] line = false := by
      rw [containAnyBoundary, any_cons, any_nil, Bool.or_false, decide_eq_false_iff_not]
      intro hpart
      have hdash : ofChar '-' ∈ delimiterLine b := mem_append_left _ (by rw [ascii_ofList]; decide)
      exact (hchars _ (hpart.subset hdash)).2.2.2 rfl
    rw [closes, hempty, hbounds, Bool.or_false]
  have hnofile := filenamePattern_of_icase (a.line_noFilename line hline)
  rw [processLine, hkept]
  refine bind_eq_ok.mpr ⟨_, readHeader_plain rfl hnofile (a.line_noBoundary line hline), ?_⟩
  rw [readAttachment_body rfl rfl]
  show (if closes [delimiterLine b] line then _ else _) = _
  rw [hopen]
  rfl

theorem mainLoop_body {lines : List (List UInt8)} (hlines : ∀ line ∈ lines, line ∈ a.body) :
    mainLoop junk (reading junk b done a data) lines =
      .ok (reading junk b done a (data ++ lines.flatten)) := by
  induction lines generalizing data with
  | nil =>
    rw [flatten_nil, append_nil]
    rfl
  | cons line lines ih =>
    obtain ⟨hline, hrest⟩ := forall_mem_cons.mp hlines
    rw [mainLoop_cons, processLine_body hline, flatten_cons, ← append_assoc]
    exact ih hrest

theorem mainLoop_part (current : Option Attachment) :
    mainLoop junk (scanAt junk b done current) (renderAttachment b a) =
      .ok (if a.blank then scanAt junk b (done ++ current.toList ++ [a]) none
        else scanAt junk b (done ++ current.toList) (some a)) := by
  have hopened : mainLoop junk (scanAt junk b done current)
      ([delimiterLine b, dispositionLine a.name, []] ++ a.body) =
        .ok (scanAt junk b (done ++ current.toList) (some a)) := by
    have hheader := mainLoop_header junk b (done ++ current.toList) a
    rw [cons_append, mainLoop_cons, processLine_delimiter current (.inl rfl)]
    show mainLoop junk _ ([dispositionLine a.name, []] ++ a.body) = _
    rw [mainLoop_append, hheader]
    exact mainLoop_body fun line h => h
  rw [renderAttachment, mainLoop_append, hopened]
  cases a.blank with
  | false => rfl
  | true =>
    have hclose : processLine junk (scanAt junk b (done ++ current.toList) (some a)) [] =
        .ok (scanAt junk b (done ++ current.toList ++ [a]) none) :=
      processLine_closes rfl (filenamePattern_of_icase filenameIcase_nil) boundPattern_nil rfl
    show (processLine junk _ []).bind _ = _
    rw [hclose]
    rfl

/-- The attachment that is open behind some parts: each settles the one before. -/
def openAfter (current : Option Attachment) (attachments : List Attachment) : Option Attachment :=
  attachments.foldl (fun _ a => if a.blank then none else some a) current

theorem openAfter_eq_none {attachments : List Attachment}
    (h : ∀ a ∈ attachments.getLast?, a.blank = true) : openAfter none attachments = none := by
  cases attachments using reverseRecOn with
  | nil => rfl
  | append_singleton attachments a =>
    rw [openAfter, foldl_append]
    exact if_pos (h a getLast?_concat)

theorem mainLoop_parts (attachments : List Attachment) (current : Option Attachment) :
    ∃ done', mainLoop junk (scanAt junk b done current)
        (attachments.flatMap (renderAttachment b)) =
          .ok (scanAt junk b done' (openAfter current attachments)) ∧
      done' ++ (openAfter current attachments).toList = done ++ current.toList ++ attachments := by
  induction attachments generalizing done current with
  | nil => exact ⟨done, rfl, (append_nil _).symm⟩
  | cons a attachments ih =>
    rw [flatMap_cons, mainLoop_append, mainLoop_part, openAfter, foldl_cons]
    cases a.blank with
    | true =>
      obtain ⟨done', hrun, hall⟩ := @ih (done ++ current.toList ++ [a]) none
      refine ⟨done', hrun, hall.trans ?_⟩
      rw [Option.toList_none, append_nil, append_assoc, singleton_append]
    | false =>
      obtain ⟨done', hrun, hall⟩ := @ih (done ++ current.toList) (some a)
      refine ⟨done', hrun, hall.trans ?_⟩
      rw [Option.toList_some, append_assoc, singleton_append]

theorem mainLoop_render (junk : Junk) (b : Boundary) {attachments : List Attachment}
    {closing : Bool}
    (hend : Terminated attachments closing) :
    mainLoop junk .start (render b attachments closing) = .ok (scanAt junk b attachments none) := by
  obtain ⟨done', hrun, hall⟩ := @mainLoop_parts junk b [] attachments none
  rw [Option.toList_none, append_nil, nil_append] at hall
  have hparts : mainLoop junk .start
      (contentTypeLine b :: attachments.flatMap (renderAttachment b)) =
      .ok (scanAt junk b done' (openAfter none attachments)) := by
    rw [mainLoop_cons, processLine_contentType]
    exact hrun
  rw [render, mainLoop_append, hparts]
  cases closing with
  | true =>
    show (processLine junk _ (closingLine b)).bind _ = _
    rw [processLine_delimiter _ (.inr rfl), hall]
    rfl
  | false =>
    have hnone : openAfter none attachments = none := by
      rcases hend with h | h
      · cases h
      · exact openAfter_eq_none h
    rw [hnone, Option.toList_none, append_nil] at hall
    rw [hnone, hall]
    rfl

end Lines

/-- **Extraction inverts rendering.** The loop saves the attachments of a rendered mail once each,
in their order, under their names and with their bodies decoded. -/
theorem saved_of_render (junk : Junk) (b : Boundary) (attachments : List Attachment)
    (closing : Bool)
    (hend : Terminated attachments closing) :
    ∃ s, mainLoop junk .start (render b attachments closing) = .ok s ∧
      s.saved.map (fun p => (p.1, some p.2)) =
        attachments.map fun a => (a.name, base64DecodeToString junk a.body.flatten) := by
  refine ⟨_, mainLoop_render junk b hend, ?_⟩
  rw [scanAt, map_map]
  apply map_congr_left
  intro a _
  -- a body is not empty, so the decoder returns
  have hne : a.body.flatten ≠ [] := by
    obtain ⟨line, rest, hbody⟩ := exists_cons_of_ne_nil a.body_ne
    have hline : line ≠ [] := a.line_ne line (hbody ▸ mem_cons_self)
    rw [hbody, flatten_cons]
    exact append_ne_nil_of_left_ne_nil hline _
  obtain ⟨d, hd⟩ := Option.isSome_iff_exists.mp (base64DecodeToString_isSome junk hne)
  show (a.name, some (decodeData junk a.body.flatten)) = _
  rw [decodeData, hd]
  rfl

/-- A boundary and two attachments, of which the first runs into the delimiter. -/
def sampleBoundary : Boundary := ⟨ascii "b-1", by decide +kernel, by decide +kernel⟩

def sampleAttachment (blank : Bool) : Attachment where
  name := ascii "report 1.pdf"
  body := [ascii "QUJD", ascii "QQ=="]
  blank := blank
  name_ne := by decide +kernel
  name_chars := by decide +kernel
  body_ne := by decide
  line_ne := by decide +kernel
  line_chars := by decide +kernel
  line_noFilename := by decide +kernel
  line_noBoundary := by decide +kernel

theorem saved_of_render_sample :
    Terminated [sampleAttachment false, sampleAttachment true] false ∧
      ∃ s, mainLoop .clear .start
          (render sampleBoundary [sampleAttachment false, sampleAttachment true] false) = .ok s ∧
        s.saved.map (fun p => (p.1, some p.2)) =
          [sampleAttachment false, sampleAttachment true].map fun a =>
            (a.name, base64DecodeToString .clear a.body.flatten) := by
  have hend : Terminated [sampleAttachment false, sampleAttachment true] false := by
    refine .inr fun a ha => ?_
    cases ha
    rfl
  exact ⟨hend, saved_of_render _ _ _ _ hend⟩

end LinuxWorkouts.Eml
