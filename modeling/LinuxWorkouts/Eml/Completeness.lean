import LinuxWorkouts.Eml.Robustness

/-!
Which attachments the mail parser saves.

`partsOf` reads the attachments off the lines of a mail: a part is announced by its
`Content-Disposition` line, its header ends with the next empty line, and its body goes up to an
empty line, a boundary line, or the end of the input. The loop follows the same places, so it saves
the parts that are closed, in their order (`saved_eq_closed`); a part that the end of the input
cuts off is never saved (`all_saved_iff`).
-/

namespace LinuxWorkouts.Eml

open Ascii StdString Transition List

/-- An attachment as the mail has it: the lines of its body, and whether a line closes it. -/
structure Part where
  body : List (List UInt8)
  closed : Bool
deriving DecidableEq, Repr

/-- Where a line stands with respect to the attachments. -/
inductive Place where
  | outside
  | header
  | body (lines : List (List UInt8))
deriving DecidableEq, Repr

def declared (line : List UInt8) : List (List UInt8) :=
  match newBoundaries line with
  | .ok bounds => bounds
  | .error _ => []

def Place.announced (line : List UInt8) : Place := if attachPattern line then .header else .outside

/-- The place behind a line; `bounds` are the boundaries declared so far. -/
def Place.next (bounds : List (List UInt8)) (line : List UInt8) : Place → Place
  | .outside => .announced line
  | .header => if emptyLine line then .body [] else .header
  | .body b => if closes bounds line then .announced line else .body (b ++ [line])

def Place.closing (bounds : List (List UInt8)) (line : List UInt8) : Place → List Part
  | .body b => if closes bounds line then [⟨b, true⟩] else []
  | _ => []

def Place.cut : Place → List Part
  | .body b => [⟨b, false⟩]
  | _ => []

/-- The attachments of the lines, from a place and with the boundaries declared before. -/
def partsOf (place : Place) (bounds : List (List UInt8)) : List (List UInt8) → List Part
  | [] => place.cut
  | raw :: lines =>
    let line := removeCarriageReturnIfNeeded raw
    let bounds := bounds ++ declared line
    place.closing bounds line ++ partsOf (place.next bounds line) bounds lines

def Place.Flags (place : Place) (s : Scan) : Prop :=
  match place with
  | .outside => s.attachFound = false ∧ s.attachBodyStartFound = false ∧ s.attachmentData = []
  | .header => s.attachFound = true ∧ s.attachBodyStartFound = false ∧ s.attachmentData = []
  | .body b => s.attachFound = true ∧ s.attachBodyStartFound = true ∧ s.attachmentData = b.flatten

/-- A line that closes an attachment does not announce the next one. -/
def ClosesPlainly (s : Scan) (raw : List UInt8) : Prop :=
  let line := removeCarriageReturnIfNeeded raw
  ∀ t ∈ (readHeader s line).toOption, saves t line → attachPattern line = false

instance (s : Scan) (raw : List UInt8) : Decidable (ClosesPlainly s raw) := by
  unfold ClosesPlainly
  infer_instance

section Places

variable {junk : Junk} {s s' t : Scan} {raw line : List UInt8} {place : Place}
  {lines : List (List UInt8)}

theorem readHeader_places (h : readHeader s line = .ok t) (hp : place.Flags s) :
    place.Flags t ∧ t.boundaries = s.boundaries ++ declared line ∧ t.saved = s.saved := by
  obtain ⟨tokens, bounds, -, hbounds, rfl⟩ := readHeader_ok_iff.mp h
  refine ⟨?_, ?_, rfl⟩
  · cases place <;> exact hp
  · rw [declared, hbounds]
    rfl

def Part.data (junk : Junk) (p : Part) : List UInt8 := decodeData junk p.body.flatten

theorem readAttachment_places (hp : place.Flags s) (h : readAttachment junk s line = .ok t)
    (hplain : saves s line → attachPattern line = false) :
    (place.next s.boundaries line).Flags t ∧ t.boundaries = s.boundaries ∧
      t.saved.map Prod.snd = s.saved.map Prod.snd ++
        (place.closing s.boundaries line).map (Part.data junk) := by
  cases place with
  | outside =>
    obtain ⟨hfound, hbody, hdata⟩ := hp
    rw [readAttachment_header hbody, hfound, Bool.false_or] at h
    cases h
    refine ⟨?_, rfl, (append_nil _).symm⟩
    rw [Place.next, Place.announced]
    split
    · next hannounce =>
        exact ⟨hannounce, by simp [emptyLine_of_attachPattern hannounce], hdata⟩
    · next hannounce =>
        rw [Bool.not_eq_true] at hannounce
        exact ⟨hannounce, by simp [hannounce], hdata⟩
  | header =>
    obtain ⟨hfound, hbody, hdata⟩ := hp
    rw [readAttachment_header hbody, hfound, Bool.true_or, Bool.true_and] at h
    cases h
    refine ⟨?_, rfl, (append_nil _).symm⟩
    rw [Place.next]
    split
    · next hempty => exact ⟨rfl, hempty, hdata⟩
    · next hempty => exact ⟨rfl, Bool.not_eq_true _ ▸ hempty, hdata⟩
  | body b =>
    obtain ⟨hfound, hbody, hdata⟩ := hp
    rw [readAttachment_body hfound hbody] at h
    rw [Place.next, Place.closing]
    split at h
    · next hclose =>
        obtain ⟨name, -, h⟩ := bind_eq_ok.mp h
        cases h
        have hquiet : attachPattern line = false := by
          apply hplain
          rw [saves, hfound, hbody, hclose]
          rfl
        rw [if_pos hclose, if_pos hclose, Place.announced, hquiet]
        refine ⟨⟨rfl, rfl, rfl⟩, rfl, ?_⟩
        rw [map_append, map_singleton, map_singleton, Part.data, hdata]
    · next hopen =>
        cases h
        rw [if_neg hopen, if_neg hopen]
        refine ⟨⟨hfound, hbody, ?_⟩, rfl, (append_nil _).symm⟩
        rw [flatten_append, flatten_singleton]
        exact congrArg (· ++ line) hdata

theorem closing_closed (place : Place) (bounds : List (List UInt8)) (line : List UInt8) :
    (place.closing bounds line).filter Part.closed = place.closing bounds line := by
  cases place with
  | outside => rfl
  | header => rfl
  | body b =>
    rw [Place.closing]
    split <;> rfl

theorem saved_from (hp : place.Flags s) (hplain : Along (lineStep junk) ClosesPlainly s lines)
    (hrun : mainLoop junk s lines = .ok s') :
    s'.saved.map Prod.snd = s.saved.map Prod.snd ++
      ((partsOf place s.boundaries lines).filter Part.closed).map (Part.data junk) := by
  induction lines generalizing s place with
  | nil =>
    cases hrun
    have hcut : place.cut.filter Part.closed = [] := by
      cases place <;> rfl
    rw [partsOf, hcut, map_nil, append_nil]
  | cons raw lines ih =>
    rw [mainLoop_cons] at hrun
    obtain ⟨u, hu, hrun⟩ := bind_eq_ok.mp hrun
    obtain ⟨t, ht, hread⟩ := processLine_ok_iff.mp hu
    obtain ⟨hplace, hbounds, hsaved⟩ := readHeader_places ht hp
    have hquiet := hplain.1
    rw [ClosesPlainly, ht] at hquiet
    obtain ⟨hnext, hsame, hnew⟩ := readAttachment_places hplace hread (hquiet t rfl)
    have hrest := hplain.2 u (lineStep_eq_some.mpr hu)
    rw [hbounds] at hnext hsame hnew
    rw [ih hnext hrest hrun, hnew, hsaved, hsame, partsOf, filter_append, closing_closed,
      map_append, append_assoc]

theorem processLine_outside (hfound : s.attachFound = false)
    (hbody : s.attachBodyStartFound = false)
    (hquiet : attachPattern (removeCarriageReturnIfNeeded raw) = false) :
    processLine junk s raw = readHeader s (removeCarriageReturnIfNeeded raw) := by
  rw [processLine]
  cases hread : readHeader s (removeCarriageReturnIfNeeded raw) with
  | error e => rfl
  | ok t =>
    obtain ⟨tokens, bounds, -, -, rfl⟩ := readHeader_ok_iff.mp hread
    show readAttachment junk _ _ = _
    rw [readAttachment_header (by exact hbody), hquiet]
    simp [Scan.afterHeader, hfound, hbody]

theorem saved_of_quiet (hfound : s.attachFound = false) (hbody : s.attachBodyStartFound = false)
    (hquiet : ∀ raw ∈ lines, attachPattern (removeCarriageReturnIfNeeded raw) = false)
    (hrun : mainLoop junk s lines = .ok s') : s'.saved = s.saved := by
  induction lines generalizing s with
  | nil =>
    cases hrun
    rfl
  | cons raw lines ih =>
    obtain ⟨hraw, hrest⟩ := forall_mem_cons.mp hquiet
    rw [mainLoop_cons, processLine_outside hfound hbody hraw] at hrun
    obtain ⟨t, ht, hrun⟩ := bind_eq_ok.mp hrun
    obtain ⟨tokens, bounds, -, -, rfl⟩ := readHeader_ok_iff.mp ht
    exact ih (s := s.afterHeader _ tokens bounds) hfound hbody hrest hrun

theorem saved_of_closing {before after : List (List UInt8)}
    (hbefore : mainLoop junk .start before = .ok s)
    (ht : readHeader s (removeCarriageReturnIfNeeded raw) = .ok t)
    (hsaves : saves t (removeCarriageReturnIfNeeded raw))
    (hquiet : ∀ raw ∈ after, attachPattern (removeCarriageReturnIfNeeded raw) = false)
    (hrun : mainLoop junk .start (before ++ raw :: after) = .ok s') :
    s'.saved.length = s.saved.length + 1 := by
  rw [mainLoop_append, hbefore] at hrun
  change (processLine junk s raw).bind _ = _ at hrun
  obtain ⟨u, hu, hrun⟩ := bind_eq_ok.mp hrun
  obtain ⟨t', ht', hread⟩ := processLine_ok_iff.mp hu
  cases ht.symm.trans ht'
  obtain ⟨hstate, hclose⟩ := Bool.and_eq_true_iff.mp hsaves
  obtain ⟨hfound, hbody⟩ := Bool.and_eq_true_iff.mp hstate
  rw [readAttachment_body hfound hbody, if_pos hclose] at hread
  obtain ⟨name, -, hread⟩ := bind_eq_ok.mp hread
  cases hread
  rw [saved_of_quiet rfl rfl hquiet hrun, length_append]
  obtain ⟨tokens, bounds, -, -, rfl⟩ := readHeader_ok_iff.mp ht
  rfl

end Places

theorem saved_eq_closed {junk : Junk} {lines : List (List UInt8)} {s' : Scan}
    (hrun : mainLoop junk .start lines = .ok s')
    (hplain : Along (lineStep junk) ClosesPlainly .start lines) :
    s'.saved.map Prod.snd =
      ((partsOf .outside [] lines).filter Part.closed).map (Part.data junk) := by
  have hstart : Place.outside.Flags .start := ⟨rfl, rfl, rfl⟩
  exact saved_from hstart hplain hrun

def Part.counts (p : Part) : Bool := p.closed || !p.body.isEmpty

/-- **Every attachment is saved once iff the input does not end in the body of one**, if no line
closes one attachment and announces another. If a line does and none behind it announces one again,
the attachment it closes is the last one that is saved. -/
theorem all_saved_iff (junk : Junk) (lines : List (List UInt8)) (s' : Scan)
    (hrun : mainLoop junk .start lines = .ok s') :
    (Along (lineStep junk) ClosesPlainly .start lines →
      (s'.saved.map Prod.snd =
          ((partsOf .outside [] lines).filter Part.counts).map (Part.data junk) ↔
        ∀ p ∈ partsOf .outside [] lines, p.body ≠ [] → p.closed = true)) ∧
    ∀ (before after : List (List UInt8)) (raw : List UInt8) (s t : Scan),
      lines = before ++ raw :: after → mainLoop junk .start before = .ok s →
      readHeader s (removeCarriageReturnIfNeeded raw) = .ok t →
      saves t (removeCarriageReturnIfNeeded raw) →
      (∀ raw ∈ after, attachPattern (removeCarriageReturnIfNeeded raw) = false) →
      s'.saved.length = s.saved.length + 1 := by
  refine ⟨fun hplain => ?_, fun before after raw s t hlines hbefore ht hsaves hquiet =>
    saved_of_closing hbefore ht hsaves hquiet (hlines ▸ hrun)⟩
  rw [saved_eq_closed hrun hplain]
  constructor
  · intro h p hp hbody
    -- the closed parts are among those that count, and there are as many of them
    have hsub : List.Sublist ((partsOf .outside [] lines).filter Part.closed)
        ((partsOf .outside [] lines).filter Part.counts) := by
      apply monotone_filter_right
      intro q hq
      rw [Part.counts, hq, Bool.true_or]
    have hlen := congrArg length h
    rw [length_map, length_map] at hlen
    have hcounts : p ∈ (partsOf .outside [] lines).filter Part.counts := by
      rw [mem_filter]
      exact ⟨hp, by simp [Part.counts, hbody]⟩
    rw [← hsub.eq_of_length hlen] at hcounts
    exact (mem_filter.mp hcounts).2
  · intro h
    congr 1
    apply filter_congr
    intro p hp
    cases hbody : p.body with
    | nil => simp [Part.counts, hbody]
    | cons line body => simp [Part.counts, h p hp (by simp [hbody])]

def closedMail : List (List UInt8) :=
  [ascii "Content-Type: multipart/mixed; boundary=\"B\"", ascii "--B",
    ascii "Content-Disposition: attachment; filename=\"a.txt\"", [], ascii "QUJD", ascii "--B--"]

theorem all_saved_closedMail :
    ∃ s', mainLoop .clear .start closedMail = .ok s' ∧ s'.saved.map Prod.snd =
      ((partsOf .outside [] closedMail).filter Part.counts).map (Part.data .clear) := by
  have hreturns : (mainLoop .clear .start closedMail).isOk := by decide +kernel
  cases hrun : mainLoop .clear .start closedMail with
  | error e =>
    rw [hrun] at hreturns
    cases hreturns
  | ok s' =>
    exact ⟨s', rfl, ((all_saved_iff .clear closedMail s' hrun).1 (by decide +kernel)).mpr
      (by decide +kernel)⟩

/-- The same attachment without a line behind it: nothing is saved. -/
theorem cut_not_saved :
    (mainLoop .clear .start closedMail.dropLast).map Scan.saved = .ok [] ∧
      partsOf .outside [] closedMail.dropLast = [⟨[ascii "QUJD"], false⟩] := by
  decide +kernel

end LinuxWorkouts.Eml
