import LinuxWorkouts.Proc.FindSubstr

/-!
`read_status_file` of `file-system/proc/proc_tree.c`.

The lines are read through a `char` buffer, in which the byte 255 is the same as the end of the
file, and each line is searched for `"PPid:"` wherever it stands in it. What `find_substr` finds of
this pattern is said by `findSubstr_ppid_iff`: an occurrence behind an even number of `P`s.
-/

namespace LinuxWorkouts.Proc

open Ascii ForwardSearch List

def PAGE_SIZE : Nat := 4096

def isBlank (c : UInt8) : Bool := c = ofChar ' ' || c = ofChar '\t'

def blankDelimited (text : List UInt8) : List UInt8 :=
  (text.dropWhile isBlank).takeWhile fun c => !isBlank c

/-- What `read_status_file` does: with a buffer that is too short, it writes behind its end. -/
inductive Lookup where
  | notFound
  | found (ppid : List UInt8)
  | overflow
deriving DecidableEq, Repr

/-- `get_ppid_from_line` with a buffer of `size` bytes, one of which is for the terminating zero. -/
def getPpidFromLine (str : List UInt8) (offset size : Nat) : Lookup :=
  if (blankDelimited (str.drop offset)).length < size then
    .found (blankDelimited (str.drop offset))
  else .overflow

/-- The loop of `read_line` with `room` bytes left in the buffer: the line and what follows it when
it returns true. A byte 255 is `EOF` as a `char`. -/
def readLineLoop : List UInt8 → Nat → Option (List UInt8 × List UInt8)
  | _, 0 => none
  | [], _ + 1 => none
  | c :: text, room + 1 =>
    if c = newline then some ([], text)
    else if c = 255 then none
    else (readLineLoop text room).map fun (line, rest) => (c :: line, rest)

def readLine (text : List UInt8) : Option (List UInt8 × List UInt8) := readLineLoop text PAGE_SIZE

variable {line : List UInt8} {e size : Nat} {lines : List (List UInt8)}

theorem readLineLoop_length {text rest : List UInt8} {room : Nat}
    (h : readLineLoop text room = some (line, rest)) : rest.length < text.length := by
  induction text, room using readLineLoop.induct generalizing line with
  | case1 => rw [readLineLoop] at h; cases h
  | case2 => rw [readLineLoop] at h; cases h
  | case3 text room =>
    rw [readLineLoop, if_pos rfl] at h
    cases h
    exact Nat.lt_succ_self _
  | case4 text room hne =>
    rw [readLineLoop, if_neg hne, if_pos rfl] at h
    cases h
  | case5 c text room hne heof ih =>
    rw [readLineLoop, if_neg hne, if_neg heof] at h
    obtain ⟨⟨line, rest⟩, hline, heq⟩ := Option.map_eq_some_iff.mp h
    cases heq
    exact (ih hline).trans (Nat.lt_succ_self _)

/-- `read_status_file` with a buffer of `size` bytes for the value. -/
def readStatusFile (size : Nat) (text : List UInt8) : Lookup :=
  match _h : readLine text with
  | none => .notFound
  | some (line, rest) =>
    match findSubstr (cString line) PPIDPATTERN with
    | some offset => getPpidFromLine (cString line) offset size
    | none => readStatusFile size rest
termination_by text.length
decreasing_by exact readLineLoop_length _h

/-! ### The texts -/

def IsLine (line : List UInt8) : Prop := newline ∉ line ∧ line.length < PAGE_SIZE

/-- The lines of a status text: one of them starts with the key. -/
structure StatusText where
  before : List (List UInt8)
  field : List UInt8
  after : List (List UInt8)
  isLine : ∀ line ∈ before ++ (PPIDPATTERN ++ field) :: after, IsLine line
  others : ∀ line ∈ before ++ after, ¬ PPIDPATTERN <+: line

def textOf (lines : List (List UInt8)) : List UInt8 := lines.flatMap (· ++ [newline])

def StatusText.text (status : StatusText) : List UInt8 :=
  textOf (status.before ++ (PPIDPATTERN ++ status.field) :: status.after)

def StatusText.value (status : StatusText) : List UInt8 := blankDelimited status.field

def leadingPs (str : List UInt8) (s : Nat) : Nat :=
  ((str.take s).reverse.takeWhile (· = ofChar 'P')).length

/-- The first place where the key stands behind an even number of `P`s. -/
def MentionedAt (str : List UInt8) (s : Nat) : Prop :=
  (PPIDPATTERN <+: str.drop s ∧ Even (leadingPs str s)) ∧
    ∀ i < s, ¬ (PPIDPATTERN <+: str.drop i ∧ Even (leadingPs str i))

/-- The line mentions the key, and this is what follows it up to a zero. -/
def Mentions (line value : List UInt8) : Prop :=
  ∃ s, MentionedAt (cString line) s ∧ blankDelimited ((cString line).drop (s + 5)) = value

/-- The value behind the first mention of the key in these lines; up to the end of its line no byte
is 255. -/
def FirstValue (lines : List (List UInt8)) (value : List UInt8) : Prop :=
  ∃ front line back, lines = front ++ line :: back ∧
    (∀ earlier ∈ front, ∀ v, ¬ Mentions earlier v) ∧ (∀ read ∈ front ++ [line], 255 ∉ read) ∧
    Mentions line value

/-! ### Where the key is found -/

section Key

variable {str : List UInt8} {s n : Nat}

theorem leadingPs_add (str : List UInt8) (n s : Nat) (hn : n + s ≤ str.length) :
    leadingPs str (n + s) = leadingPs (str.drop n) s +
      if leadingPs (str.drop n) s = s then leadingPs str n else 0 := by
  have hlength : ((str.drop n).take s).reverse.length = s := by
    rw [length_reverse, length_take, length_drop]
    omega
  rw [leadingPs, take_add, reverse_append, takeWhile_append, hlength, ← leadingPs]
  split_ifs with hall
  · rw [length_append, hlength, hall, ← leadingPs]
  · rfl

theorem even_leadingPs_stride (h : str[stride PPIDPATTERN str]? = some (ofChar 'P')) :
    Even (leadingPs str (stride PPIDPATTERN str)) := by
  have hle : common PPIDPATTERN str ≤ 5 := common_le PPIDPATTERN str
  have hdiffer := @getElem?_common_ne _ _ PPIDPATTERN str
  have hpre := prefix_iff_eq_take.mp (prefix_of_common PPIDPATTERN str)
  rw [length_take_of_le hle] at hpre
  rw [stride] at h ⊢
  generalize common PPIDPATTERN str = c at hle hdiffer hpre h
  rcases c with _ | _ | c
  · cases str with
    | nil => cases h
    | cons a str =>
      have ha : a ≠ ofChar 'P' := fun heq => hdiffer (by decide) (heq ▸ rfl)
      simp [leadingPs, ha]
  · exact absurd h.symm (hdiffer (by decide))
  · have hc : c ≤ 3 := by omega
    rw [max_eq_right (by omega), leadingPs, ← hpre]
    interval_cases c <;> decide

theorem getElem?_of_leadingPs (h : leadingPs str s = s) {i : Nat} (hi : i < s) :
    str[i]? = some (ofChar 'P') := by
  have hlength : (str.take s).reverse.length ≤ s := by
    rw [length_reverse]
    exact length_take_le s str
  have hall : (str.take s).reverse.takeWhile (· = ofChar 'P') = (str.take s).reverse :=
    (List.takeWhile_prefix _).eq_of_length_le (hlength.trans h.ge)
  have hsize : s ≤ str.length := by
    rw [← h, leadingPs, hall, length_reverse]
    exact length_take_le' s str
  have hin : i < str.length := hi.trans_le hsize
  have hmem : str[i] ∈ (str.take s).reverse :=
    mem_reverse.mpr (mem_take_iff_getElem.mpr ⟨i, by omega, rfl⟩)
  rw [getElem?_eq_getElem hin, of_decide_eq_true (takeWhile_eq_self_iff.mp hall _ hmem)]

theorem getElem?_of_key (h : PPIDPATTERN <+: str.drop s) : str[s]? = some (ofChar 'P') :=
  (getElem?_of_prefix_drop h (i := 0) (by decide)).symm

theorem second_of_key (hpos : 0 < s) (hs : s < common PPIDPATTERN str)
    (hP : str[s]? = some (ofChar 'P')) : s = 1 := by
  have hle : common PPIDPATTERN str ≤ 5 := common_le PPIDPATTERN str
  have hkey := (getElem?_eq_of_lt_common hs).trans hP
  have hlt : s < 5 := hs.trans_le hle
  clear hs
  interval_cases s <;> first | rfl | cases hkey

theorem even_leadingPs_stride_add (h : PPIDPATTERN <+: str.drop (stride PPIDPATTERN str + s)) :
    Even (leadingPs str (stride PPIDPATTERN str + s)) ↔
      Even (leadingPs (str.drop (stride PPIDPATTERN str)) s) := by
  have hlength : 5 ≤ (str.drop (stride PPIDPATTERN str + s)).length := h.length_le
  rw [length_drop] at hlength
  rw [leadingPs_add str _ s (by omega)]
  split_ifs with hall
  · have hfirst : str[stride PPIDPATTERN str]? = some (ofChar 'P') := by
      rcases Nat.eq_zero_or_pos s with rfl | hpos
      · exact getElem?_of_key h
      · have hget := getElem?_of_leadingPs hall hpos
        rwa [getElem?_drop] at hget
    exact Nat.even_add.trans (iff_true_right (even_leadingPs_stride hfirst))
  · rfl

theorem reached_iff_even (h : PPIDPATTERN <+: str.drop s) :
    Reached PPIDPATTERN str s ↔ Even (leadingPs str s) := by
  induction s using Nat.strong_induction_on generalizing str with
  | _ s ih =>
    by_cases hle : stride PPIDPATTERN str ≤ s
    · obtain ⟨s', rfl⟩ := Nat.exists_eq_add_of_le hle
      have hpos := stride_pos PPIDPATTERN str
      have hrest := h
      rw [← drop_drop] at hrest
      rw [reached_stride_add_iff, even_leadingPs_stride_add h]
      exact ih s' (by omega) hrest
    · rcases Nat.eq_zero_or_pos s with rfl | hpos
      · exact iff_of_true (.start str) (by simp [leadingPs])
      · -- inside an attempt the key can stand at the second `P` only
        have hcommon : s < common PPIDPATTERN str := by
          rw [stride] at hle
          omega
        obtain rfl : s = 1 := second_of_key hpos hcommon (getElem?_of_key h)
        have hfirst := getElem?_eq_of_lt_common (hpos.trans hcommon)
        refine iff_of_false (fun hreached => hle (hreached.stride_le hpos)) ?_
        cases str with
        | nil => cases hfirst
        | cons a str =>
          obtain rfl : a = ofChar 'P' := (Option.some.inj hfirst).symm
          simp [leadingPs]

theorem findSubstr_ppid_iff :
    findSubstr str PPIDPATTERN = some e ↔ ∃ s, MentionedAt str s ∧ e = s + 5 := by
  have hreached : ∀ i, Reached PPIDPATTERN str i ∧ PPIDPATTERN <+: str.drop i ↔
      PPIDPATTERN <+: str.drop i ∧ Even (leadingPs str i) := fun i =>
    and_comm.trans (and_congr_right fun h => reached_iff_even h)
  rw [findSubstr_eq (by decide), forward_eq_some_iff]
  constructor
  · rintro ⟨s, hs, hbefore, rfl⟩
    refine ⟨s, ⟨(hreached s).mp hs, fun i hi h => ?_⟩, rfl⟩
    obtain ⟨hi', hkey⟩ := (hreached i).mpr h
    exact hbefore i hi hi' hkey
  · rintro ⟨s, ⟨hs, hbefore⟩, rfl⟩
    refine ⟨s, (hreached s).mpr hs, fun i hi hi' hkey => ?_, rfl⟩
    exact hbefore i hi ((hreached i).mp ⟨hi', hkey⟩)

end Key

/-! ### The lines -/

theorem readLineLoop_line (rest : List UInt8) {room : Nat} (hnewline : newline ∉ line)
    (hroom : line.length < room) :
    readLineLoop (line ++ newline :: rest) room =
      if 255 ∈ line then none else some (line, rest) := by
  induction line generalizing room with
  | nil =>
    obtain ⟨room, rfl⟩ := Nat.exists_eq_add_one.mpr hroom
    rw [nil_append, readLineLoop, if_pos rfl, if_neg not_mem_nil]
  | cons c line ih =>
    obtain ⟨hc, hline⟩ := ne_and_not_mem_of_not_mem_cons hnewline
    obtain ⟨room, rfl⟩ := Nat.exists_eq_add_one.mpr (Nat.zero_lt_of_lt hroom)
    rw [cons_append, readLineLoop, if_neg hc.symm, ih hline (Nat.lt_of_succ_lt_succ hroom)]
    by_cases heof : c = 255
    · rw [if_pos heof, if_pos (mem_cons.mpr (.inl heof.symm))]
    · by_cases hmem : 255 ∈ line
      · rw [if_neg heof, if_pos hmem, if_pos (mem_cons_of_mem c hmem)]
        rfl
      · have hmem' : 255 ∉ c :: line := not_mem_cons_of_ne_of_not_mem (Ne.symm heof) hmem
        rw [if_neg heof, if_neg hmem, if_neg hmem']
        rfl

/-- `read_status_file` over the lines of a text. -/
def scan (size : Nat) : List (List UInt8) → Lookup
  | [] => .notFound
  | line :: lines =>
    if 255 ∈ line then .notFound
    else
      match findSubstr (cString line) PPIDPATTERN with
      | some offset => getPpidFromLine (cString line) offset size
      | none => scan size lines

theorem readStatusFile_of_none {text : List UInt8} (h : readLine text = none) :
    readStatusFile size text = .notFound := by
  rw [readStatusFile]
  split
  · rfl
  · simp_all

theorem readStatusFile_of_some {text rest : List UInt8} (h : readLine text = some (line, rest)) :
    readStatusFile size text =
      match findSubstr (cString line) PPIDPATTERN with
      | some offset => getPpidFromLine (cString line) offset size
      | none => readStatusFile size rest := by
  rw [readStatusFile]
  split <;> simp_all

theorem readStatusFile_textOf (size : Nat) (hlines : ∀ line ∈ lines, IsLine line) :
    readStatusFile size (textOf lines) = scan size lines := by
  induction lines with
  | nil => exact readStatusFile_of_none rfl
  | cons line lines ih =>
    obtain ⟨⟨hnewline, hlength⟩, hrest⟩ := forall_mem_cons.mp hlines
    have htext : textOf (line :: lines) = line ++ newline :: textOf lines := by
      simp [textOf]
    have hread : readLine (textOf (line :: lines)) =
        if 255 ∈ line then none else some (line, textOf lines) := by
      rw [htext]
      exact readLineLoop_line _ hnewline hlength
    by_cases heof : 255 ∈ line
    · rw [if_pos heof] at hread
      rw [readStatusFile_of_none hread, scan, if_pos heof]
    · rw [if_neg heof] at hread
      rw [readStatusFile_of_some hread, scan, if_neg heof, ih hrest]

theorem scan_append (size : Nat) (before after : List (List UInt8))
    (hline : findSubstr (cString line) PPIDPATTERN = some e) :
    scan size (before ++ line :: after) = scan size (before ++ [line]) := by
  induction before with
  | nil => rw [nil_append, nil_append, scan, scan, hline]
  | cons first before ih => rw [cons_append, cons_append, scan, scan, ih]

theorem getPpidFromLine_eq_found_iff {str value : List UInt8} {offset : Nat} :
    getPpidFromLine str offset size = .found value ↔
      blankDelimited (str.drop offset) = value ∧ value.length < size := by
  rw [getPpidFromLine]
  split_ifs with hsize
  · rw [Lookup.found.injEq]
    exact ⟨fun h => ⟨h, h ▸ hsize⟩, And.left⟩
  · refine iff_of_false (fun h => by cases h) ?_
    rintro ⟨rfl, h⟩
    exact hsize h

theorem firstValue_cons_iff {first : List UInt8} {value : List UInt8} :
    FirstValue (first :: lines) value ↔
      255 ∉ first ∧
        (Mentions first value ∨ (∀ v, ¬ Mentions first v) ∧ FirstValue lines value) := by
  constructor
  · rintro ⟨front, line, back, hsplit, hfront, hread, hline⟩
    cases front with
    | nil =>
      cases hsplit
      exact ⟨hread first (mem_singleton_self first), .inl hline⟩
    | cons _ front =>
      cases hsplit
      obtain ⟨hfirst, hfront⟩ := forall_mem_cons.mp hfront
      obtain ⟨hread₁, hread⟩ := forall_mem_cons.mp hread
      exact ⟨hread₁, .inr ⟨hfirst, front, line, back, rfl, hfront, hread, hline⟩⟩
  · rintro ⟨heof, hfirst | ⟨hfirst, front, line, back, rfl, hfront, hread, hline⟩⟩
    · exact ⟨[], first, lines, rfl, forall_mem_nil _, forall_mem_singleton.mpr heof, hfirst⟩
    · exact ⟨first :: front, line, back, rfl, forall_mem_cons.mpr ⟨hfirst, hfront⟩,
        forall_mem_cons.mpr ⟨heof, hread⟩, hline⟩

theorem mentions_iff {value : List UInt8} (h : findSubstr (cString line) PPIDPATTERN = some e) :
    Mentions line value ↔ blankDelimited ((cString line).drop e) = value := by
  constructor
  · rintro ⟨s, hs, rfl⟩
    rw [findSubstr_ppid_iff.mpr ⟨s, hs, rfl⟩] at h
    rw [← Option.some.inj h]
  · intro hvalue
    obtain ⟨s, hs, rfl⟩ := findSubstr_ppid_iff.mp h
    exact ⟨s, hs, hvalue⟩

theorem scan_eq_found_iff {value : List UInt8} :
    scan size lines = .found value ↔ FirstValue lines value ∧ value.length < size := by
  induction lines with
  | nil =>
    refine iff_of_false (fun h => by cases h) ?_
    rintro ⟨⟨front, line, back, h, -⟩, -⟩
    cases front <;> cases h
  | cons first lines ih =>
    rw [scan, firstValue_cons_iff]
    split_ifs with heof
    · exact iff_of_false (fun h => by cases h) fun h => h.1.1 heof
    · cases hfind : findSubstr (cString first) PPIDPATTERN with
      | none =>
        have hnone : ∀ v, ¬ Mentions first v := by
          rintro v ⟨s, hs, -⟩
          rw [findSubstr_ppid_iff.mpr ⟨s, hs, rfl⟩] at hfind
          cases hfind
        simp [ih, heof, hnone]
      | some e =>
        have hsome : ¬ ∀ v, ¬ Mentions first v := fun h => h _ ((mentions_iff hfind).mpr rfl)
        simp only [getPpidFromLine_eq_found_iff, ← mentions_iff hfind, heof, hsome, false_and,
          or_false, not_false_eq_true, true_and]

/-! ### The lookup -/

theorem findSubstr_key (field : List UInt8) :
    findSubstr (cString (PPIDPATTERN ++ field)) PPIDPATTERN = some 5 := by
  have hnonzero : 0 ∉ PPIDPATTERN := by decide
  have hzero : ∀ b ∈ PPIDPATTERN, decide (b ≠ 0) = true := fun b hb =>
    decide_eq_true fun heq => hnonzero (heq ▸ hb)
  have hkey : cString (PPIDPATTERN ++ field) = PPIDPATTERN ++ cString field :=
    takeWhile_append_of_pos hzero
  rw [findSubstr_ppid_iff]
  refine ⟨0, ⟨⟨?_, by simp [leadingPs]⟩, fun i hi => absurd hi (Nat.not_lt_zero i)⟩, rfl⟩
  rw [hkey]
  exact prefix_append _ _

/-- The value of the field is returned iff it is what stands behind the first mention of the key, no
byte is taken for the end of the file before, and it fits into the buffer. -/
theorem readStatusFile_value_iff (status : StatusText) (size : Nat) :
    readStatusFile size status.text = .found status.value ↔
      FirstValue (status.before ++ [PPIDPATTERN ++ status.field]) status.value ∧
        status.value.length < size := by
  rw [StatusText.text, readStatusFile_textOf size status.isLine,
    scan_append size _ _ (findSubstr_key status.field), scan_eq_found_iff]

def namedLikeKey : List UInt8 := ascii "Name:\tPPid:1"

def seven : List UInt8 := ascii "\t7"

theorem misleading_isLine :
    ∀ line ∈ [namedLikeKey] ++ (PPIDPATTERN ++ seven) :: [], IsLine line := by
  unfold IsLine
  decide

theorem misleading_others : ∀ line ∈ [namedLikeKey] ++ [], ¬ PPIDPATTERN <+: line := by
  decide

/-- The status of a process that calls itself `PPid:1`; its parent has the number 7. -/
def misleadingStatus : StatusText where
  before := [namedLikeKey]
  field := seven
  after := []
  isLine := misleading_isLine
  others := misleading_others

theorem readStatusFile_misled :
    readStatusFile 1024 misleadingStatus.text = .found (ascii "1") ∧
      misleadingStatus.value = ascii "7" := by
  decide +kernel

end LinuxWorkouts.Proc
