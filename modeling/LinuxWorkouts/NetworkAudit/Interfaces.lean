import Mathlib.Data.List.DropRight
import LinuxWorkouts.NetworkAudit.Tokens

/-!
`get_network_interfaces_info` of `net/network-audit-tool/modules/collector.py`, and the records it
makes of one entry of the output of `ip address`.

A token is cut at every space, so that `k` spaces leave `k - 1` empty strings, and `del_empty` takes
away half of each run of them, from the front of the list (`seen_wordsOf`). A record has the value
behind a key word if no empty string is left in between (`getNextEl_cleaned`), with the line break
if it is the last word of its line, and its name with the colon behind it.
-/

namespace LinuxWorkouts.NetworkAudit

open List

/-! ### The code -/

/-- `get_next_el`: the word behind the first occurrence of `word`, `none` when an exception is
caught. -/
def getNextEl (arrList : List Str) (word : Str) : Option Str :=
  match arrList.idxOf? word with
  | some idx => arrList[idx + 1]?
  | none => none

/-- `[1-9]`. -/
def isIndexDigit (c : Char) : Bool := '1' ≤ c && c ≤ '9'

def afterIndex (s : Str) : Option Str :=
  if s.takeWhile isIndexDigit ≠ [] ∧ (s.dropWhile isIndexDigit).head? = some ':' then
    some (s.dropWhile isIndexDigit).tail
  else none

theorem afterIndex_length {s rest : Str} (h : afterIndex s = some rest) :
    rest.length ≤ s.length := by
  rw [afterIndex] at h
  split_ifs at h
  cases h
  rw [length_tail]
  exact (Nat.sub_le _ _).trans (length_dropWhile_le _ _)

/-- `re.split` behind the start of the text, where only `\n[1-9]+:` can match. -/
def splitRows : Str → List Str
  | [] => [[]]
  | c :: s =>
    if c = '\n' then
      match _h : afterIndex s with
      | some rest => [] :: splitRows rest
      | none => (splitRows s).modifyHead (c :: ·)
    else (splitRows s).modifyHead (c :: ·)
termination_by s => s.length
decreasing_by
  · exact Nat.lt_succ_of_le (afterIndex_length _h)
  · exact Nat.lt_succ_self _
  · exact Nat.lt_succ_self _

/-- `re.split(rows_pattern, ip_data)`. -/
def reSplit (ipData : Str) : List Str :=
  match afterIndex ipData with
  | some rest => [] :: splitRows rest
  | none => splitRows ipData

/-- `str.isspace` of one character. -/
def isSpace (c : Char) : Bool :=
  (9 ≤ c.toNat && c.toNat ≤ 13) || (28 ≤ c.toNat && c.toNat ≤ 32) || c.toNat == 0x85 ||
    c.toNat == 0xA0 || c.toNat == 0x1680 || (0x2000 ≤ c.toNat && c.toNat ≤ 0x200A) ||
    c.toNat == 0x2028 || c.toNat == 0x2029 || c.toNat == 0x202F || c.toNat == 0x205F ||
    c.toNat == 0x3000

def strip (s : Str) : Str := (s.dropWhile isSpace).rdropWhile isSpace

def linkEther : Str := ['l', 'i', 'n', 'k', '/', 'e', 't', 'h', 'e', 'r']

def inetKey : Str := ['i', 'n', 'e', 't']

structure Interface where
  name : Str
  linkEther : Str
  inet : Str
deriving DecidableEq, Repr

inductive PyError where
  | indexError
deriving DecidableEq, Repr

/-- The record for one token: `words[0]` raises an exception when no word is left. -/
def interfaceInfo (token : Str) : Except PyError Interface :=
  let words := delEmpty (token.splitOn ' ')
  match words with
  | [] => .error .indexError
  | first :: _ =>
    .ok {
      name := strip first
      linkEther := (getNextEl words linkEther).getD "No mac address for that interface".toList
      inet := (getNextEl words inetKey).getD "No ipv4 for that interface".toList }

def getNetworkInterfacesInfo (ipData : Str) : Except PyError (Option (List Interface)) :=
  if ipData = [] then .ok none
  else ((delEmpty (reSplit ipData)).mapM interfaceInfo).map some

/-! ### The layout -/

/-- A word behind `extra + 1` spaces. -/
structure Piece where
  extra : Nat
  word : Str

def Piece.text (p : Piece) : Str := replicate (p.extra + 1) ' ' ++ p.word

def lineText (line : List Piece) : Str := line.flatMap Piece.text

/-- A line of a key word, its value and more words. -/
structure Keyed where
  indent : Nat
  extra : Nat
  value : Str
  more : List Piece

def Keyed.line (key : Str) (k : Keyed) : List Piece :=
  ⟨k.indent, key⟩ :: ⟨k.extra, k.value⟩ :: k.more

/-- The lines of an entry, the first one behind its index. -/
structure Printout where
  name : Str
  nameExtra : Nat
  details : List Piece
  link : Keyed
  inet : Keyed
  others : List (List Piece)

def Printout.lines (p : Printout) : List (List Piece) :=
  (⟨p.nameExtra, p.name ++ [':']⟩ :: p.details) :: p.link.line linkEther :: p.inet.line inetKey ::
    p.others

def IsWord (w : Str) : Prop := w ≠ [] ∧ ∀ c ∈ w, isSpace c = false

/-- The value as it is cut out: a line break stays at the last word of its line. -/
def Keyed.word (ending : Str) (k : Keyed) : Str :=
  if k.more = [] then k.value ++ ending else k.value

/-- The two key words stand where the layout has them first. -/
structure Entry extends Printout where
  name_ne : name ≠ []
  lines_ne : ∀ line ∈ toPrintout.lines, line ≠ []
  isWord : ∀ line ∈ toPrintout.lines, ∀ p ∈ line, IsWord p.word
  details_ne : ∀ p ∈ details, p.word ≠ linkEther ∧ p.word ≠ inetKey
  mac_ne : link.value ≠ inetKey
  link_more_ne : ∀ p ∈ link.more, p.word ≠ inetKey

def Entry.body (e : Entry) : Str := intercalate ['\n'] (e.lines.map lineText)

/-- The entries from index `k` on, each one at the start of a line. -/
def entriesText (k : Nat) : List Entry → Str
  | [] => []
  | e :: es => Nat.toDigits 10 k ++ ':' :: (e.body ++ '\n' :: entriesText (k + 1) es)

def ipText (entries : List Entry) : Str := entriesText 1 entries

def Entry.printed (e : Entry) : Interface := ⟨e.name ++ [':'], e.link.value, e.inet.value⟩

def Entry.interface (e : Entry) : Interface := ⟨e.name, e.link.value, e.inet.value⟩

/-- How many empty strings `del_empty` takes away: of a run of `r` it sees `(r + 1) / 2`. The first
run has one more, since the text starts with a space. -/
def removed : List Nat → Nat
  | [] => 1
  | e :: es => (e + 2) / 2 + (es.map fun e => (e + 1) / 2).sum

def Entry.removed (e : Entry) : Nat := NetworkAudit.removed (e.lines.flatten.map Piece.extra)

def Entry.beforeMac (e : Entry) : Nat :=
  1 + e.nameExtra + (e.details.map Piece.extra).sum + e.link.indent + e.link.extra

def Entry.beforeIpv4 (e : Entry) : Nat :=
  e.beforeMac + (e.link.more.map Piece.extra).sum + e.inet.indent + e.inet.extra

/-- The name and the addresses are separated from the words before them by one space, or by more
where enough empty strings are taken away to get there. -/
def Entry.Cleaned (e : Entry) : Prop :=
  (e.nameExtra = 0 ∨ 1 + e.nameExtra ≤ e.removed) ∧
    (e.link.extra = 0 ∨ e.beforeMac ≤ e.removed) ∧
    (e.inet.extra = 0 ∨ e.beforeIpv4 ≤ e.removed)

/-- More words stand behind the addresses in their lines, as `ip` prints `brd` and `scope`; the last
line of an entry may end with its address, since its line break is cut off with the next index. -/
def Entry.Followed (e : Entry) : Prop := e.link.more ≠ [] ∧ (e.inet.more ≠ [] ∨ e.others = [])

/-! ### Words -/

variable {w key : Str} {p : Piece}

section Words

variable {pieces : List Piece}

def wordsOf (pieces : List Piece) : List Str :=
  [] :: pieces.flatMap fun p => replicate p.extra [] ++ [p.word]

theorem intercalate_cons (sep first : Str) (words : List Str) :
    intercalate sep (first :: words) = first ++ words.flatMap (sep ++ ·) := by
  induction words generalizing first with
  | nil => simp
  | cons w words ih =>
    rw [intercalate_cons_cons, ih, flatMap_cons, append_assoc, append_assoc]

theorem intercalate_wordsOf (pieces : List Piece) :
    intercalate [' '] (wordsOf pieces) = lineText pieces := by
  rw [wordsOf, intercalate_cons, nil_append, flatMap_assoc, lineText]
  congr 1
  funext p
  rw [Piece.text, replicate_succ', flatMap_append, flatMap_singleton,
    append_assoc, flatMap_replicate, append_nil, flatten_replicate_singleton]

theorem mem_wordsOf (h : w ∈ wordsOf pieces) : w = [] ∨ ∃ p ∈ pieces, w = p.word := by
  rcases mem_cons.mp h with rfl | h
  · exact .inl rfl
  · obtain ⟨p, hp, h⟩ := mem_flatMap.mp h
    rcases mem_append.mp h with h | h
    · exact .inl (eq_of_mem_replicate h)
    · exact .inr ⟨p, hp, mem_singleton.mp h⟩

theorem splitOn_lineText (hwords : ∀ p ∈ pieces, ' ' ∉ p.word) :
    (lineText pieces).splitOn ' ' = wordsOf pieces := by
  rw [← intercalate_wordsOf]
  refine splitOn_intercalate ' ' (fun w hw => ?_) (cons_ne_nil _ _)
  rcases mem_wordsOf hw with rfl | ⟨p, hp, rfl⟩
  · exact not_mem_nil
  · exact hwords p hp

theorem seen_wordsOf (hne : pieces ≠ []) (hwords : ∀ p ∈ pieces, p.word ≠ []) :
    seen (wordsOf pieces) = removed (pieces.map Piece.extra) := by
  have hrest : ∀ ps : List Piece, (∀ p ∈ ps, p.word ≠ []) →
      seen (ps.flatMap fun p => replicate p.extra [] ++ [p.word]) =
        (ps.map fun p => (p.extra + 1) / 2).sum := by
    intro ps hps
    induction ps with
    | nil => rfl
    | cons p ps ih =>
      obtain ⟨hp, hps⟩ := forall_mem_cons.mp hps
      rw [flatMap_cons, append_assoc, singleton_append,
        seen_replicate_append _ hp, ih hps, map_cons, sum_cons]
  cases pieces with
  | nil => exact absurd rfl hne
  | cons p ps =>
    obtain ⟨hp, hps⟩ := forall_mem_cons.mp hwords
    rw [wordsOf, flatMap_cons, append_assoc, singleton_append, ← cons_append,
      ← replicate_succ, seen_replicate_append _ hp, hrest ps hps, map_cons, removed,
      map_map]
    rfl

end Words

/-! ### What is left of them -/

section Left

def cleaned (k : Nat) (words : List Str) : List Str := (fun l => l.erase [])^[k] words

theorem mem_of_mem_cleaned {k : Nat} {words : List Str} (h : w ∈ cleaned k words) : w ∈ words := by
  induction k generalizing words with
  | zero => exact h
  | succ k ih =>
    rw [cleaned, Function.iterate_succ_apply] at h
    exact mem_of_mem_erase (ih h)

theorem cleaned_run (k n : Nat) (hw : w ≠ []) (rest : List Str) :
    ∃ later, cleaned k (replicate n [] ++ w :: rest) =
      replicate (n - k) [] ++ w :: later := by
  refine ⟨cleaned (k - n) rest, ?_⟩
  rw [cleaned, iterate_erase_append, iterate_erase_replicate, iterate_erase_cons_of_ne hw,
    count_replicate_self, cleaned]

theorem getNextEl_append {front rest : List Str} (h : w ∉ front) :
    getNextEl (front ++ w :: rest) w = rest.head? := by
  have hidx : (front ++ w :: rest).idxOf? w = some front.length := by
    induction front with
    | nil => simp [idxOf?_cons]
    | cons x front ih =>
      obtain ⟨hx, hfront⟩ := ne_and_not_mem_of_not_mem_cons h
      simp [idxOf?_cons, ih hfront, hx.symm]
  simp only [getNextEl, hidx]
  rw [getElem?_append_right (Nat.le_add_right _ _), Nat.add_sub_cancel_left,
    getElem?_cons_succ, head?_eq_getElem?]

theorem count_wordsOf {pieces : List Piece} (hwords : ∀ p ∈ pieces, p.word ≠ []) :
    (wordsOf pieces).count [] = 1 + (pieces.map Piece.extra).sum := by
  rw [wordsOf, count_cons_self, Nat.add_comm]
  congr 1
  induction pieces with
  | nil => rfl
  | cons p ps ih =>
    obtain ⟨hp, hps⟩ := forall_mem_cons.mp hwords
    rw [flatMap_cons, count_append, count_append, count_replicate_self,
      count_singleton, ih hps, map_cons, sum_cons]
    simp [hp]

theorem getNextEl_cleaned {front back : List Piece} {k v : Piece} (s : Nat)
    (hfront : ∀ p ∈ front, p.word ≠ [] ∧ p.word ≠ k.word) (hk : k.word ≠ []) (hv : v.word ≠ []) :
    getNextEl (cleaned s (wordsOf (front ++ k :: v :: back))) k.word =
      some (if v.extra = 0 ∨ 1 + (front.map Piece.extra).sum + k.extra + v.extra ≤ s then v.word
        else []) := by
  have hsplit : wordsOf (front ++ k :: v :: back) =
      (wordsOf front ++ replicate k.extra []) ++ k.word ::
        (replicate v.extra [] ++ v.word ::
          back.flatMap fun p => replicate p.extra [] ++ [p.word]) := by
    simp [wordsOf]
  have hcount : (wordsOf front ++ replicate k.extra []).count [] =
      1 + (front.map Piece.extra).sum + k.extra := by
    rw [count_append, count_wordsOf fun p hp => (hfront p hp).1, count_replicate_self]
  have hkey : k.word ∉ wordsOf front ++ replicate k.extra [] := by
    intro hmem
    rcases mem_append.mp hmem with hmem | hmem
    · rcases mem_wordsOf hmem with hempty | ⟨p, hp, hword⟩
      · exact hk hempty
      · exact (hfront p hp).2 hword.symm
    · exact hk (eq_of_mem_replicate hmem)
  obtain ⟨later, hrun⟩ := cleaned_run (s - (1 + (front.map Piece.extra).sum + k.extra)) v.extra hv
    (back.flatMap fun p => replicate p.extra [] ++ [p.word])
  rw [cleaned] at hrun
  rw [hsplit, cleaned, iterate_erase_append, hcount, iterate_erase_cons_of_ne hk, hrun, ← cleaned,
    getNextEl_append fun hmem => hkey (mem_of_mem_cleaned hmem)]
  split_ifs with hgap
  · rw [Nat.sub_eq_zero_of_le (by omega)]
    rfl
  · obtain ⟨n, hn⟩ : ∃ n, v.extra - (s - (1 + (front.map Piece.extra).sum + k.extra)) = n + 1 :=
      ⟨_, (Nat.sub_add_cancel (by omega)).symm⟩
    rw [hn]
    rfl

theorem head_cleaned (hp : p.word ≠ []) (s : Nat) (back : List Piece) :
    ∃ later, cleaned s (wordsOf (p :: back)) =
      (if 1 + p.extra ≤ s then p.word else []) :: later := by
  have hsplit : wordsOf (p :: back) = replicate (p.extra + 1) [] ++ p.word ::
      back.flatMap fun p => replicate p.extra [] ++ [p.word] := by
    simp [wordsOf, replicate_succ]
  obtain ⟨later, hrun⟩ := cleaned_run s (p.extra + 1) hp
    (back.flatMap fun p => replicate p.extra [] ++ [p.word])
  rw [hsplit, hrun]
  split_ifs with hgap
  · rw [Nat.sub_eq_zero_of_le (by omega)]
    exact ⟨later, rfl⟩
  · obtain ⟨n, hn⟩ : ∃ n, p.extra + 1 - s = n + 1 := ⟨_, (Nat.sub_add_cancel (by omega)).symm⟩
    rw [hn]
    exact ⟨replicate n [] ++ p.word :: later, rfl⟩

end Left

/-! ### One entry -/

section Lines

def attach (ending : Str) : List Piece → List Piece
  | [] => []
  | p :: line => ⟨p.extra, if line = [] then p.word ++ ending else p.word⟩ :: attach ending line

/-- The pieces of lines, each one with its line break, and the text behind the last one. -/
def glue (ending : Str) : List (List Piece) → List Piece
  | [] => []
  | line :: lines => attach (if lines = [] then ending else ['\n']) line ++ glue ending lines

variable {ending : Str} {line : List Piece} {lines : List (List Piece)}

theorem map_extra_attach (ending : Str) (line : List Piece) :
    (attach ending line).map Piece.extra = line.map Piece.extra := by
  induction line with
  | nil => rfl
  | cons p line ih => rw [attach, map_cons, map_cons, ih]

theorem map_extra_glue (ending : Str) (lines : List (List Piece)) :
    (glue ending lines).map Piece.extra = lines.flatten.map Piece.extra := by
  induction lines with
  | nil => rfl
  | cons line lines ih =>
    rw [glue, map_append, map_extra_attach, ih, flatten_cons, map_append]

theorem mem_attach (h : p ∈ attach ending line) :
    ∃ q ∈ line, p.word = q.word ∨ p.word = q.word ++ ending := by
  induction line with
  | nil => cases h
  | cons q line ih =>
    rcases mem_cons.mp h with rfl | h
    · refine ⟨q, mem_cons_self, ?_⟩
      by_cases hline : line = [] <;> simp [hline]
    · obtain ⟨q', hq, hword⟩ := ih h
      exact ⟨q', mem_cons_of_mem q hq, hword⟩

theorem mem_glue (h : p ∈ glue ending lines) :
    ∃ line ∈ lines, ∃ q ∈ line, p.word = q.word ∨ p.word = q.word ++ ending ∨
      p.word = q.word ++ ['\n'] := by
  induction lines with
  | nil => cases h
  | cons line lines ih =>
    rcases mem_append.mp h with h | h
    · obtain ⟨q, hq, hword⟩ := mem_attach h
      refine ⟨line, mem_cons_self, q, hq, hword.imp_right fun hword => ?_⟩
      split_ifs at hword
      · exact .inl hword
      · exact .inr hword
    · obtain ⟨l, hl, hword⟩ := ih h
      exact ⟨l, mem_cons_of_mem line hl, hword⟩

theorem lineText_cons (p : Piece) (line : List Piece) :
    lineText (p :: line) = p.text ++ lineText line := flatMap_cons

theorem lineText_append (front back : List Piece) :
    lineText (front ++ back) = lineText front ++ lineText back := flatMap_append

theorem lineText_attach (hne : line ≠ []) :
    lineText (attach ending line) = lineText line ++ ending := by
  induction line with
  | nil => exact absurd rfl hne
  | cons p line ih =>
    by_cases hline : line = []
    · subst hline
      simp [attach, lineText, Piece.text]
    · rw [attach, if_neg hline, lineText_cons, ih hline, lineText_cons, append_assoc]

theorem lineText_glue (hlines : lines ≠ []) (hne : ∀ line ∈ lines, line ≠ []) :
    lineText (glue ending lines) = intercalate ['\n'] (lines.map lineText) ++ ending := by
  induction lines with
  | nil => exact absurd rfl hlines
  | cons line lines ih =>
    obtain ⟨hline, hrest⟩ := forall_mem_cons.mp hne
    rw [glue, lineText_append, lineText_attach hline]
    by_cases hlast : lines = []
    · subst hlast
      simp [glue, lineText]
    · obtain ⟨next, later, rfl⟩ := exists_cons_of_ne_nil hlast
      simp only [if_neg hlast, ih hlast hrest, map_cons, intercalate_cons_cons, append_assoc]

theorem attach_keyed (key : Str) (k : Keyed) :
    attach ending (k.line key) =
      ⟨k.indent, key⟩ :: ⟨k.extra, k.word ending⟩ :: attach ending k.more := by
  simp [Keyed.line, Keyed.word, attach]

end Lines

section Record

theorem strip_word (h : IsWord w) : strip w = w ∧ strip (w ++ ['\n']) = w := by
  obtain ⟨hne, hspace⟩ := h
  have hlast : w.rdropWhile isSpace = w := by
    rw [rdropWhile_eq_self_iff]
    intro hw
    rw [hspace _ (getLast_mem hw)]
    exact Bool.false_ne_true
  have hfirst : ∀ rest, (w ++ rest).dropWhile isSpace = w ++ rest := by
    intro rest
    obtain ⟨c, w, rfl⟩ := exists_cons_of_ne_nil hne
    rw [cons_append, dropWhile_cons_of_neg]
    rw [hspace c mem_cons_self]
    exact Bool.false_ne_true
  constructor
  · rw [strip, ← append_nil w, hfirst, append_nil, hlast]
  · rw [strip, hfirst, rdropWhile_concat_pos _ _ _ (by decide), hlast]

variable (e : Entry) {ending : Str}

def Entry.namePiece (e : Entry) : Piece :=
  ⟨e.nameExtra, if e.details = [] then e.name ++ [':'] ++ ['\n'] else e.name ++ [':']⟩

def Entry.beforeLink (e : Entry) : List Piece := e.namePiece :: attach ['\n'] e.details

def Entry.beforeInet (e : Entry) : List Piece :=
  e.beforeLink ++ ⟨e.link.indent, linkEther⟩ :: ⟨e.link.extra, e.link.word ['\n']⟩ ::
    attach ['\n'] e.link.more

def Entry.afterInet (e : Entry) (ending : Str) : Str := if e.others = [] then ending else ['\n']

theorem Entry.glue_lines (ending : Str) : ∃ tail, glue ending e.lines =
    e.beforeInet ++ ⟨e.inet.indent, inetKey⟩ ::
      ⟨e.inet.extra, e.inet.word (e.afterInet ending)⟩ :: tail := by
  refine ⟨attach (e.afterInet ending) e.inet.more ++ glue ending e.others, ?_⟩
  rw [Printout.lines, glue, glue, glue, if_neg (cons_ne_nil _ _),
    if_neg (cons_ne_nil _ _), ← Entry.afterInet, attach_keyed, attach_keyed, attach]
  simp [Entry.beforeInet, Entry.beforeLink, Entry.namePiece]

theorem Entry.lines_ne_nil : e.lines ≠ [] := cons_ne_nil _ _

theorem Entry.isWord_glue (hending : ' ' ∉ ending) (hp : p ∈ glue ending e.lines) :
    p.word ≠ [] ∧ ' ' ∉ p.word := by
  obtain ⟨line, hline, q, hq, hword⟩ := mem_glue hp
  obtain ⟨hne, hspace⟩ := e.isWord line hline q hq
  have hblank : ' ' ∉ q.word := fun hmem => absurd (hspace ' ' hmem) (by decide)
  rcases hword with h | h | h
  · rw [h]
    exact ⟨hne, hblank⟩
  · rw [h]
    exact ⟨append_ne_nil_of_left_ne_nil hne _, by simp [hblank, hending]⟩
  · rw [h]
    exact ⟨append_ne_nil_of_left_ne_nil hne _, by simp [hblank]⟩

theorem Entry.delEmpty_words (hending : ' ' ∉ ending) :
    delEmpty ((e.body ++ ending).splitOn ' ') =
      cleaned e.removed (wordsOf (glue ending e.lines)) := by
  have hne : glue ending e.lines ≠ [] := by
    obtain ⟨tail, h⟩ := e.glue_lines ending
    simp [h]
  rw [Entry.body, ← lineText_glue e.lines_ne_nil e.lines_ne,
    splitOn_lineText fun p hp => (e.isWord_glue hending hp).2, delEmpty_eq,
    seen_wordsOf hne fun p hp => (e.isWord_glue hending hp).1, map_extra_glue]
  rfl

theorem Entry.one_le_removed : 1 + e.nameExtra ≤ e.removed ↔
    e.nameExtra = 0 ∨ 1 + e.nameExtra ≤ e.removed := by
  have hpos : (e.nameExtra + 2) / 2 ≤ e.removed := Nat.le_add_right _ _
  omega

theorem attach_word_ne {line : List Piece} (hbreak : '\n' ∉ key)
    (hline : ∀ q ∈ line, q.word ≠ key) : ∀ p ∈ attach ['\n'] line, p.word ≠ key := by
  intro p hp
  obtain ⟨q, hq, hword | hword⟩ := mem_attach hp
  · exact hword ▸ hline q hq
  · rintro rfl
    exact hbreak (by simp [hword])

theorem Entry.beforeLink_word_ne (hcolon : ':' ∉ key) (hbreak : '\n' ∉ key)
    (hdetails : ∀ p ∈ e.details, p.word ≠ key) : ∀ p ∈ e.beforeLink, p.word ≠ key := by
  refine forall_mem_cons.mpr ⟨?_, attach_word_ne hbreak hdetails⟩
  rintro rfl
  apply hcolon
  rw [Entry.namePiece]
  split_ifs <;> simp

theorem Entry.beforeInet_word_ne : ∀ p ∈ e.beforeInet, p.word ≠ inetKey := by
  have hkeys : linkEther ≠ inetKey := by decide
  have hmac : e.link.word ['\n'] ≠ inetKey := by
    rw [Keyed.word]
    split_ifs
    · exact fun h => absurd (h ▸ mem_append_right _ mem_cons_self : '\n' ∈ inetKey)
        (by decide)
    · exact e.mac_ne
  refine forall_mem_append.mpr ⟨?_, forall_mem_cons.mpr ⟨hkeys, ?_⟩⟩
  · exact e.beforeLink_word_ne (by decide) (by decide) fun p hp => (e.details_ne p hp).2
  · exact forall_mem_cons.mpr ⟨hmac, attach_word_ne (by decide) e.link_more_ne⟩

section Values

variable (hending : ' ' ∉ ending) (s : Nat)
include hending

theorem Entry.getNextEl_key {front back : List Piece} {k v : Piece}
    (h : glue ending e.lines = front ++ k :: v :: back) (hne : ∀ p ∈ front, p.word ≠ k.word) :
    getNextEl (cleaned s (wordsOf (glue ending e.lines))) k.word =
      some (if v.extra = 0 ∨ 1 + (front.map Piece.extra).sum + k.extra + v.extra ≤ s then v.word
        else []) := by
  have hword : ∀ p ∈ glue ending e.lines, p.word ≠ [] := fun p hp => (e.isWord_glue hending hp).1
  rw [h] at hword ⊢
  obtain ⟨hfront, hrest⟩ := forall_mem_append.mp hword
  obtain ⟨hkey, hvalue⟩ := forall_mem_cons.mp hrest
  exact getNextEl_cleaned s (fun p hp => ⟨hfront p hp, hne p hp⟩) hkey
    (forall_mem_cons.mp hvalue).1

theorem Entry.getNextEl_mac :
    getNextEl (cleaned s (wordsOf (glue ending e.lines))) linkEther =
      some (if e.link.extra = 0 ∨ e.beforeMac ≤ s then e.link.word ['\n'] else []) := by
  obtain ⟨tail, hpieces⟩ := e.glue_lines ending
  rw [Entry.beforeInet, append_assoc] at hpieces
  have hbefore : 1 + (e.beforeLink.map Piece.extra).sum + e.link.indent + e.link.extra =
      e.beforeMac := by
    rw [Entry.beforeLink, map_cons, sum_cons, map_extra_attach, ← Nat.add_assoc]
    rfl
  have hne : ∀ p ∈ e.beforeLink, p.word ≠ linkEther :=
    e.beforeLink_word_ne (by decide) (by decide) fun p hp => (e.details_ne p hp).1
  rw [← hbefore]
  exact e.getNextEl_key hending s hpieces hne

theorem Entry.getNextEl_ipv4 :
    getNextEl (cleaned s (wordsOf (glue ending e.lines))) inetKey =
      some (if e.inet.extra = 0 ∨ e.beforeIpv4 ≤ s then e.inet.word (e.afterInet ending)
        else []) := by
  obtain ⟨tail, hpieces⟩ := e.glue_lines ending
  have hbefore : 1 + (e.beforeInet.map Piece.extra).sum + e.inet.indent + e.inet.extra =
      e.beforeIpv4 := by
    simp only [Entry.beforeInet, Entry.beforeLink, map_append, map_cons, sum_append,
      sum_cons, map_extra_attach, Entry.namePiece, Entry.beforeIpv4, Entry.beforeMac,
      ← Nat.add_assoc]
  rw [← hbefore]
  exact e.getNextEl_key hending s hpieces e.beforeInet_word_ne

theorem Entry.head_words : ∃ later, cleaned s (wordsOf (glue ending e.lines)) =
    (if 1 + e.nameExtra ≤ s then e.namePiece.word else []) :: later := by
  obtain ⟨tail, hpieces⟩ := e.glue_lines ending
  have hword : ∀ p ∈ glue ending e.lines, p.word ≠ [] := fun p hp => (e.isWord_glue hending hp).1
  rw [hpieces, Entry.beforeInet, Entry.beforeLink] at hword ⊢
  exact head_cleaned (hword _ mem_cons_self) s _

end Values

theorem Entry.strip_namePiece : strip e.namePiece.word = e.name ++ [':'] := by
  have hword : IsWord (e.name ++ [':']) := e.isWord _ mem_cons_self _ mem_cons_self
  rw [Entry.namePiece]
  split_ifs
  · exact (strip_word hword).2
  · exact (strip_word hword).1

theorem Entry.interfaceInfo_body (hending : ' ' ∉ ending) :
    interfaceInfo (e.body ++ ending) = .ok {
      name := if e.nameExtra = 0 ∨ 1 + e.nameExtra ≤ e.removed then e.name ++ [':'] else []
      linkEther := if e.link.extra = 0 ∨ e.beforeMac ≤ e.removed then e.link.word ['\n'] else []
      inet := if e.inet.extra = 0 ∨ e.beforeIpv4 ≤ e.removed then e.inet.word (e.afterInet ending)
        else [] } := by
  have hwords := e.delEmpty_words hending
  obtain ⟨later, hhead⟩ := e.head_words hending e.removed
  have hname : strip (if 1 + e.nameExtra ≤ e.removed then e.namePiece.word else []) =
      if e.nameExtra = 0 ∨ 1 + e.nameExtra ≤ e.removed then e.name ++ [':'] else [] := by
    rw [apply_ite strip, e.strip_namePiece]
    exact if_congr e.one_le_removed rfl rfl
  have hmac := e.getNextEl_mac hending e.removed
  have hipv4 := e.getNextEl_ipv4 hending e.removed
  rw [hhead] at hmac hipv4
  simp only [interfaceInfo, hwords, hhead, hmac, hipv4, Option.getD_some, hname]

theorem ite_empty_eq_iff {c : Prop} [Decidable c] (hw : w ≠ []) :
    (if c then w else []) = w ↔ c := by
  rw [ite_eq_left_iff]
  exact ⟨fun h => by_contra fun hc => hw (h hc).symm, fun hc hn => absurd hc hn⟩

theorem Keyed.ite_word_eq_iff {c : Prop} [Decidable c] {k : Keyed}
    (h : ∀ p ∈ k.line key, IsWord p.word) :
    (if c then k.word ending else []) = k.value ↔ c ∧ (k.more ≠ [] ∨ ending = []) := by
  have hne : k.value ≠ [] := (h _ (mem_cons_of_mem _ mem_cons_self)).1
  have hword : k.word ending = k.value ↔ k.more ≠ [] ∨ ending = [] := by
    rw [Keyed.word]
    split_ifs with hmore <;> simp [hmore]
  split_ifs with hc
  · rw [hword, and_iff_right hc]
  · exact iff_of_false hne.symm fun h => hc h.1

theorem Entry.exists_interfaceInfo (hending : ' ' ∉ ending) :
    ∃ info, interfaceInfo (e.body ++ ending) = .ok info ∧
      (info = e.printed ↔
        e.Cleaned ∧ e.link.more ≠ [] ∧ (e.inet.more ≠ [] ∨ e.others = [] ∧ ending = [])) ∧
      info ≠ e.interface := by
  obtain ⟨-, hrest⟩ := forall_mem_cons.mp e.isWord
  obtain ⟨hlink, hrest⟩ := forall_mem_cons.mp hrest
  obtain ⟨hinet, -⟩ := forall_mem_cons.mp hrest
  have hafter : e.afterInet ending = [] ↔ e.others = [] ∧ ending = [] := by
    rw [Entry.afterInet]
    split_ifs with hothers <;> simp [hothers]
  refine ⟨_, e.interfaceInfo_body hending, ?_, fun h => ?_⟩
  · rw [Entry.printed, Interface.mk.injEq, ite_empty_eq_iff (by simp), Keyed.ite_word_eq_iff hlink,
      Keyed.ite_word_eq_iff hinet, hafter, Entry.Cleaned]
    simp only [cons_ne_self, or_false]
    tauto
  · have hname : (if e.nameExtra = 0 ∨ 1 + e.nameExtra ≤ e.removed then e.name ++ [':'] else []) =
        e.name := congrArg Interface.name h
    split_ifs at hname
    · simp at hname
    · exact e.name_ne hname.symm

end Record

end LinuxWorkouts.NetworkAudit
