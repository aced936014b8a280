import LinuxWorkouts.Lib.Ascii
import LinuxWorkouts.Lib.StdString

/-!
The records of `c++/map-reduce/BFS-non-weighted-graph`.

A record is a line with a vertex, its distance and its neighbours, separated by tabs. Lines are
without their newline. `parseLine_record` is the round trip, for every text that stands for the
distance; `parseLine_printData` is its case for what `print_data` writes, and
`printData_round_trip` has the newline as well.
-/

namespace LinuxWorkouts.MapReduce

open List

open Ascii (ascii decimal signedDecimal stoi StoiError ofChar isDigit_of_mem_decimal stoi_decimal)
open StdString

abbrev Line := List UInt8

def tab : UInt8 := 9

def comma : UInt8 := ofChar ','

def openBrace : UInt8 := 123

def closeBrace : UInt8 := 125

def intMax : Nat := 2147483647

structure VertexInfo where
  vertexId : Nat
  dist : Int
  adjVertex : List Line
  deriving DecidableEq, Repr

/-! ### Reading -/

def pushNonEmpty (val : Line) : List Line := if val ≠ [] then [val] else []

/-- The loop of `split_line`. -/
def splitLineLoop (separator : UInt8) : Line → Line → List Line
  | [], val => pushNonEmpty val
  | c :: cs, val =>
    if c ≠ separator then splitLineLoop separator cs (val ++ [c])
    else pushNonEmpty val ++ splitLineLoop separator cs []

def splitLine (line : Line) (separator : UInt8) : List Line := splitLineLoop separator line []

/-- A part of the line that is to be read as a number. The handlers of the exceptions write a
message and return a variable that was never given a value, so there is no result then. -/
def part (line : Line) (pos count : Nat) : Except StoiError Line :=
  (substr line pos count).mapError fun _ => .outOfRange

def getVertexId (line : Line) : Except StoiError Nat :=
  (part line 0 (upTo (find line tab 0) 0)).bind fun text =>
    (stoi text).map fun n => (n % 2 ^ 64).toNat

def distanceOf (dist : Line) : Except StoiError Int :=
  if dist = ascii "INF" then .ok intMax else stoi dist

def getDistanceValue (line : Line) : Except StoiError Int :=
  let start := past (find line tab 0) 1
  (part line start (upTo (find line tab start) start)).bind distanceOf

def getAdjList (line : Line) : List Line :=
  let start := past (find line openBrace 0) 1
  match substr line start (upTo (find line closeBrace 0) start) with
  | .ok listLine => splitLine listLine comma
  -- The handlers return the vector as it was made, empty.
  | .error _ => []

def parseLine (line : Line) : Except StoiError VertexInfo :=
  (getVertexId line).bind fun vertexId =>
    (getDistanceValue line).map fun dist => ⟨vertexId, dist, getAdjList line⟩

/-! ### Writing -/

def printDist (dist : Int) : Line := if dist = intMax then ascii "INF" else signedDecimal dist

/-- The loop of `print_adj_vertex`. -/
def printElements : List Line → Line
  | [] => []
  | [el] => el ++ [closeBrace]
  | el :: els => el ++ comma :: printElements els

def printAdjVertex (vect : List Line) : Line :=
  if vect = [] then [openBrace, closeBrace] else openBrace :: printElements vect

/-- The three fields of a line. -/
def record (vertexId dist : Line) (vect : List Line) : Line :=
  vertexId ++ tab :: (dist ++ tab :: printAdjVertex vect)

def printData (vertexId : Nat) (dist : Int) (vect : List Line) : Line :=
  record (decimal vertexId) (printDist dist) vect

/-- `print_adj_vertex_info`: a line for each neighbour, with the distance through this vertex. -/
def printAdjVertexInfo (vect : List Line) (dist : Int) : List Line :=
  vect.map fun el =>
    record el (if dist = intMax then ascii "INF" else signedDecimal (dist + 1)) []

/-! ### Round trip -/

def IsName (name : Line) : Prop := name ≠ [] ∧ comma ∉ name ∧ closeBrace ∉ name

theorem splitLineLoop_append {separator : UInt8} {name : Line} (h : separator ∉ name)
    (rest val : Line) :
    splitLineLoop separator (name ++ rest) val = splitLineLoop separator rest (val ++ name) := by
  induction name generalizing val with
  | nil => rw [nil_append, append_nil]
  | cons c name ih =>
    rw [mem_cons, not_or] at h
    rw [cons_append, splitLineLoop, if_pos (Ne.symm h.1), ih h.2, append_assoc, singleton_append]

theorem pushNonEmpty_of_ne {name : Line} (h : name ≠ []) : pushNonEmpty name = [name] := if_pos h

theorem printElements_eq {vect : List Line} (hvect : vect ≠ []) (h : ∀ el ∈ vect, IsName el) :
    ∃ body, printElements vect = body ++ [closeBrace] ∧ closeBrace ∉ body ∧
      splitLine body comma = vect := by
  induction vect with
  | nil => exact absurd rfl hvect
  | cons el els ih =>
    obtain ⟨hne, hcomma, hclose⟩ := h el mem_cons_self
    cases els with
    | nil =>
      refine ⟨el, rfl, hclose, ?_⟩
      have happend := splitLineLoop_append hcomma [] []
      rw [append_nil, nil_append] at happend
      rw [splitLine, happend, splitLineLoop, pushNonEmpty_of_ne hne]
    | cons next els =>
      obtain ⟨body, hbody, hclose', hsplit⟩ :=
        ih (cons_ne_nil _ _) fun x hx => h x (mem_cons_of_mem _ hx)
      refine ⟨el ++ comma :: body, ?_, ?_, ?_⟩
      · rw [printElements, hbody, append_assoc, cons_append]
        exact fun hnil => cons_ne_nil _ _ hnil
      · rw [mem_append, mem_cons, not_or, not_or]
        exact ⟨hclose, by decide, hclose'⟩
      · rw [splitLine, splitLineLoop_append hcomma, nil_append, splitLineLoop,
          if_neg (not_not.mpr rfl), pushNonEmpty_of_ne hne, singleton_append]
        exact congrArg (el :: ·) hsplit

theorem printAdjVertex_eq {vect : List Line} (h : ∀ el ∈ vect, IsName el) :
    ∃ body, printAdjVertex vect = openBrace :: (body ++ [closeBrace]) ∧ closeBrace ∉ body ∧
      splitLine body comma = vect := by
  unfold printAdjVertex
  split
  · next hnil => exact ⟨[], rfl, not_mem_nil, hnil ▸ rfl⟩
  · next hne =>
      obtain ⟨body, hbody, hclose, hsplit⟩ := printElements_eq hne h
      exact ⟨body, by rw [hbody], hclose, hsplit⟩

def IsField (text : Line) : Prop := tab ∉ text ∧ openBrace ∉ text ∧ closeBrace ∉ text

section RoundTrip

variable {idText distText : Line} {vect : List Line}

theorem part_of_le {line : Line} {pos count : Nat} (h : pos ≤ line.length) :
    part line pos count = .ok ((line.drop pos).take count) := by
  rw [part, substr_of_le h]
  rfl

section

variable (hid : IsField idText)
include hid

theorem getVertexId_record {n : Int} (hvalue : stoi idText = .ok n) :
    getVertexId (record idText distText vect) = .ok (n % 2 ^ 64).toNat := by
  have hfind : find (record idText distText vect) tab 0 = some idText.length :=
    find_append_cons hid.1
  have hsub : upTo (some idText.length) 0 = idText.length := by
    rw [upTo, sizeSub, if_pos (Nat.zero_le _), Nat.sub_zero]
  rw [getVertexId, hfind, hsub, part_of_le (Nat.zero_le _), drop_zero, record,
    take_left, Except.bind, hvalue, Except.map]

theorem getDistanceValue_record (hdist : IsField distText) :
    getDistanceValue (record idText distText vect) = distanceOf distText := by
  have hline : record idText distText vect =
      (idText ++ [tab]) ++ (distText ++ tab :: printAdjVertex vect) := by
    rw [record, append_assoc, singleton_append]
  have hlength : (idText ++ [tab]).length = idText.length + 1 := length_append ..
  have hfirst : find (record idText distText vect) tab 0 = some idText.length :=
    find_append_cons hid.1
  have hsecond : find (record idText distText vect) tab (idText.length + 1) =
      some (idText.length + 1 + distText.length) := by
    rw [hline, ← hlength]
    exact find_append_append_cons hdist.1
  have hcount : upTo (some (idText.length + 1 + distText.length)) (idText.length + 1) =
      distText.length := by
    rw [upTo, sizeSub, if_pos (by omega)]
    omega
  have hstart : past (some idText.length) 1 = idText.length + 1 := rfl
  have hpart : part (record idText distText vect) (idText.length + 1) distText.length =
      .ok distText := by
    rw [part_of_le (by rw [hline, length_append, hlength]; omega), hline, ← hlength,
      drop_left, take_left]
  rw [getDistanceValue, hfirst, hstart]
  simp only [hsecond, hcount, hpart]
  rfl

theorem getAdjList_record (hdist : IsField distText) (hnames : ∀ el ∈ vect, IsName el) :
    getAdjList (record idText distText vect) = vect := by
  obtain ⟨body, hbody, hclose, hsplit⟩ := printAdjVertex_eq hnames
  -- The text in front of the brace, and the line cut there.
  have hfront : ∀ c, c ≠ tab → c ∉ idText → c ∉ distText →
      c ∉ idText ++ tab :: (distText ++ [tab]) := by
    intro c htab hcid hcdist
    simp [htab, hcid, hcdist]
  have hline : record idText distText vect =
      (idText ++ tab :: (distText ++ [tab])) ++ openBrace :: (body ++ [closeBrace]) := by
    rw [record, hbody]
    simp
  have hline' : record idText distText vect =
      (idText ++ tab :: (distText ++ [tab]) ++ openBrace :: body) ++ closeBrace :: [] := by
    rw [hline]
    simp
  generalize hfrontDef : idText ++ tab :: (distText ++ [tab]) = front at hline hline' hfront
  have hopen : find (record idText distText vect) openBrace 0 = some front.length := by
    rw [hline]
    exact find_append_cons (hfront _ (by decide) hid.2.1 hdist.2.1)
  have hclosePos : find (record idText distText vect) closeBrace 0 =
      some (front.length + (body.length + 1)) := by
    rw [hline', find_append_cons, length_append, length_cons]
    rw [mem_append, mem_cons, not_or, not_or]
    exact ⟨hfront _ (by decide) hid.2.2 hdist.2.2, by decide, hclose⟩
  have hstart : past (some front.length) 1 = front.length + 1 := rfl
  have hcount : upTo (some (front.length + (body.length + 1))) (front.length + 1) =
      body.length := by
    rw [upTo, sizeSub, if_pos (by omega)]
    omega
  have hpart : substr (record idText distText vect) (front.length + 1) body.length = .ok body := by
    have hcut : record idText distText vect = (front ++ [openBrace]) ++ (body ++ [closeBrace]) := by
      rw [hline]
      simp
    have hlength : (front ++ [openBrace]).length = front.length + 1 := length_append ..
    rw [substr_of_le (by rw [hcut, length_append, hlength]; omega), hcut, ← hlength,
      drop_left, take_left]
  rw [getAdjList, hopen, hstart]
  simp only [hclosePos, hcount, hpart]
  exact hsplit

theorem parseLine_record {n d : Int} (hdist : IsField distText) (hnames : ∀ el ∈ vect, IsName el)
    (hvalue : stoi idText = .ok n) (hdistance : distanceOf distText = .ok d) :
    parseLine (record idText distText vect) = .ok ⟨(n % 2 ^ 64).toNat, d, vect⟩ := by
  rw [parseLine, getVertexId_record hid hvalue, getDistanceValue_record hid hdist,
    getAdjList_record hid hdist hnames, hdistance]
  rfl

end

end RoundTrip

/-! ### Numbers as fields -/

theorem isField_decimal (n : Nat) : IsField (decimal n) := by
  refine ⟨?_, ?_, ?_⟩ <;>
  · intro hmem
    exact absurd (isDigit_of_mem_decimal hmem) (by decide)

theorem isName_decimal (n : Nat) : IsName (decimal n) := by
  refine ⟨Ascii.decimal_ne_nil, ?_, ?_⟩ <;>
  · intro hmem
    exact absurd (isDigit_of_mem_decimal hmem) (by decide)

theorem decimal_ne_inf (n : Nat) : decimal n ≠ ascii "INF" := by
  intro heq
  have hmem : (73 : UInt8) ∈ decimal n := heq ▸ by decide
  exact absurd (isDigit_of_mem_decimal hmem) (by decide)

theorem distanceOf_decimal {d : Nat} (h : d ≤ intMax) : distanceOf (decimal d) = .ok d := by
  rw [distanceOf, if_neg (decimal_ne_inf d)]
  exact stoi_decimal (Nat.lt_succ_of_le h)

theorem parseLine_decimal {v : Nat} {distText : Line} {d : Int} {vect : List Line} (hv : v ≤ intMax)
    (hdist : IsField distText) (hdistance : distanceOf distText = .ok d)
    (hnames : ∀ el ∈ vect, IsName el) :
    parseLine (record (decimal v) distText vect) = .ok ⟨v, d, vect⟩ := by
  have hvalue : stoi (decimal v) = .ok v := stoi_decimal (Nat.lt_succ_of_le hv)
  have hsize : ((v : Int) % 2 ^ 64).toNat = v := by
    have hle : v ≤ 2147483647 := hv
    omega
  rw [parseLine_record (isField_decimal v) hdist hnames hvalue hdistance, hsize]

theorem isField_inf : IsField (ascii "INF") := by
  unfold IsField
  decide

theorem parseLine_printData {v d : Nat} {vect : List Line} (hv : v ≤ intMax) (hd : d ≤ intMax)
    (hnames : ∀ el ∈ vect, IsName el) :
    parseLine (printData v d vect) = .ok ⟨v, d, vect⟩ := by
  unfold printData printDist
  split
  · next heq => exact parseLine_decimal hv isField_inf (heq ▸ rfl) hnames
  · exact parseLine_decimal hv (isField_decimal d) (distanceOf_decimal hd) hnames

/-! ### One line a record -/

theorem newline_not_mem_printElements :
    ∀ {vect : List Line}, (∀ el ∈ vect, Ascii.newline ∉ el) → Ascii.newline ∉ printElements vect
  | [], _ => not_mem_nil
  | [el], h => by
      have hel := h el mem_cons_self
      have hbrace : Ascii.newline ≠ closeBrace := by decide
      simp [printElements, hel, hbrace]
  | el :: next :: els, h => by
      have hel := h el mem_cons_self
      have hcomma : Ascii.newline ≠ comma := by decide
      have hels := newline_not_mem_printElements fun e he => h e (mem_cons_of_mem el he)
      simp [printElements, hel, hcomma, hels]

theorem newline_not_mem_printAdjVertex {vect : List Line} (h : ∀ el ∈ vect, Ascii.newline ∉ el) :
    Ascii.newline ∉ printAdjVertex vect := by
  unfold printAdjVertex
  split
  · decide
  · have hbrace : Ascii.newline ≠ openBrace := by decide
    exact not_mem_cons_of_ne_of_not_mem hbrace (newline_not_mem_printElements h)

theorem newline_not_mem_printDist (d : Nat) : Ascii.newline ∉ printDist d := by
  unfold printDist
  split
  · decide
  · exact Ascii.newline_not_mem_decimal

theorem newline_not_mem_printData {v d : Nat} {vect : List Line}
    (h : ∀ el ∈ vect, Ascii.newline ∉ el) : Ascii.newline ∉ printData v d vect := by
  have hid : Ascii.newline ∉ decimal v := Ascii.newline_not_mem_decimal
  have htab : Ascii.newline ≠ tab := by decide
  simp [printData, record, hid, htab, newline_not_mem_printDist d, newline_not_mem_printAdjVertex h]

/-- **Records through a stream.** What `print_data` writes in front of anything else is cut off
again as one line, and `parse_line` reads from it what was written. -/
theorem printData_round_trip {v d : Nat} {vect : List Line} (hv : v ≤ intMax) (hd : d ≤ intMax)
    (hnames : ∀ el ∈ vect,
      el ≠ [] ∧ comma ∉ el ∧ openBrace ∉ el ∧ closeBrace ∉ el ∧ Ascii.newline ∉ el) (rest : Line) :
    Ascii.splitLine (printData v d vect ++ Ascii.newline :: rest) =
        (printData v d vect ++ [Ascii.newline], rest) ∧
      parseLine (printData v d vect) = .ok ⟨v, d, vect⟩ := by
  constructor
  · have hline : ∀ el ∈ vect, Ascii.newline ∉ el := fun el hel => (hnames el hel).2.2.2.2
    exact Ascii.splitLine_append (newline_not_mem_printData hline)
  · refine parseLine_printData hv hd fun el hel => ?_
    obtain ⟨hne, hcomma, -, hbrace, -⟩ := hnames el hel
    exact ⟨hne, hcomma, hbrace⟩

theorem printData_round_trip_infinite :
    parseLine (printData 7 intMax [ascii "a b", ascii "12"]) =
      .ok ⟨7, intMax, [ascii "a b", ascii "12"]⟩ :=
  (printData_round_trip (by decide) (by decide) (by decide) []).2

end LinuxWorkouts.MapReduce
