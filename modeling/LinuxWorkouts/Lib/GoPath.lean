import LinuxWorkouts.Lib.Ascii

/-!
Paths as Go's `path/filepath` handles them on Unix.

`base`, `clean` and `join` follow the library: a path is cut at its slashes, and the parts go onto a
stack on which `..` takes the part before it away. `join_of_proper` is the rule for putting a name
that is a single part behind a directory: whatever the directory is, it only comes in front of the
name, so different names have different paths. `.` and `/` are joined to the directory itself and
`..` to the one above (`clean_append_eq_join_iff`, `join_up_append_eq_join_iff`).
-/

namespace LinuxWorkouts.GoPath

open Ascii List

variable {dir name part path : List UInt8}

def base (path : List UInt8) : List UInt8 :=
  if path = [] then ascii "."
  else
    let last := ((path.reverse.dropWhile (· = slash)).takeWhile (· ≠ slash)).reverse
    if last = [] then [slash] else last

/-- One part of a path onto the stack of those before it, the last one first. -/
def pushPart (rooted : Bool) (stack : List (List UInt8)) (part : List UInt8) :
    List (List UInt8) :=
  if part = [] ∨ part = ascii "." then stack
  else if part = ascii ".." then
    match stack with
    | [] => if rooted then [] else [part]
    | top :: rest => if top = ascii ".." then part :: top :: rest else rest
  else part :: stack

def cleanParts (rooted : Bool) (parts : List (List UInt8)) : List (List UInt8) :=
  (parts.foldl (pushPart rooted) []).reverse

def isAbs (path : List UInt8) : Bool := path.head? = some slash

def parts (path : List UInt8) : List (List UInt8) := cleanParts (isAbs path) (path.splitOn slash)

def render (rooted : Bool) (parts : List (List UInt8)) : List UInt8 :=
  if rooted then slash :: [slash].intercalate parts
  else if parts = [] then ascii "."
  else [slash].intercalate parts

/-- `filepath.Clean` -/
def clean (path : List UInt8) : List UInt8 := render (isAbs path) (parts path)

/-- `filepath.Join` of two elements; an empty one in front is left out. -/
def join (dir name : List UInt8) : List UInt8 :=
  if dir ≠ [] then clean (dir ++ slash :: name)
  else if name ≠ [] then clean name
  else []

/-- A name that is a part of its own. -/
structure Proper (name : List UInt8) : Prop where
  nonempty : name ≠ []
  noSlash : slash ∉ name
  notDot : name ≠ ascii "."
  notDotDot : name ≠ ascii ".."

instance (name : List UInt8) : Decidable (Proper name) :=
  decidable_of_iff (name ≠ [] ∧ slash ∉ name ∧ name ≠ ascii "." ∧ name ≠ ascii "..")
    ⟨fun h => ⟨h.1, h.2.1, h.2.2.1, h.2.2.2⟩, fun h => ⟨h.1, h.2, h.3, h.4⟩⟩

/-! ### The last part -/

theorem base_cases (path : List UInt8) :
    base path = [slash] ∨ base path ≠ [] ∧ slash ∉ base path := by
  rw [base]
  split
  · exact .inr ⟨by decide, by decide⟩
  · dsimp only
    split
    · exact .inl rfl
    · next hne =>
        refine .inr ⟨hne, fun hmem => ?_⟩
        have hkept := mem_takeWhile_imp (mem_reverse.mp hmem)
        simp at hkept

theorem proper_base (h : base path ∉ [ascii ".", ascii "..", [slash]]) : Proper (base path) := by
  simp only [mem_cons, not_mem_nil, or_false, not_or] at h
  obtain ⟨hnonempty, hnoSlash⟩ := (base_cases path).resolve_left h.2.2
  exact ⟨hnonempty, hnoSlash, h.1, h.2.1⟩

/-! ### A name behind a directory -/

theorem pushPart_of_proper (h : Proper part) (rooted : Bool) (stack : List (List UInt8)) :
    pushPart rooted stack part = part :: stack := by
  have hkept : ¬ (part = [] ∨ part = ascii ".") := by
    rintro (hnil | hdot)
    · exact h.nonempty hnil
    · exact h.notDot hdot
  unfold pushPart
  rw [if_neg hkept, if_neg h.notDotDot]

theorem cleanParts_concat (h : Proper name) (rooted : Bool) (parts : List (List UInt8)) :
    cleanParts rooted (parts ++ [name]) = cleanParts rooted parts ++ [name] := by
  rw [cleanParts, foldl_append, foldl_cons, foldl_nil, pushPart_of_proper h,
    reverse_cons, cleanParts]

def front (dir : List UInt8) : List UInt8 :=
  (if isAbs dir then [slash] else []) ++
    if parts dir = [] then [] else [slash].intercalate (parts dir) ++ [slash]

theorem intercalate_concat (parts : List (List UInt8)) (name : List UInt8) :
    [slash].intercalate (parts ++ [name]) =
      (if parts = [] then [] else [slash].intercalate parts ++ [slash]) ++ name := by
  induction parts with
  | nil => simp
  | cons part parts ih =>
    rw [cons_append, intercalate_cons_of_ne_nil (by simp), ih, if_neg (cons_ne_nil _ _)]
    by_cases hnil : parts = []
    · simp [hnil]
    · simp [hnil, intercalate_cons_of_ne_nil]

theorem join_eq_render (hdir : dir ≠ []) (name : List UInt8) :
    join dir name = render (isAbs dir)
      (cleanParts (isAbs dir) (dir.splitOn slash ++ name.splitOn slash)) := by
  have habs : isAbs (dir ++ slash :: name) = isAbs dir := by
    cases dir with
    | nil => exact absurd rfl hdir
    | cons b dir => rfl
  rw [join, if_pos hdir, clean, parts, habs, splitOn_append_cons_self]

theorem join_of_proper (hdir : dir ≠ []) (hname : Proper name) :
    join dir name = front dir ++ name := by
  have hparts : parts dir ++ [name] ≠ [] := by simp
  rw [join_eq_render hdir, splitOn_eq_singleton hname.noSlash, cleanParts_concat hname, ← parts,
    render, if_neg hparts, intercalate_concat, front]
  split <;> simp

/-! ### What is no name behind a directory -/

theorem join_of_self (hdir : dir ≠ []) (hname : name = ascii "." ∨ name = [slash]) :
    join dir name = clean dir := by
  have hsame : cleanParts (isAbs dir) (dir.splitOn slash ++ name.splitOn slash) = parts dir := by
    rw [cleanParts, foldl_append]
    rcases hname with rfl | rfl <;> rfl
  rw [join_eq_render hdir, hsame, clean]

theorem join_up (hdir : dir ≠ []) : join dir (ascii "..") = render (isAbs dir)
    (pushPart (isAbs dir) (parts dir).reverse (ascii "..")).reverse := by
  have hsplit : (ascii "..").splitOn slash = [ascii ".."] := by decide
  rw [join_eq_render hdir, hsplit, cleanParts, foldl_append, parts, cleanParts, reverse_reverse]
  rfl

section Behind

variable {suffix : List UInt8} (hdir : dir ≠ []) (hname : Proper name) (hsuffix : slash ∉ suffix)
include hdir hname hsuffix

theorem clean_append_eq_join_iff : clean dir ++ suffix = join dir name ↔
    parts dir = [] ∧ (if isAbs dir then [] else ascii ".") ++ suffix = name := by
  rw [join_of_proper hdir hname, front, clean, render]
  by_cases hparts : parts dir = []
  · cases isAbs dir <;> simp [hparts]
  · refine iff_of_false (fun h => hsuffix ?_) fun h => hparts h.1
    have hslash : suffix = slash :: name := by
      cases hrooted : isAbs dir <;> simpa [hrooted, hparts] using h
    rw [hslash]
    exact mem_cons_self

theorem join_up_append_eq_join_iff : join dir (ascii "..") ++ suffix = join dir name ↔
    if parts dir = [] ∧ isAbs dir then suffix = name
    else (parts dir).getLast? ∈ [none, some (ascii "..")] ∧ ascii ".." ++ suffix = name := by
  rw [join_up hdir, join_of_proper hdir hname, front]
  generalize isAbs dir = rooted
  obtain hparts | ⟨init, last, hparts⟩ := (parts dir).eq_nil_or_concat
  · cases rooted <;> simp [hparts, pushPart, render, ascii]
  · rw [hparts, concat_eq_append]
    by_cases hlast : last = ascii ".."
    · subst hlast
      have hpush : (pushPart rooted (init ++ [ascii ".."]).reverse (ascii "..")).reverse =
          (init ++ [ascii ".."]) ++ [ascii ".."] := by
        simp [pushPart, ascii]
      rw [hpush, render, intercalate_concat]
      cases rooted <;> simp
    · have hdots : ¬ (ascii ".." = [] ∨ ascii ".." = ascii ".") := by decide
      have hpush : (pushPart rooted (init ++ [last]).reverse (ascii "..")).reverse = init := by
        rw [reverse_append, reverse_singleton, singleton_append, pushPart, if_neg hdots, if_pos rfl]
        simp only [if_neg hlast, reverse_reverse]
      rw [hpush, intercalate_concat]
      refine iff_of_false (fun h => hsuffix ?_) (by simp [hlast])
      by_cases hinit : init = []
      · subst hinit
        cases rooted with
        | true =>
          have hsame : suffix = last ++ slash :: name := by simpa [render] using h
          simp [hsame]
        | false =>
          have hsame : ascii "." ++ suffix = last ++ slash :: name := by simpa [render] using h
          have hmem : slash ∈ ascii "." ++ suffix := by simp [hsame]
          exact (mem_append.mp hmem).resolve_left (by decide)
      · have hsame : suffix = slash :: (last ++ slash :: name) := by
          cases rooted <;> simpa [render, hinit] using h
        simp [hsame]

end Behind

end LinuxWorkouts.GoPath
