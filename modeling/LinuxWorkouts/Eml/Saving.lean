import LinuxWorkouts.Eml.Parser

/-!
How the mail parser writes attachments to files (`save_str_to_file` of `get_attachments.cpp`).

A file is written through an `ofstream` or, when that does not open, with `open` and `write`.
What the system answers to these calls is in `Answers`; every answer is allowed, also a disk that
is full. `saveStrToFile_cases` lists what a call that returns true has written. Neither path writes
the data alone: the stream adds an end of line, and `open` does not cut off what the file held.
-/

namespace LinuxWorkouts.Eml

open Function List

/-- The contents of the files, by their paths. -/
abbrev Files := List UInt8 → Option (List UInt8)

/-- What the system does in one call of `save_str_to_file`. -/
structure Answers where
  streamOpens : Bool
  reached : Nat
  fdOpens : Bool
  /-- how many bytes `write` would take, `none` if it fails -/
  accepted : Option Nat
deriving DecidableEq, Repr

def cStr (s : List UInt8) : List UInt8 := s.takeWhile (· ≠ 0)

/-- A write at the start of a file; what the file held behind it stays. -/
def overwrite (old bytes : List UInt8) : List UInt8 := bytes ++ old.drop bytes.length

/-- The bytes that `write` takes. -/
def Answers.written (a : Answers) (data : List UInt8) : List UInt8 := data.take (a.accepted.getD 0)

/-- `write_cnt` as it is compared with `data.size()`: as a `size_t`, in which `-1` is the largest
value. -/
def Answers.writeCnt (a : Answers) (data : List UInt8) : Nat :=
  if a.accepted = none then 2 ^ 64 - 1 else (a.written data).length

def saveStrToFileLinux (a : Answers) (files : Files) (outFilename data : List UInt8) :
    Bool × Files :=
  if ¬ a.fdOpens then (false, files)
  else
    let old := (files (cStr outFilename)).getD []
    (decide (a.writeCnt data = data.length),
      update files (cStr outFilename) (some (overwrite old (a.written data))))

/-- The stream truncates the file when it opens, and is not asked whether the output succeeded. -/
def saveStrToFile (a : Answers) (files : Files) (outFilename data : List UInt8) : Bool × Files :=
  if ¬ a.streamOpens then saveStrToFileLinux a files outFilename data
  else
    (true, update files (cStr outFilename) (some ((data ++ [10]).take a.reached)))

variable {a : Answers} {files : Files} {outFilename data : List UInt8}

/-! ### One call -/

theorem Answers.written_eq_of_writeCnt (hsize : data.length < 2 ^ 64 - 1)
    (hcnt : a.writeCnt data = data.length) : a.written data = data := by
  rw [Answers.writeCnt] at hcnt
  split at hcnt
  · omega
  · exact take_eq_self_iff data |>.mpr (by simpa [Answers.written] using hcnt)

theorem saveStrToFile_cases (hsize : data.length < 2 ^ 64 - 1)
    (hsaved : (saveStrToFile a files outFilename data).1 = true) :
    (a.streamOpens = true ∧ (saveStrToFile a files outFilename data).2 (cStr outFilename) =
        some ((data ++ [10]).take a.reached)) ∨
      (a.streamOpens = false ∧ (saveStrToFile a files outFilename data).2 (cStr outFilename) =
        some (overwrite ((files (cStr outFilename)).getD []) data)) := by
  cases hstream : a.streamOpens with
  | true =>
    left
    simp [saveStrToFile, hstream]
  | false =>
    right
    cases hfd : a.fdOpens with
    | false => simp [saveStrToFile, saveStrToFileLinux, hstream, hfd] at hsaved
    | true =>
      have hcnt : a.writeCnt data = data.length := by
        simpa [saveStrToFile, saveStrToFileLinux, hstream, hfd] using hsaved
      simp [saveStrToFile, saveStrToFileLinux, hstream, hfd,
        Answers.written_eq_of_writeCnt hsize hcnt]

theorem take_line_eq_iff (data : List UInt8) (reached : Nat) :
    (data ++ [10]).take reached = data ↔ reached = data.length := by
  constructor
  · intro h
    have hlength := congrArg length h
    simp only [length_take, length_append, length_singleton] at hlength
    omega
  · rintro rfl
    exact take_left

theorem overwrite_eq_iff (old data : List UInt8) :
    overwrite old data = data ↔ old.length ≤ data.length := by
  rw [overwrite, append_right_eq_self, drop_eq_nil_iff]

/-- **Exact files.** A call that returned true has left exactly the data if the stream lost the end
of line and nothing else, or if the fallback found a file that was not longer than the data. -/
theorem saved_exactly_iff (a : Answers) (files : Files) (outFilename data : List UInt8)
    (hsize : data.length < 2 ^ 64 - 1)
    (hsaved : (saveStrToFile a files outFilename data).1 = true) :
    (saveStrToFile a files outFilename data).2 (cStr outFilename) = some data ↔
      (a.streamOpens = true ∧ a.reached = data.length) ∨
        (a.streamOpens = false ∧ ((files (cStr outFilename)).getD []).length ≤ data.length) := by
  rcases saveStrToFile_cases hsize hsaved with ⟨hstream, hfile⟩ | ⟨hstream, hfile⟩
  · rw [hfile, Option.some_inj, take_line_eq_iff]
    simp [hstream]
  · rw [hfile, Option.some_inj, overwrite_eq_iff]
    simp [hstream]

theorem saved_exactly_iff_new_file :
    (saveStrToFile ⟨false, 0, true, some 2⟩ (fun _ => none) [97] [1, 2]).2 (cStr [97]) =
      some [1, 2] :=
  (saved_exactly_iff ⟨false, 0, true, some 2⟩ (fun _ => none) [97] [1, 2] (by decide)
    (by decide)).mpr (.inr ⟨rfl, by decide⟩)

/-- A stream that works adds a byte, and the fallback leaves the end of a longer file. -/
theorem saved_inexactly :
    (saveStrToFile ⟨true, 3, true, some 2⟩ (fun _ => none) [97] [1, 2]).1 = true ∧
      (saveStrToFile ⟨true, 3, true, some 2⟩ (fun _ => none) [97] [1, 2]).2 (cStr [97]) =
        some [1, 2, 10] ∧
      (saveStrToFile ⟨false, 0, true, some 2⟩ (fun _ => some [7, 8, 9]) [97] [1, 2]).1 = true ∧
      (saveStrToFile ⟨false, 0, true, some 2⟩ (fun _ => some [7, 8, 9]) [97] [1, 2]).2 (cStr [97]) =
        some [1, 2, 9] := by
  decide

/-! ### The calls of a run -/

/-- The attachments of a run in their order, each with the answers to its call. -/
def saveAll (files : Files) (saved : List (Answers × List UInt8 × List UInt8)) : Files :=
  saved.foldl (fun files s => (saveStrToFile s.1 files s.2.1 s.2.2).2) files

theorem saveAll_concat (files : Files) (saved : List (Answers × List UInt8 × List UInt8))
    (s : Answers × List UInt8 × List UInt8) :
    saveAll files (saved ++ [s]) = (saveStrToFile s.1 (saveAll files saved) s.2.1 s.2.2).2 := by
  rw [saveAll, foldl_append, foldl_cons, foldl_nil, saveAll]

def SavedWhole (s : Answers × List UInt8 × List UInt8) : Prop :=
  s.1.streamOpens = true ∧ s.2.2.length < s.1.reached

theorem saveStrToFile_written {s : Answers × List UInt8 × List UInt8} (hs : SavedWhole s) :
    (saveStrToFile s.1 files s.2.1 s.2.2).2 =
      update files (cStr s.2.1) (some (s.2.2 ++ [10])) := by
  have hall : (s.2.2 ++ [10]).take s.1.reached = s.2.2 ++ [10] := by
    rw [take_eq_self_iff, length_append, length_singleton]
    exact hs.2
  simp [saveStrToFile, hs.1, hall]

/-- When every stream works, a file holds the last attachment of its name with an end of line; a
file no attachment is named after stays. -/
theorem saveAll_written (saved : List (Answers × List UInt8 × List UInt8))
    (hsaved : ∀ s ∈ saved, SavedWhole s) (path : List UInt8) :
    saveAll files saved path =
      ((saved.reverse.find? fun s => cStr s.2.1 = path).map fun s => s.2.2 ++ [10]).or
        (files path) := by
  -- from the back: the last call of a name decides
  induction saved using reverseRecOn with
  | nil => rfl
  | append_singleton saved s ih =>
    have hlast : SavedWhole s := hsaved s (mem_append_right _ (mem_singleton_self s))
    have hbefore : ∀ s ∈ saved, SavedWhole s := fun s hs => hsaved s (mem_append_left _ hs)
    rw [saveAll_concat, saveStrToFile_written hlast, reverse_concat, find?_cons]
    by_cases hpath : cStr s.2.1 = path
    · subst hpath
      simp
    · rw [update_of_ne (Ne.symm hpath), ih hbefore]
      simp [hpath]

theorem saveAll_written_twice :
    saveAll (fun _ => none) [(⟨true, 2, true, none⟩, [97], [1]), (⟨true, 2, true, none⟩, [97], [2])]
      [97] = some [2, 10] :=
  saveAll_written _ (by simp [SavedWhole]) [97]

end LinuxWorkouts.Eml
