import LinuxWorkouts.Lib.GoPath

/-!
The path under which the client stores a download (`MakeDestFilePath` of `filesystem.go`).

If the directory has entries that begin with the name of the file, their number is appended to it.
The number says nothing about which names are taken, and `dest_path_fresh_iff` says exactly when the
path is free.
-/

namespace LinuxWorkouts.Tcp.DestPath

open Ascii GoPath List

/-- What `os.ReadDir` returns for an entry. -/
structure DirEntry where
  name : List UInt8
  proper : Proper name
deriving DecidableEq

/-- The loop over the entries. -/
def sameNameCnt (fileName : List UInt8) (dirEntries : List DirEntry) : Nat :=
  dirEntries.foldl
    (fun cnt entry =>
      if fileName.length ≤ entry.name.length &&
          (entry.name.take fileName.length).isPrefixOf fileName then cnt + 1
      else cnt) 0

def makeDestFilePath (srcPath destPath : List UInt8) (dirEntries : Option (List DirEntry)) :
    Option (List UInt8) :=
  let fileName := base srcPath
  let filePath := join destPath fileName
  dirEntries.map fun entries =>
    if 0 < sameNameCnt fileName entries then
      filePath ++ (ascii "_" ++ decimal (sameNameCnt fileName entries))
    else filePath

/-- The name in the directory that the path with a number has, if it has one. `.` and `..` are no
names: the number goes behind the path of the directory itself or of the one above, which is a name
in the directory only at the root, and where the path is `.` or, for `..`, ends with `..`. -/
def numberedName (destPath fileName : List UInt8) (cnt : Nat) : Option (List UInt8) :=
  let number := ascii "_" ++ decimal cnt
  if fileName = ascii "." then
    if parts destPath = [] then some ((if isAbs destPath then [] else ascii ".") ++ number)
    else none
  else if fileName = ascii ".." then
    if parts destPath = [] ∧ isAbs destPath then some number
    else if (parts destPath).getLast? ∈ [none, some (ascii "..")] then some (ascii ".." ++ number)
    else none
  else some (fileName ++ number)

section Count

variable {fileName : List UInt8} {dirEntries : List DirEntry}

theorem sameName_iff (fileName name : List UInt8) :
    (fileName.length ≤ name.length && (name.take fileName.length).isPrefixOf fileName) = true ↔
      fileName <+: name := by
  rw [Bool.and_eq_true, decide_eq_true_eq, isPrefixOf_iff_prefix]
  constructor
  · rintro ⟨hlength, hbegins⟩
    have hsame := hbegins.eq_of_length (length_take_of_le hlength)
    exact hsame ▸ take_prefix _ _
  · intro hbegins
    have hsame := prefix_iff_eq_take.mp hbegins
    exact ⟨hbegins.length_le, hsame ▸ prefix_rfl⟩

theorem sameNameCnt_eq (fileName : List UInt8) (dirEntries : List DirEntry) :
    sameNameCnt fileName dirEntries =
      dirEntries.countP fun entry => decide (fileName <+: entry.name) := by
  have hfold : ∀ cnt, dirEntries.foldl
      (fun cnt entry =>
        if fileName.length ≤ entry.name.length &&
            (entry.name.take fileName.length).isPrefixOf fileName then cnt + 1
        else cnt) cnt =
      cnt + dirEntries.countP fun entry => decide (fileName <+: entry.name) := by
    induction dirEntries with
    | nil => simp
    | cons entry dirEntries ih =>
      intro cnt
      rw [foldl_cons, ih, countP_cons]
      by_cases hbegins : fileName <+: entry.name
      · rw [if_pos ((sameName_iff _ _).mpr hbegins), if_pos (decide_eq_true hbegins)]
        omega
      · rw [if_neg fun h => hbegins ((sameName_iff _ _).mp h),
          if_neg fun h => hbegins (of_decide_eq_true h)]
        omega
  rw [sameNameCnt, hfold, Nat.zero_add]

theorem sameNameCnt_pos (h : ∃ entry ∈ dirEntries, entry.name = fileName) :
    0 < sameNameCnt fileName dirEntries := by
  obtain ⟨entry, hmem, hname⟩ := h
  rw [sameNameCnt_eq, countP_pos_iff]
  exact ⟨entry, hmem, decide_eq_true (hname ▸ prefix_rfl)⟩

end Count

section Paths

variable {srcPath destPath name : List UInt8} {dirEntries : List DirEntry} {cnt : Nat}

theorem slash_not_mem_number (cnt : Nat) : slash ∉ ascii "_" ++ decimal cnt := by
  intro hmem
  rcases mem_append.mp hmem with hmem | hmem
  · exact absurd hmem (by decide)
  · exact absurd (isDigit_of_mem_decimal hmem) (by decide)

theorem join_append_eq_join_iff {fileName suffix : List UInt8} (hdest : destPath ≠ [])
    (hfile : Proper fileName) (hname : Proper name) :
    join destPath fileName ++ suffix = join destPath name ↔ fileName ++ suffix = name := by
  rw [join_of_proper hdest hfile, join_of_proper hdest hname, append_assoc, append_cancel_left_eq]

theorem numbered_path_iff (hdest : destPath ≠ []) (hname : Proper name)
    (hslash : base srcPath ≠ [slash]) :
    join destPath (base srcPath) ++ (ascii "_" ++ decimal cnt) = join destPath name ↔
      numberedName destPath (base srcPath) cnt = some name := by
  have hnumber := slash_not_mem_number cnt
  have hnone : none ≠ some name := (Option.some_ne_none name).symm
  rw [numberedName]
  by_cases hdot : base srcPath = ascii "."
  · rw [if_pos hdot, hdot, join_of_self hdest (.inl rfl),
      clean_append_eq_join_iff hdest hname hnumber]
    by_cases hroot : parts destPath = []
    · rw [if_pos hroot, Option.some.injEq, and_iff_right hroot]
    · rw [if_neg hroot]
      exact iff_of_false (fun h => hroot h.1) hnone
  rw [if_neg hdot]
  by_cases hup : base srcPath = ascii ".."
  · rw [if_pos hup, hup, join_up_append_eq_join_iff hdest hname hnumber]
    by_cases htop : parts destPath = [] ∧ isAbs destPath
    · rw [if_pos htop, if_pos htop, Option.some.injEq]
    rw [if_neg htop, if_neg htop]
    by_cases hlast : (parts destPath).getLast? ∈ [none, some (ascii "..")]
    · rw [if_pos hlast, Option.some.injEq, and_iff_right hlast]
    · rw [if_neg hlast]
      exact iff_of_false (fun h => hlast h.1) hnone
  · have hproper : Proper (base srcPath) := proper_base (by simp [hdot, hup, hslash])
    rw [if_neg hup, join_append_eq_join_iff hdest hproper hname, Option.some.injEq]

theorem name_of_join_eq (hdest : destPath ≠ []) (hname : Proper name)
    (h : join destPath (base srcPath) = join destPath name) : base srcPath = name := by
  have hnil : slash ∉ ([] : List UInt8) := not_mem_nil
  rw [← append_nil (join destPath (base srcPath))] at h
  by_cases hself : base srcPath = ascii "." ∨ base srcPath = [slash]
  · rw [join_of_self hdest hself, clean_append_eq_join_iff hdest hname hnil] at h
    obtain ⟨-, h⟩ := h
    split_ifs at h
    · exact absurd h.symm hname.nonempty
    · exact absurd h.symm hname.notDot
  · rw [not_or] at hself
    by_cases hup : base srcPath = ascii ".."
    · rw [hup, join_up_append_eq_join_iff hdest hname hnil] at h
      split_ifs at h
      · exact absurd h.symm hname.nonempty
      · exact absurd h.2.symm hname.notDotDot
    · have hproper : Proper (base srcPath) := proper_base (by simp [hself, hup])
      rwa [join_append_eq_join_iff hdest hproper hname, append_nil] at h

theorem sameNameCnt_slash (dirEntries : List DirEntry) : sameNameCnt [slash] dirEntries = 0 := by
  rw [sameNameCnt_eq, countP_eq_zero]
  intro entry _ hbegins
  exact entry.proper.noSlash ((of_decide_eq_true hbegins).subset mem_cons_self)

end Paths

/-- **Which downloads overwrite nothing.** If no entry begins with the base of the source path, the
path is free; otherwise it is free if and only if no entry has the numbered name. -/
theorem dest_path_fresh_iff (srcPath destPath : List UInt8) (dirEntries : List DirEntry)
    (hdest : destPath ≠ []) :
    ∃ path, makeDestFilePath srcPath destPath (some dirEntries) = some path ∧
      ((∀ entry ∈ dirEntries, path ≠ join destPath entry.name) ↔
        sameNameCnt (base srcPath) dirEntries = 0 ∨
          ∀ entry ∈ dirEntries, numberedName destPath (base srcPath)
            (sameNameCnt (base srcPath) dirEntries) ≠ some entry.name) := by
  refine ⟨_, rfl, ?_⟩
  beta_reduce
  by_cases hcnt : 0 < sameNameCnt (base srcPath) dirEntries
  · have hslash : base srcPath ≠ [slash] := by
      intro h
      rw [h, sameNameCnt_slash] at hcnt
      exact absurd hcnt (Nat.lt_irrefl 0)
    rw [if_pos hcnt, or_iff_right (by omega)]
    exact forall₂_congr fun entry _ => not_congr (numbered_path_iff hdest entry.proper hslash)
  · rw [if_neg hcnt]
    refine iff_of_true (fun entry hmem hsame => hcnt ?_) (.inl (by omega))
    exact sameNameCnt_pos ⟨entry, hmem, (name_of_join_eq hdest entry.proper hsame).symm⟩

def entryA : DirEntry := ⟨ascii "a", by decide⟩

def entryA1 : DirEntry := ⟨ascii "a_1", by decide⟩

/-- The second download of a file. -/
theorem dest_path_fresh_second :
    makeDestFilePath (ascii "src/a") (ascii "d") (some [entryA]) = some (ascii "d/a_1") ∧
      ∀ entry ∈ [entryA], ascii "d/a_1" ≠ join (ascii "d") entry.name := by
  have hsecond : makeDestFilePath (ascii "src/a") (ascii "d") (some [entryA]) =
      some (ascii "d/a_1") := by decide
  obtain ⟨path, hpath, hfresh⟩ :=
    dest_path_fresh_iff (ascii "src/a") (ascii "d") [entryA] (by decide)
  cases hsecond.symm.trans hpath
  exact ⟨hsecond, hfresh.mpr (.inr (by decide))⟩

/-- The first of two downloads has been deleted; the next one goes into the file of the second. -/
theorem dest_path_taken :
    makeDestFilePath (ascii "src/a") (ascii "d") (some [entryA1]) = some (ascii "d/a_1") ∧
      join (ascii "d") entryA1.name = ascii "d/a_1" := by
  decide

end LinuxWorkouts.Tcp.DestPath
