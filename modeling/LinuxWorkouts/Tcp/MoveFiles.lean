import LinuxWorkouts.Tcp.FileCopy

/-!
Moving the old log files into the archive (`move_files_to_dir` of `filesystem.c`).

Each file is copied and then removed, and the copy does not report whether it has worked. A path
names a directory and an entry of it; two paths may name one directory, and one file may have
several entries (hard links). Symbolic links to files and directories among the entries are left
out. What the system calls return is an `Outcome` for every entry of the directory.

`move_keeps_files_iff` says for which outcomes nothing is lost: one harmless move loses nothing
(`Harmless.step`), it leaves the others harmless, and of files that are not linked to each other
every move has to be harmless (`harmless_of_keptAt`).
-/

namespace LinuxWorkouts.Tcp

open Ascii Function List

def PATH_SIZE : Nat := 4096

/-- A name that `readdir` can return. -/
@[ext]
structure EntryName where
  name : Bytes
  noSlash : slash ∉ name
  noNul : 0 ∉ name
deriving DecidableEq

/-- Whether the two calls of `fopen` and that of `remove` succeed for an entry whose file exists. -/
structure Outcome where
  srcOpens : Bool
  destOpens : Bool
  removes : Bool
deriving DecidableEq, Repr

structure Entry where
  file : EntryName
  outcome : Outcome
deriving DecidableEq

def Outcome.copies (o : Outcome) : Prop := o.srcOpens = true ∧ o.destOpens = true

instance (o : Outcome) : Decidable o.copies := inferInstanceAs (Decidable (_ ∧ _))

/-! ### Files -/

abbrev Place (δ : Type) := δ × Bytes

/-- A file that was there before, or the one that is created at a place. -/
inductive FileId (α δ : Type) where
  | kept (file : α)
  | created (place : Place δ)
deriving DecidableEq

/-- The entries of the directories and the contents of the files. -/
structure Volume (α δ : Type) where
  entry : Place δ → Option (FileId α δ)
  data : FileId α δ → Bytes

variable {α δ : Type} [DecidableEq α] [DecidableEq δ]

def Volume.content (fs : Volume α δ) (p : Place δ) : Option Bytes := (fs.entry p).map fs.data

def Volume.start (entry : Place δ → Option α) (data : α → Bytes) : Volume α δ where
  entry p := (entry p).map .kept
  data
    | .kept file => data file
    | .created _ => []

/-! ### The code -/

def pathIn (dir name : Bytes) : Bytes := (dir ++ slash :: name).take (PATH_SIZE - 1)

/-- The place that a path names: `dirAt` is the directory that the part before the last slash leads
to. -/
def placeOf (dirAt : Bytes → δ) (path : Bytes) : Place δ :=
  let name := (path.reverse.takeWhile (· ≠ slash)).reverse
  (dirAt (path.take (path.length - (name.length + 1))), name)

/-- The file that `fopen` opens for writing. -/
def Volume.dest (fs : Volume α δ) (place : Place δ) : FileId α δ :=
  (fs.entry place).getD (.created place)

/-- `copy_file` on the files. Opening the destination creates or empties it before anything is
read. -/
def copyFileTo (fs : Volume α δ) (destFile srcFile : Place δ) (o : Outcome) : Volume α δ :=
  match fs.entry srcFile with
  | none => fs
  | some src =>
    if o.srcOpens = false then fs
    else if o.destOpens = false then fs
    else
      let dest := fs.dest destFile
      let opened := update fs.data dest []
      { entry := update fs.entry destFile (some dest)
        data := update opened dest (copyFile (opened src)) }

def deleteFile (fs : Volume α δ) (fileName : Place δ) (o : Outcome) : Volume α δ :=
  if o.removes then { fs with entry := update fs.entry fileName none } else fs

def moveFile (dirAt : Bytes → δ) (fs : Volume α δ) (destDirPath srcDirPath fileName : Bytes)
    (o : Outcome) : Volume α δ :=
  let newFile := placeOf dirAt (pathIn destDirPath fileName)
  let oldFile := placeOf dirAt (pathIn srcDirPath fileName)
  deleteFile (copyFileTo fs newFile oldFile o) oldFile o

/-- The entries are what `readdir` returns; there are none (`none`) if `opendir` fails. -/
def moveFilesToDir (dirAt : Bytes → δ) (fs : Volume α δ) (srcDirPath destDirPath pattern : Bytes)
    (charCnt : Nat) (entries : Option (List Entry)) : Volume α δ :=
  (entries.getD []).foldl
    (fun fs e =>
      if strncmpEq e.file.name pattern charCnt then
        moveFile dirAt fs destDirPath srcDirPath e.file.name e.outcome
      else fs) fs

/-! ### One file -/

def Volume.Fresh (fs : Volume α δ) : Prop := ∀ p q, fs.entry p = some (.created q) → p = q

omit [DecidableEq α] [DecidableEq δ] in
theorem Volume.start_fresh (entry : Place δ → Option α) (data : α → Bytes) :
    (Volume.start entry data).Fresh := by
  intro p q h
  obtain ⟨file, -, hfile⟩ := Option.map_eq_some_iff.mp h
  cases hfile

section OneFile

variable {fs : Volume α δ} {old new p : Place δ} {o : Outcome} {content : Bytes}

def moveStep (fs : Volume α δ) (new old : Place δ) (o : Outcome) : Volume α δ :=
  deleteFile (copyFileTo fs new old o) old o

/-- What a copy writes: nothing is left to read in a file that is its own destination. -/
def Volume.copied (fs : Volume α δ) (new : Place δ) (src : FileId α δ) : Bytes :=
  copyFile (if src = fs.dest new then [] else fs.data src)

theorem copyFileTo_of_none (h : fs.entry old = none) : copyFileTo fs new old o = fs := by
  simp only [copyFileTo, h]

variable {src : FileId α δ}

theorem copyFileTo_eq (h : fs.entry old = some src) :
    copyFileTo fs new old o =
      if o.copies then
        { entry := update fs.entry new (some (fs.dest new))
          data := update fs.data (fs.dest new) (fs.copied new src) }
      else fs := by
  obtain ⟨srcOpens, destOpens, removes⟩ := o
  have hread : update fs.data (fs.dest new) [] src =
      if src = fs.dest new then [] else fs.data src := update_apply ..
  simp only [copyFileTo, h, hread, update_idem, Volume.copied, Outcome.copies]
  cases srcOpens <;> cases destOpens <;> simp

theorem moveStep_entry_eq (fs : Volume α δ) (new old p : Place δ) (o : Outcome) :
    (moveStep fs new old o).entry p =
      if p = old ∧ o.removes = true then none
      else if p = new ∧ fs.entry old ≠ none ∧ o.copies then some (fs.dest new)
      else fs.entry p := by
  have hcopy : (copyFileTo fs new old o).entry p =
      if p = new ∧ fs.entry old ≠ none ∧ o.copies then some (fs.dest new) else fs.entry p := by
    cases h : fs.entry old with
    | none => simp [copyFileTo_of_none h]
    | some src =>
      rw [copyFileTo_eq h]
      by_cases hcopies : o.copies <;> simp [hcopies, update_apply]
  rw [moveStep, deleteFile, ← hcopy]
  cases o.removes <;> simp [update_apply]

theorem moveStep_data_eq (fs : Volume α δ) (new old : Place δ) (o : Outcome) :
    (moveStep fs new old o).data = (copyFileTo fs new old o).data := by
  rw [moveStep, deleteFile]
  split <;> rfl

omit [DecidableEq α] [DecidableEq δ] in
theorem Volume.Fresh.entry_eq_dest (hfs : fs.Fresh) (hp : p ≠ new)
    (h : fs.entry p = some (fs.dest new)) : fs.entry new = fs.entry p := by
  cases hnew : fs.entry new with
  | none =>
    rw [Volume.dest, hnew] at h
    exact absurd (hfs p new h) hp
  | some file => rw [h, Volume.dest, hnew, Option.getD_some]

theorem copyFile_eq_self_iff (content : Bytes) :
    copyFile content = content ↔ (content.length + 1) % PAGESIZE ≠ 0 := by
  rw [copyFile_eq]
  split <;> simp [*]

theorem copyFile_nil : copyFile [] = [] := (copyFile_eq_self_iff []).mpr (by decide)

theorem moveStep_entry (hold : p ≠ old) (hnew : p ≠ new) :
    (moveStep fs new old o).entry p = fs.entry p := by
  simp [moveStep_entry_eq, hold, hnew]

theorem moveStep_data {file : FileId α δ} (h : file ≠ fs.dest new) :
    (moveStep fs new old o).data file = fs.data file := by
  rw [moveStep_data_eq]
  cases hentry : fs.entry old with
  | none => rw [copyFileTo_of_none hentry]
  | some src =>
    rw [copyFileTo_eq hentry]
    split
    · exact update_of_ne h _ _
    · rfl

theorem moveStep_content (hfs : fs.Fresh) (hold : p ≠ old) (hnew : p ≠ new)
    (hlink : fs.entry new ≠ none → fs.entry new ≠ fs.entry p) :
    (moveStep fs new old o).content p = fs.content p := by
  rw [Volume.content, Volume.content, moveStep_entry hold hnew]
  cases hentry : fs.entry p with
  | none => rfl
  | some file =>
    rw [Option.map_some, Option.map_some, moveStep_data]
    rintro rfl
    have heq := hfs.entry_eq_dest hnew hentry
    exact hlink (by simp [heq, hentry]) heq

theorem moveStep_entry_cases (fs : Volume α δ) (new old p : Place δ) (o : Outcome) :
    (moveStep fs new old o).entry p = none ∨ (moveStep fs new old o).entry p = fs.entry p ∨
      (moveStep fs new old o).entry p = some (.created p) := by
  rw [moveStep_entry_eq]
  split_ifs with hold hnew
  · exact .inl rfl
  · obtain ⟨rfl, -⟩ := hnew
    rw [Volume.dest]
    cases fs.entry p <;> simp
  · exact .inr (.inl rfl)

theorem Volume.Fresh.moveStep (hfs : fs.Fresh) : (moveStep fs new old o).Fresh := by
  intro p q h
  rcases moveStep_entry_cases fs new old p o with hp | hp | hp
  · rw [hp] at h
    cases h
  · exact hfs p q (hp.symm.trans h)
  · cases hp.symm.trans h
    rfl

theorem moveStep_entry_some {file : FileId α δ} (hp : p ≠ old ∨ o.removes = false)
    (h : fs.entry p = some file) : (moveStep fs new old o).entry p = some file := by
  rw [moveStep_entry_eq, if_neg fun hgone => hp.elim (· hgone.1) (by simp [hgone.2])]
  split_ifs with hnew
  · rw [Volume.dest, ← hnew.1, h, Option.getD_some]
  · exact h

theorem moveStep_old_removed (h : o.removes = true) :
    (moveStep fs new old o).content old = none := by
  simp [Volume.content, moveStep_entry_eq, h]

theorem moveStep_dest (h : fs.entry old = some src) :
    (moveStep fs new old o).data (fs.dest new) =
      if o.copies then fs.copied new src else fs.data (fs.dest new) := by
  rw [moveStep_data_eq, copyFileTo_eq h]
  split
  · exact update_self ..
  · rfl

theorem moveStep_new (hne : old ≠ new) (h : fs.entry old = some src) :
    (moveStep fs new old o).content new =
      if o.copies then some (fs.copied new src) else fs.content new := by
  rw [Volume.content, moveStep_entry_eq, if_neg fun hgone => hne hgone.1.symm]
  by_cases hcopies : o.copies
  · simp [hcopies, h, moveStep_dest h]
  · simp [hcopies, moveStep_data_eq, copyFileTo_eq h, Volume.content]

theorem Volume.copied_linked (h : fs.entry old = some src)
    (hlinked : fs.entry new = fs.entry old) : fs.copied new src = [] := by
  rw [Volume.copied, Volume.dest, hlinked, h, Option.getD_some, if_pos rfl, copyFile_nil]

theorem Volume.Fresh.copied_apart (hfs : fs.Fresh) (hne : old ≠ new)
    (h : fs.entry old = some src) (hapart : fs.entry new ≠ fs.entry old) :
    fs.copied new src = copyFile (fs.data src) := by
  have hsrc : src ≠ fs.dest new := fun heq => hapart (hfs.entry_eq_dest hne (heq ▸ h))
  rw [Volume.copied, if_neg hsrc]

/-! ### Harmless moves -/

/-- A file is removed only if it was copied right, or was at the new path before, and nothing else
is overwritten at the new path. A file that is copied onto itself is emptied. -/
def Harmless (fs : Volume α δ) (new old : Place δ) (o : Outcome) (content : Bytes) : Prop :=
  if old = new then o.removes = false ∧ (o.copies → content = [])
  else if fs.entry new = fs.entry old then o.copies → content = []
  else
    (o.removes = true →
      if o.copies then (content.length + 1) % PAGESIZE ≠ 0 else fs.content new = some content) ∧
    (o.copies → ∀ other, fs.content new = some other → other = copyFile content)

theorem Harmless.congr {fs' : Volume α δ} (hnew : fs'.entry new = fs.entry new)
    (hold : fs'.entry old = fs.entry old) (hcontent : fs'.content new = fs.content new) :
    Harmless fs' new old o content ↔ Harmless fs new old o content := by
  rw [Harmless, Harmless, hnew, hold, hcontent]

section Step

variable (hfs : fs.Fresh) (hold : fs.entry old = some src)
include hfs hold

theorem Harmless.copied_eq {file : FileId α δ} (h : Harmless fs new old o (fs.data src))
    (hcopies : o.copies) (hnew : fs.entry new = some file) : fs.copied new src = fs.data file := by
  rw [Harmless] at h
  by_cases hlinked : fs.entry new = fs.entry old
  · have hempty : fs.data src = [] := by
      split_ifs at h
      · exact h.2 hcopies
      · exact h hcopies
    have hfile : file = src := Option.some.inj (hnew.symm.trans (hlinked.trans hold))
    rw [Volume.copied_linked hold hlinked, hfile, hempty]
  · have hne : old ≠ new := fun heq => hlinked (heq ▸ rfl)
    rw [if_neg hne, if_neg hlinked] at h
    rw [hfs.copied_apart hne hold hlinked]
    exact (h.2 hcopies _ (by rw [Volume.content, hnew, Option.map_some])).symm

theorem Harmless.data_eq {file : FileId α δ} (h : Harmless fs new old o (fs.data src))
    (hp : fs.entry p = some file) : (moveStep fs new old o).data file = fs.data file := by
  by_cases hdest : file = fs.dest new
  · have hnew : fs.entry new = some file := by
      by_cases hpnew : p = new
      · exact hpnew ▸ hp
      · exact (hfs.entry_eq_dest hpnew (hp.trans (congrArg some hdest))).trans hp
    rw [hdest, moveStep_dest hold]
    split
    · next hcopies => rw [h.copied_eq hfs hold hcopies hnew, hdest]
    · rfl
  · exact moveStep_data hdest

theorem Harmless.content_eq (h : Harmless fs new old o (fs.data src))
    (hp : p ≠ old ∨ o.removes = false) (hcontent : fs.content p = some content) :
    (moveStep fs new old o).content p = some content := by
  obtain ⟨file, hfile, rfl⟩ := Option.map_eq_some_iff.mp hcontent
  rw [Volume.content, moveStep_entry_some hp hfile, Option.map_some, h.data_eq hfs hold hfile]

theorem Harmless.step (h : Harmless fs new old o (fs.data src)) :
    (moveStep fs new old o).content old = some (fs.data src) ∨
      (moveStep fs new old o).content new = some (fs.data src) := by
  have hcontent : fs.content old = some (fs.data src) := by
    rw [Volume.content, hold, Option.map_some]
  cases hremoves : o.removes with
  | false => exact .inl (h.content_eq hfs hold (.inr hremoves) hcontent)
  | true =>
    have hne : old ≠ new := by
      intro heq
      rw [Harmless, if_pos heq, hremoves] at h
      exact Bool.noConfusion h.1
    refine .inr ?_
    by_cases hlinked : fs.entry new = fs.entry old
    · exact h.content_eq hfs hold (.inl hne.symm) (by rw [Volume.content, hlinked, hold]; rfl)
    · rw [moveStep_new hne hold, hfs.copied_apart hne hold hlinked]
      rw [Harmless, if_neg hne, if_neg hlinked] at h
      have hkept := h.1 hremoves
      split_ifs at hkept ⊢
      · rw [(copyFile_eq_self_iff _).mpr hkept]
      · exact hkept

end Step

/-- Behind the run, the file is at its old or its new path, and what was at the new path is still
there. -/
def KeptAt (fs fs' : Volume α δ) (new old : Place δ) : Prop :=
  (∀ content, fs.content old = some content →
    fs'.content old = some content ∨ fs'.content new = some content) ∧
  (old ≠ new → ∀ other, fs.content new = some other → fs'.content new = some other)

theorem harmless_of_step (hfs : fs.Fresh) (h : KeptAt fs (moveStep fs new old o) new old)
    (hcontent : fs.content old = some content) : Harmless fs new old o content := by
  obtain ⟨hkept, hother⟩ := h
  obtain ⟨src, hold, rfl⟩ := Option.map_eq_some_iff.mp hcontent
  have hstay := hkept _ hcontent
  rw [Harmless]
  by_cases hsame : old = new
  · subst hsame
    rw [or_self] at hstay
    have hremoves : o.removes = false := by
      by_contra hremoves
      rw [moveStep_old_removed (Bool.eq_true_of_not_eq_false hremoves)] at hstay
      cases hstay
    rw [if_pos rfl]
    refine ⟨hremoves, fun hcopies => ?_⟩
    have hdest : fs.dest old = src := by rw [Volume.dest, hold, Option.getD_some]
    have hdata : (moveStep fs old old o).data (fs.dest old) = _ := moveStep_dest hold
    rw [Volume.content, moveStep_entry_some (.inr hremoves) hold, Option.map_some] at hstay
    rw [hdest, if_pos hcopies, Volume.copied_linked hold rfl] at hdata
    exact (Option.some.inj hstay).symm.trans hdata
  rw [if_neg hsame]
  by_cases hlinked : fs.entry new = fs.entry old
  · rw [if_pos hlinked]
    intro hcopies
    have hsome : fs.content new = some (fs.data src) := by
      rw [Volume.content, hlinked, hold, Option.map_some]
    have hnew := hother hsame _ hsome
    rw [moveStep_new hsame hold, if_pos hcopies, Volume.copied_linked hold hlinked] at hnew
    exact (Option.some.inj hnew).symm
  · rw [moveStep_new hsame hold, hfs.copied_apart hsame hold hlinked] at hstay
    rw [if_neg hlinked]
    refine ⟨fun hremoves => ?_, fun hcopies other hsome => ?_⟩
    · rw [moveStep_old_removed hremoves] at hstay
      have hnew := hstay.resolve_left (Option.some_ne_none _).symm
      split_ifs at hnew ⊢
      · exact (copyFile_eq_self_iff _).mp (Option.some.inj hnew)
      · exact hnew
    · have hnew := hother hsame _ hsome
      rw [moveStep_new hsame hold, if_pos hcopies, hfs.copied_apart hsame hold hlinked] at hnew
      exact (Option.some.inj hnew).symm

end OneFile

/-! ### A directory -/

section Directory

variable {fs : Volume α δ} {new old : Entry → Place δ} {entries : List Entry} {e : Entry}

def moveEntry (new old : Entry → Place δ) (fs : Volume α δ) (e : Entry) : Volume α δ :=
  moveStep fs (new e) (old e) e.outcome

def moveAll (new old : Entry → Place δ) (fs : Volume α δ) (entries : List Entry) : Volume α δ :=
  entries.foldl (moveEntry new old) fs

/-- No path of one entry is a path of the other. -/
structure Apart (new old : Entry → Place δ) (e e' : Entry) : Prop where
  old_ne_old : old e ≠ old e'
  new_ne_new : new e ≠ new e'
  old_ne_new : old e ≠ new e'
  new_ne_old : new e ≠ old e'

omit [DecidableEq δ] in
instance : Std.Symm (Apart new old) where
  symm _ _ h := ⟨h.old_ne_old.symm, h.new_ne_new.symm, h.new_ne_old.symm, h.old_ne_new.symm⟩

/-- What is at the new path of one entry is not linked to what is at a path of the other. -/
def NotLinked (new old : Entry → Place δ) (fs : Volume α δ) (e e' : Entry) : Prop :=
  fs.entry (new e) ≠ none →
    fs.entry (new e) ≠ fs.entry (old e') ∧ fs.entry (new e) ≠ fs.entry (new e')

def Unlinked (new old : Entry → Place δ) (fs : Volume α δ) (entries : List Entry) : Prop :=
  entries.Pairwise fun e e' => NotLinked new old fs e e' ∧ NotLinked new old fs e' e

/-- Every file that is moved is at its old or its new path with its content, and every other file is
as it was. -/
def Kept (new old : Entry → Place δ) (fs fs' : Volume α δ) (moved : List Entry) : Prop :=
  (∀ e ∈ moved, ∀ content, fs.content (old e) = some content →
    fs'.content (old e) = some content ∨ fs'.content (new e) = some content) ∧
  ∀ p content, (∀ e ∈ moved, p ≠ old e) → fs.content p = some content → fs'.content p = some content

def HarmlessEntry (new old : Entry → Place δ) (fs : Volume α δ) (e : Entry) : Prop :=
  ∀ content, fs.content (old e) = some content → Harmless fs (new e) (old e) e.outcome content

theorem moveAll_cons (e : Entry) (entries : List Entry) :
    moveAll new old fs (e :: entries) = moveAll new old (moveEntry new old fs e) entries := rfl

theorem Volume.Fresh.moveEntry (hfs : fs.Fresh) (e : Entry) : (moveEntry new old fs e).Fresh :=
  hfs.moveStep

theorem Apart.entry_eq {e' : Entry} (h : Apart new old e e') (fs : Volume α δ) :
    (moveEntry new old fs e).entry (old e') = fs.entry (old e') ∧
      (moveEntry new old fs e).entry (new e') = fs.entry (new e') :=
  ⟨moveStep_entry h.old_ne_old.symm h.new_ne_old.symm,
    moveStep_entry h.old_ne_new.symm h.new_ne_new.symm⟩

theorem HarmlessEntry.content_eq (hfs : fs.Fresh) (h : HarmlessEntry new old fs e) {p : Place δ}
    (hp : p ≠ old e) {content : Bytes} (hcontent : fs.content p = some content) :
    (moveEntry new old fs e).content p = some content := by
  cases hold : fs.entry (old e) with
  | some src =>
    exact (h _ (by rw [Volume.content, hold]; rfl)).content_eq hfs hold (.inl hp) hcontent
  | none =>
    rw [moveEntry, moveStep, copyFileTo_of_none hold, deleteFile]
    split
    · refine Eq.trans ?_ hcontent
      exact congrArg (Option.map fs.data) (update_of_ne hp _ _)
    · exact hcontent

theorem HarmlessEntry.congr {fs' : Volume α δ} (hnew : fs'.entry (new e) = fs.entry (new e))
    (hold : fs'.entry (old e) = fs.entry (old e))
    (hnewContent : fs'.content (new e) = fs.content (new e))
    (holdContent : fs'.content (old e) = fs.content (old e)) :
    HarmlessEntry new old fs' e ↔ HarmlessEntry new old fs e := by
  simp only [HarmlessEntry, holdContent, Harmless.congr hnew hold hnewContent]

omit [DecidableEq α] [DecidableEq δ] in
theorem content_of_entry {fs' : Volume α δ} {p : Place δ} (hentry : fs'.entry p = fs.entry p)
    (h : ∀ content, fs.content p = some content → fs'.content p = some content) :
    fs'.content p = fs.content p := by
  cases hcontent : fs.content p with
  | some content => exact h content hcontent
  | none =>
    rw [Volume.content, Option.map_eq_none_iff] at hcontent ⊢
    exact hentry.trans hcontent

theorem kept_of_harmless (hfs : fs.Fresh) (hapart : entries.Pairwise (Apart new old))
    (h : ∀ e ∈ entries, HarmlessEntry new old fs e) :
    Kept new old fs (moveAll new old fs entries) entries := by
  induction entries generalizing fs with
  | nil => exact ⟨fun e he => absurd he not_mem_nil, fun p content _ hp => hp⟩
  | cons head entries ih =>
    obtain ⟨hhead, htail⟩ := forall_mem_cons.mp h
    obtain ⟨hapart, hrest⟩ := pairwise_cons.mp hapart
    have hkeep : ∀ p, p ≠ old head → ∀ content, fs.content p = some content →
        (moveEntry new old fs head).content p = some content :=
      fun p hp content => hhead.content_eq hfs hp
    have hsame : ∀ e ∈ entries,
        (moveEntry new old fs head).content (old e) = fs.content (old e) :=
      fun e he => content_of_entry ((hapart e he).entry_eq fs).1
        (hkeep _ (hapart e he).old_ne_old.symm)
    have hleft : ∀ e ∈ entries, HarmlessEntry new old (moveEntry new old fs head) e := by
      intro e he
      obtain ⟨hold, hnew⟩ := (hapart e he).entry_eq fs
      have hcontent := content_of_entry hnew (hkeep _ (hapart e he).old_ne_new.symm)
      exact (HarmlessEntry.congr hnew hold hcontent (hsame e he)).mpr (htail e he)
    obtain ⟨hmoved, hother⟩ := ih hfs.moveStep hrest hleft
    rw [moveAll_cons]
    constructor
    · intro e he content hcontent
      rcases mem_cons.mp he with rfl | he
      · obtain ⟨src, hold, rfl⟩ := Option.map_eq_some_iff.mp hcontent
        refine ((hhead _ hcontent).step hfs hold).imp (hother _ _ fun e' he' => ?_)
          (hother _ _ fun e' he' => ?_)
        · exact (hapart e' he').old_ne_old
        · exact (hapart e' he').new_ne_old
      · exact hmoved e he content ((hsame e he).trans hcontent)
    · intro p content hp hcontent
      obtain ⟨hphead, hptail⟩ := forall_mem_cons.mp hp
      exact hother p content hptail (hkeep p hphead content hcontent)

section Necessary

theorem moveAll_untouched (hfs : fs.Fresh) (hapart : entries.Pairwise (Apart new old)) {p : Place δ}
    (hp : ∀ e ∈ entries, p ≠ old e ∧ p ≠ new e ∧
      (fs.entry (new e) ≠ none → fs.entry (new e) ≠ fs.entry p)) :
    (moveAll new old fs entries).content p = fs.content p := by
  induction entries generalizing fs with
  | nil => rfl
  | cons head entries ih =>
    obtain ⟨⟨hold, hnew, hlink⟩, htail⟩ := forall_mem_cons.mp hp
    obtain ⟨hapart, hrest⟩ := pairwise_cons.mp hapart
    rw [moveAll_cons, ih (hfs.moveEntry head) hrest]
    · exact moveStep_content hfs hold hnew hlink
    intro e he
    obtain ⟨hpold, hpnew, hplink⟩ := htail e he
    rw [((hapart e he).entry_eq fs).2, Tcp.moveEntry, moveStep_entry hold hnew]
    exact ⟨hpold, hpnew, hplink⟩

theorem harmless_of_keptAt (hfs : fs.Fresh) (hapart : entries.Pairwise (Apart new old))
    (hlink : Unlinked new old fs entries) (he : e ∈ entries)
    (h : KeptAt fs (moveAll new old fs entries) (new e) (old e)) : HarmlessEntry new old fs e := by
  induction entries generalizing fs with
  | nil => cases he
  | cons head entries ih =>
    obtain ⟨hapart, hrest⟩ := pairwise_cons.mp hapart
    obtain ⟨hlinks, hlinkRest⟩ := pairwise_cons.mp hlink
    rw [moveAll_cons] at h
    have hentry := fun e' he' => (hapart e' he').entry_eq fs
    rcases mem_cons.mp he with rfl | he
    · -- its own round; the others do not touch its paths
      have hstay : ∀ p, (∀ e' ∈ entries, p ≠ old e' ∧ p ≠ new e' ∧
          (fs.entry (new e') ≠ none → fs.entry (new e') ≠ fs.entry p)) →
          (moveAll new old (moveEntry new old fs e) entries).content p =
            (moveEntry new old fs e).content p := by
        intro p hp
        refine moveAll_untouched (hfs.moveEntry e) hrest fun e' he' => ?_
        obtain ⟨hold, hnew, hne⟩ := hp e' he'
        refine ⟨hold, hnew, fun hsome => ?_⟩
        rw [(hentry e' he').2] at hsome ⊢
        rw [moveEntry]
        rcases moveStep_entry_cases fs (new e) (old e) p e.outcome with hcase | hcase | hcase
        · exact hcase ▸ hsome
        · exact hcase ▸ hne hsome
        · rw [hcase]
          exact fun heq => hnew (hfs _ _ heq).symm
      rw [KeptAt, hstay (old e) fun e' he' =>
          ⟨(hapart e' he').old_ne_old, (hapart e' he').old_ne_new,
          fun hsome => ((hlinks e' he').2 hsome).1⟩,
        hstay (new e) fun e' he' => ⟨(hapart e' he').new_ne_old, (hapart e' he').new_ne_new,
          fun hsome => ((hlinks e' he').2 hsome).2⟩] at h
      exact fun content hcontent => harmless_of_step hfs h hcontent
    · -- the round of another entry, which leaves its paths as they are
      have hne := hapart e he
      have hold : (moveEntry new old fs head).content (old e) = fs.content (old e) :=
        moveStep_content hfs hne.old_ne_old.symm hne.new_ne_old.symm
          fun hsome => ((hlinks e he).1 hsome).1
      have hnew : (moveEntry new old fs head).content (new e) = fs.content (new e) :=
        moveStep_content hfs hne.old_ne_new.symm hne.new_ne_new.symm
          fun hsome => ((hlinks e he).1 hsome).2
      have hunlinked : Unlinked new old (moveEntry new old fs head) entries := by
        refine hlinkRest.imp_of_mem fun {a b} ha hb hab => ?_
        simp only [NotLinked, hentry a ha, hentry b hb]
        exact hab
      rw [← HarmlessEntry.congr (hentry e he).2 (hentry e he).1 hnew hold]
      refine ih hfs.moveStep hrest hunlinked he ?_
      rw [KeptAt, hnew, hold]
      exact h

end Necessary

end Directory

/-! ### Paths -/

section Paths

variable {dirAt : Bytes → δ} {fs : Volume α δ} {srcDir destDir pattern : Bytes} {charCnt : Nat}

omit [DecidableEq δ] in
theorem placeOf_pathIn {dir name : Bytes} (hname : slash ∉ name)
    (hfits : (dir ++ slash :: name).length < PATH_SIZE) :
    placeOf dirAt (pathIn dir name) = (dirAt dir, name) := by
  have hpath : pathIn dir name = dir ++ slash :: name := take_of_length_le (by omega)
  have hlast : ((dir ++ slash :: name).reverse.takeWhile (· ≠ slash)).reverse = name := by
    have hrev : (dir ++ slash :: name).reverse = name.reverse ++ slash :: dir.reverse := by simp
    rw [hrev, takeWhile_append_of_pos, takeWhile_cons_of_neg (by simp), append_nil, reverse_reverse]
    intro b hb
    exact decide_eq_true fun heq => hname (heq ▸ mem_reverse.mp hb)
  have hlength : (dir ++ slash :: name).length - (name.length + 1) = dir.length := by
    rw [length_append, length_cons, Nat.add_sub_cancel]
  rw [hpath, placeOf]
  simp only [hlast, hlength, take_left]

def Entry.oldPlace (dirAt : Bytes → δ) (srcDir : Bytes) (e : Entry) : Place δ :=
  placeOf dirAt (pathIn srcDir e.file.name)

def Entry.newPlace (dirAt : Bytes → δ) (destDir : Bytes) (e : Entry) : Place δ :=
  placeOf dirAt (pathIn destDir e.file.name)

def matching (pattern : Bytes) (charCnt : Nat) (entries : List Entry) : List Entry :=
  entries.filter fun e => strncmpEq e.file.name pattern charCnt

theorem moveFilesToDir_eq (entries : Option (List Entry)) :
    moveFilesToDir dirAt fs srcDir destDir pattern charCnt entries =
      moveAll (Entry.newPlace dirAt destDir) (Entry.oldPlace dirAt srcDir) fs
        (matching pattern charCnt (entries.getD [])) := by
  rw [moveFilesToDir, moveAll, matching, foldl_filter]
  rfl

omit [DecidableEq δ] in
theorem apart_of_names {entries : List Entry} (hnames : (entries.map Entry.file).Nodup)
    (hpaths : ∀ e ∈ entries, (srcDir ++ slash :: e.file.name).length < PATH_SIZE ∧
      (destDir ++ slash :: e.file.name).length < PATH_SIZE) :
    entries.Pairwise (Apart (Entry.newPlace dirAt destDir) (Entry.oldPlace dirAt srcDir)) := by
  refine (pairwise_map.mp hnames).imp_of_mem fun {e e'} he he' hne => ?_
  have hname : e.file.name ≠ e'.file.name := fun h => hne (EntryName.ext h)
  obtain ⟨hold, hnew⟩ := hpaths e he
  obtain ⟨hold', hnew'⟩ := hpaths e' he'
  constructor <;>
    simp only [Entry.oldPlace, Entry.newPlace, placeOf_pathIn e.file.noSlash hold,
      placeOf_pathIn e.file.noSlash hnew, placeOf_pathIn e'.file.noSlash hold',
      placeOf_pathIn e'.file.noSlash hnew', ne_eq, Prod.mk.injEq, hname, and_false, not_false_iff]

end Paths

/-! ### Losing nothing -/

/-- **Moving the log files** loses nothing if each move is harmless: what happens depends on which
calls succeed, on the lengths of the files and on what is in the archive already. Of files that are
not linked to each other, every move has to be. -/
theorem move_keeps_files_iff (dirAt : Bytes → δ) (names : Place δ → Option α) (data : α → Bytes)
    (srcDir destDir pattern : Bytes) (charCnt : Nat) (entries : Option (List Entry))
    (hnames : ((entries.getD []).map Entry.file).Nodup)
    (hpaths : ∀ e ∈ entries.getD [], (srcDir ++ slash :: e.file.name).length < PATH_SIZE ∧
      (destDir ++ slash :: e.file.name).length < PATH_SIZE) :
    let fs := Volume.start names data
    let new := Entry.newPlace dirAt destDir
    let old := Entry.oldPlace dirAt srcDir
    let moved := matching pattern charCnt (entries.getD [])
    let fs' := moveFilesToDir dirAt fs srcDir destDir pattern charCnt entries
    ((∀ e ∈ moved, HarmlessEntry new old fs e) → Kept new old fs fs' moved) ∧
      (Unlinked new old fs moved →
        (Kept new old fs fs' moved ↔ ∀ e ∈ moved, HarmlessEntry new old fs e)) := by
  intro fs new old moved fs'
  have hsub : moved.Sublist (entries.getD []) := filter_sublist
  have hfs : fs.Fresh := Volume.start_fresh names data
  have hapart : moved.Pairwise (Apart new old) :=
    apart_of_names (hnames.sublist (hsub.map _)) fun e he => hpaths e (hsub.subset he)
  have hrun : fs' = moveAll new old fs moved := moveFilesToDir_eq entries
  rw [hrun]
  refine ⟨kept_of_harmless hfs hapart,
    fun hlink => ⟨fun hkept e he => ?_, kept_of_harmless hfs hapart⟩⟩
  refine harmless_of_keptAt hfs hapart hlink he ⟨hkept.1 e he, fun hne other => hkept.2 _ other ?_⟩
  intro e' he'
  by_cases heq : e = e'
  · exact heq ▸ hne.symm
  · exact (hapart.forall he he' heq).new_ne_old

/-- One log file of one byte; `log` and `log/arch` are two directories, or two names of one. -/
def oneLog (dirAt : Bytes → δ) : Volume Unit δ :=
  .start (fun p => if p = (dirAt (ascii "log"), ascii "fileserver.log") then some () else none)
    fun _ => [65]

/-- Its entry, when all calls succeed except perhaps the opening of the destination. -/
def logEntry (destOpens : Bool) : Entry :=
  ⟨⟨ascii "fileserver.log", by decide, by decide⟩, ⟨true, destOpens, true⟩⟩

def archived (dirAt : Bytes → δ) (destOpens : Bool) : Volume Unit δ :=
  moveFilesToDir dirAt (oneLog dirAt) (ascii "log") (ascii "log/arch") (ascii "fileserver.log") 14
    (some [logEntry destOpens])

theorem matching_logEntry (destOpens : Bool) :
    matching (ascii "fileserver.log") 14 [logEntry destOpens] = [logEntry destOpens] := by
  cases destOpens <;> decide

omit [DecidableEq δ] in
theorem logEntry_places (dirAt : Bytes → δ) (destOpens : Bool) :
    (logEntry destOpens).newPlace dirAt (ascii "log/arch") =
        (dirAt (ascii "log/arch"), ascii "fileserver.log") ∧
      (logEntry destOpens).oldPlace dirAt (ascii "log") =
        (dirAt (ascii "log"), ascii "fileserver.log") :=
  ⟨placeOf_pathIn (logEntry destOpens).file.noSlash (by decide +revert),
    placeOf_pathIn (logEntry destOpens).file.noSlash (by decide +revert)⟩

theorem move_keeps_one_log :
    Kept (Entry.newPlace id (ascii "log/arch")) (Entry.oldPlace id (ascii "log")) (oneLog id)
      (archived id true) [logEntry true] := by
  have hplaces := logEntry_places id true
  have h := (move_keeps_files_iff id
    (fun p => if p = (ascii "log", ascii "fileserver.log") then some () else none) (fun _ => [65])
    (ascii "log") (ascii "log/arch") (ascii "fileserver.log") 14 (some [logEntry true]) (by decide)
    (by decide)).1
  rw [Option.getD_some, matching_logEntry] at h
  refine h (forall_mem_singleton.mpr fun content hcontent => ?_)
  have hone : content = [65] := by
    rw [hplaces.2] at hcontent
    exact (Option.some.inj hcontent).symm
  have hnone : (oneLog id).content (ascii "log/arch", ascii "fileserver.log") = none := by decide
  rw [Harmless, hplaces.1, hplaces.2, if_neg (by decide), if_neg (by decide), hone]
  refine ⟨fun _ => by decide, fun _ other hother => ?_⟩
  cases hnone.symm.trans hother

theorem archived_lost (dirAt : Bytes → δ) (destOpens : Bool)
    (h : destOpens = false ∨ dirAt (ascii "log/arch") = dirAt (ascii "log")) (p : Place δ) :
    (archived dirAt destOpens).content p = none := by
  have hother : p ≠ (dirAt (ascii "log"), ascii "fileserver.log") →
      (oneLog dirAt).entry p = none := by
    intro hp
    simp [oneLog, Volume.start, hp]
  rw [archived, moveFilesToDir_eq, Option.getD_some, matching_logEntry, moveAll_cons, moveEntry,
    (logEntry_places dirAt destOpens).1, (logEntry_places dirAt destOpens).2, moveAll, foldl_nil]
  by_cases hold : p = (dirAt (ascii "log"), ascii "fileserver.log")
  · rw [hold]
    exact moveStep_old_removed rfl
  by_cases hnew : p = (dirAt (ascii "log/arch"), ascii "fileserver.log")
  · have hclosed : destOpens = false := h.resolve_right fun heq => hold (hnew.trans (by rw [heq]))
    have hentry : (oneLog dirAt).entry (dirAt (ascii "log"), ascii "fileserver.log") =
        some (.kept ()) := by
      simp [oneLog, Volume.start]
    subst hclosed
    rw [hnew] at hold hother ⊢
    rw [moveStep_new (Ne.symm hold) hentry, if_neg (by decide), Volume.content, hother hold]
    rfl
  · rw [Volume.content, moveStep_entry hold hnew, hother hold]
    rfl

/-- The archive cannot be written, or is the directory of the log itself; the log file is removed
all the same. -/
theorem move_loses_log :
    (oneLog id).content (ascii "log", ascii "fileserver.log") = some [65] ∧
      (∀ p, (archived id false).content p = none) ∧
      ∀ p, (archived (fun _ => ()) true).content p = none :=
  ⟨by decide, archived_lost id false (.inl rfl), archived_lost (fun _ => ()) true (.inr rfl)⟩

end LinuxWorkouts.Tcp
