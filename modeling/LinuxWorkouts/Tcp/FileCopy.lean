import LinuxWorkouts.Tcp.Server

/-!
The two file copiers of the file server (`copy_file` and `copy_file_new` of `filesystem.c`).

Both read until `feof`, which becomes true only when a read has come up short. The block-wise copier
writes what each read returned. The byte-wise one stores the result of every `fgetc` in a page, the
last one, which is `EOF`, included, and leaves out the last byte of the page that is not full at the
end. The loop of `send_file_old` is the same with `send` for `fwrite`.
-/

namespace LinuxWorkouts.Tcp

open List

/-- `(char)fgetc(f)`. At the end of the file it is `(char)EOF`, and the end is noticed. -/
def fgetc (f : Stream) : UInt8 × Stream :=
  match f.rest with
  | b :: rest => (b, { f with rest := rest })
  | [] => (0xff, { f with eof := true })

/-- How often a loop that stops at the end of the file can still read. -/
def Stream.left (f : Stream) : Nat := if f.eof then 0 else f.rest.length + 1

theorem fgetc_left_lt {f : Stream} (h : f.eof = false) : (fgetc f).2.left < f.left := by
  obtain ⟨rest, eof, error⟩ := f
  cases h
  cases rest with
  | nil => simp [fgetc, Stream.left]
  | cons b rest => simp [fgetc, Stream.left]

theorem fread_left_lt {f : Stream} {n : Nat} (hn : 0 < n) (h : f.eof = false) :
    (fread n f).2.left < f.left := by
  obtain ⟨rest, eof, error⟩ := f
  cases h
  simp only [fread, Stream.left, Bool.false_or, decide_eq_true_eq, length_drop,
    Bool.false_eq_true, if_false]
  split <;> omega

/-- The loop of `copy_file`: what has been written to the destination, and the part of `file_buf`
in front of `index`. -/
def copyBytes (f : Stream) (dest fileBuf : Bytes) : Bytes × Bytes :=
  if f.eof then (dest, fileBuf)
  else if f.error then (dest, fileBuf)
  else if (fileBuf ++ [(fgetc f).1]).length = PAGESIZE then
    copyBytes (fgetc f).2 (dest ++ (fileBuf ++ [(fgetc f).1])) []
  else copyBytes (fgetc f).2 dest (fileBuf ++ [(fgetc f).1])
termination_by f.left
decreasing_by
  · exact fgetc_left_lt (Bool.eq_false_iff.mpr ‹_›)
  · exact fgetc_left_lt (Bool.eq_false_iff.mpr ‹_›)

def copyFile (content : Bytes) : Bytes :=
  let (dest, fileBuf) := copyBytes ⟨content, false, false⟩ [] []
  if 1 < fileBuf.length then dest ++ fileBuf.take (fileBuf.length - 1) else dest

/-- The loop of `copy_file_new`. -/
def copyBlocks (f : Stream) (dest : Bytes) : Bytes :=
  if f.eof then dest
  else if f.error then dest
  else copyBlocks (fread PAGESIZE f).2 (dest ++ (fread PAGESIZE f).1)
termination_by f.left
decreasing_by exact fread_left_lt (by decide) (Bool.eq_false_iff.mpr ‹_›)

def copyFileNew (content : Bytes) : Bytes := copyBlocks ⟨content, false, false⟩ []

/-! ### What is written -/

theorem copyBytes_eof (rest dest fileBuf : Bytes) (error : Bool) :
    copyBytes ⟨rest, true, error⟩ dest fileBuf = (dest, fileBuf) := by
  rw [copyBytes, if_pos rfl]

theorem copyBytes_cons (b : UInt8) (rest dest fileBuf : Bytes) :
    copyBytes ⟨b :: rest, false, false⟩ dest fileBuf =
      if (fileBuf ++ [b]).length = PAGESIZE then
        copyBytes ⟨rest, false, false⟩ (dest ++ (fileBuf ++ [b])) []
      else copyBytes ⟨rest, false, false⟩ dest (fileBuf ++ [b]) := by
  rw [copyBytes, if_neg (by simp), if_neg (by simp)]
  rfl

theorem copyBytes_nil (dest fileBuf : Bytes) :
    copyBytes ⟨[], false, false⟩ dest fileBuf =
      if (fileBuf ++ [0xff]).length = PAGESIZE then (dest ++ (fileBuf ++ [0xff]), [])
      else (dest, fileBuf ++ [0xff]) := by
  rw [copyBytes, if_neg (by simp), if_neg (by simp)]
  simp only [fgetc, copyBytes_eof]

def fullPages (bytes : Bytes) : Nat := PAGESIZE * (bytes.length / PAGESIZE)

theorem fullPages_page {page rest : Bytes} (h : page.length = PAGESIZE) :
    fullPages (page ++ rest) = PAGESIZE + fullPages rest := by
  have hdiv : (PAGESIZE + rest.length) / PAGESIZE = rest.length / PAGESIZE + 1 :=
    Nat.add_div_left _ (by decide)
  rw [fullPages, fullPages, length_append, h, hdiv, Nat.mul_add, Nat.mul_one, Nat.add_comm]

theorem fullPages_of_lt {bytes : Bytes} (h : bytes.length < PAGESIZE) : fullPages bytes = 0 := by
  rw [fullPages, Nat.div_eq_of_lt h, Nat.mul_zero]

theorem copyBytes_eq (rest dest fileBuf : Bytes) (hbuf : fileBuf.length < PAGESIZE) :
    copyBytes ⟨rest, false, false⟩ dest fileBuf =
      (dest ++ (fileBuf ++ (rest ++ [0xff])).take (fullPages (fileBuf ++ (rest ++ [0xff]))),
        (fileBuf ++ (rest ++ [0xff])).drop (fullPages (fileBuf ++ (rest ++ [0xff])))) := by
  induction rest generalizing dest fileBuf with
  | nil =>
    rw [copyBytes_nil, nil_append]
    split
    · next hfull =>
        rw [← append_nil (fileBuf ++ [0xff]), fullPages_page hfull,
          fullPages_of_lt (by decide), Nat.add_zero, ← hfull]
        simp
    · next hfull =>
        have hlength : (fileBuf ++ [0xff]).length < PAGESIZE := by
          rw [length_append, length_singleton] at hfull ⊢
          omega
        rw [fullPages_of_lt hlength, take_zero, drop_zero, append_nil]
  | cons b rest ih =>
    have hsplit : fileBuf ++ (b :: rest ++ [0xff]) = (fileBuf ++ [b]) ++ (rest ++ [0xff]) := by
      simp
    rw [copyBytes_cons, hsplit]
    by_cases hfull : (fileBuf ++ [b]).length = PAGESIZE
    · rw [if_pos hfull, ih _ [] (by decide), nil_append, fullPages_page hfull, ← hfull,
        take_length_add_append, drop_length_add_append, append_assoc]
    · rw [if_neg hfull]
      refine ih dest (fileBuf ++ [b]) ?_
      rw [length_append, length_singleton] at hfull ⊢
      omega

theorem copyFile_eq (content : Bytes) :
    copyFile content =
      if (content.length + 1) % PAGESIZE = 0 then content ++ [0xff] else content := by
  have hloop := copyBytes_eq content [] [] (by decide)
  simp only [nil_append] at hloop
  have hlength : (content ++ [0xff]).length = content.length + 1 := by
    rw [length_append, length_singleton]
  have hdivMod := Nat.div_add_mod (content.length + 1) PAGESIZE
  have hpages : fullPages (content ++ [0xff]) = PAGESIZE * ((content.length + 1) / PAGESIZE) := by
    rw [fullPages, hlength]
  have hrest : ((content ++ [0xff]).drop (fullPages (content ++ [0xff]))).length =
      (content.length + 1) % PAGESIZE := by
    rw [length_drop, hlength, hpages]
    omega
  have hcontent : ∀ n, n = content.length → (content ++ [0xff]).take n = content :=
    fun n hn => hn ▸ take_left
  simp only [copyFile, hloop, hrest]
  by_cases hmark : (content.length + 1) % PAGESIZE = 0
  · rw [if_neg (by omega), if_pos hmark, take_of_length_le]
    rw [hlength, hpages]
    omega
  · rw [if_neg hmark]
    split
    · next hmore =>
        rw [← take_add, hcontent]
        rw [hpages]
        omega
    · next hone =>
        rw [hcontent]
        rw [hpages]
        omega

theorem copyBlocks_eq (f : Stream) (dest : Bytes) (heof : f.eof = false)
    (herror : f.error = false) :
    copyBlocks f dest = dest ++ f.rest := by
  rw [copyBlocks, if_neg (by simp [heof]), if_neg (by simp [herror])]
  by_cases hshort : f.rest.length < PAGESIZE
  · -- the last read notices the end
    rw [copyBlocks, if_pos (by simp [fread, hshort])]
    rw [fread, take_of_length_le hshort.le]
  · have hdecr := fread_left_lt (n := PAGESIZE) (by decide) heof
    rw [copyBlocks_eq (fread PAGESIZE f).2 _ (by simp [fread, heof, hshort]) herror]
    simp [fread]
termination_by f.left

theorem copyFileNew_eq (content : Bytes) : copyFileNew content = content :=
  copyBlocks_eq ⟨content, false, false⟩ [] rfl rfl

/-- **The two copiers** write the same, and what they have read, if and only if the file and one
more byte do not fill whole pages. -/
theorem file_copiers_agree_iff (content : Bytes) :
    copyFileNew content = content ∧
      (copyFile content = copyFileNew content ↔ (content.length + 1) % PAGESIZE ≠ 0) := by
  rw [copyFileNew_eq, copyFile_eq]
  refine ⟨rfl, ?_⟩
  by_cases hmark : (content.length + 1) % PAGESIZE = 0
  · simp [hmark]
  · simp [hmark]

/-- A file of 4095 bytes gets a byte `0xff` at its end. -/
theorem copier_appends_eof :
    copyFile (replicate 4095 97) = replicate 4095 97 ++ [0xff] ∧
      copyFileNew (replicate 4095 97) = replicate 4095 97 := by
  refine ⟨?_, copyFileNew_eq _⟩
  rw [copyFile_eq, length_replicate, if_pos (by decide)]

end LinuxWorkouts.Tcp
