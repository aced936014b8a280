import LinuxWorkouts.Lib.Ascii
import LinuxWorkouts.Lib.ForwardSearch

/-!
`find_substr` of `file-system/proc/proc_tree.c` and `proc-names.c`.

Strings are without their terminating zero. A mismatch takes the pattern back to its start and
leaves the text where it is, so the loop is the search of `ForwardSearch`: it passes over an
occurrence that starts inside a part that was compared. `"PPid:"`, the pattern of the program, has
such texts.
-/

namespace LinuxWorkouts.Proc

open ForwardSearch List

/-- The two pointers behind one round; `substr[r_ptr]` may be the terminating zero, which is no
character of `str`. -/
def advance (str substr : List UInt8) (l r : Nat) : Nat × Nat :=
  if str[l]? = substr[r]? then (l + 1, r + 1)
  else if r > 0 then (l, 0)
  else (l + 1, r)

def findSubstrLoop (str substr : List UInt8) (l r : Nat) : Option Nat :=
  if l < str.length then
    if (advance str substr l r).2 ≥ substr.length then some (advance str substr l r).1
    else findSubstrLoop str substr (advance str substr l r).1 (advance str substr l r).2
  else none
termination_by 2 * (str.length - l) + r
decreasing_by
  unfold advance
  split_ifs <;> simp only <;> omega

def findSubstr (str substr : List UInt8) : Option Nat := findSubstrLoop str substr 0 0

def PPIDPATTERN : List UInt8 := Ascii.ascii "PPid:"

variable {str substr : List UInt8} {i l r : Nat}

theorem advance_of_eq (h : str[l]? = substr[r]?) : advance str substr l r = (l + 1, r + 1) :=
  if_pos h

theorem advance_of_ne (h : str[i + r]? ≠ substr[r]?) :
    advance str substr (i + r) r = (i + max 1 r, 0) := by
  rw [advance, if_neg h]
  split_ifs with hr
  · rw [max_eq_right hr]
  · obtain rfl : r = 0 := Nat.eq_zero_of_not_pos hr
    rfl

theorem findSubstrLoop_eq (hr : r < substr.length) (hle : r ≤ common substr (str.drop i)) :
    findSubstrLoop str substr (i + r) r = (forward substr (str.drop i)).map (i + ·) := by
  induction hl : i + r, r using findSubstrLoop.induct str substr generalizing i with
  | case1 l r hin hdone =>
    subst hl
    by_cases heq : str[i + r]? = substr[r]?
    · rw [advance_of_eq heq] at hdone
      have hnext := succ_le_common hle hr (by rw [getElem?_drop, heq])
      have hall : common substr (str.drop i) = substr.length :=
        le_antisymm (common_le _ _) (hdone.trans hnext)
      have hlast : substr.length = r + 1 := le_antisymm hdone hr
      rw [findSubstrLoop, if_pos hin, advance_of_eq heq, if_pos hdone, forward, if_pos hall,
        Option.map_some, hlast]
      rfl
    · rw [advance_of_ne heq] at hdone
      omega
  | case2 l r hin hmore ih =>
    subst hl
    by_cases heq : str[i + r]? = substr[r]?
    · rw [advance_of_eq heq] at hmore ih
      rw [findSubstrLoop, if_pos hin, advance_of_eq heq, if_neg hmore]
      exact ih (not_le.mp hmore) (succ_le_common hle hr (by rw [getElem?_drop, heq])) rfl
    · rw [advance_of_ne heq] at hmore ih
      have hcommon : common substr (str.drop i) = r := by
        have hpre := (take_prefix_take_left hle).trans (prefix_of_common _ _)
        refine common_eq_of_ne hpre hr ?_
        rw [getElem?_drop]
        exact Ne.symm heq
      have hdrop : str.drop i ≠ [] := by
        rw [Ne, drop_eq_nil_iff]
        omega
      rw [findSubstrLoop, if_pos hin, advance_of_ne heq, if_neg hmore, forward,
        if_neg (by omega), if_neg hdrop, drop_drop, stride, hcommon, Option.map_map]
      rw [ih (not_le.mp hmore) (Nat.zero_le _) rfl]
      congr 1
      funext e
      exact Nat.add_assoc _ _ _
  | case3 l r hout =>
    have hshort : (str.drop i).length < substr.length := by
      rw [length_drop]
      omega
    rw [findSubstrLoop, if_neg hout, forward_eq_none_of_length_lt hshort]
    rfl

theorem findSubstr_eq (hne : substr ≠ []) (str : List UInt8) :
    findSubstr str substr = forward substr str := by
  have hstart : 0 ≤ common substr (str.drop 0) := Nat.zero_le _
  have hloop := findSubstrLoop_eq (length_pos_iff.mpr hne) hstart
  rw [drop_zero] at hloop
  simpa [findSubstr] using hloop

/-- `find_substr` is right about a string iff one of its attempts starts at the first occurrence,
and about every string iff the prefixes of the pattern go on like the shorter ones they end in. -/
theorem findSubstr_first_iff (substr : List UInt8) (hne : substr ≠ []) (hzero : 0 ∉ substr) :
    (∀ str, FindsFirst (findSubstr str substr) substr str ↔
      ∀ s, FirstAt substr str s → Reached substr str s) ∧
    ((∀ str, 0 ∉ str → FindsFirst (findSubstr str substr) substr str) ↔
      SameContinuations substr) := by
  simp only [findSubstr_eq hne]
  refine ⟨fun str => findsFirst_forward_iff, fun h r hr j hj hjr hborder => ?_, fun h str _ => ?_⟩
  · by_contra hdiffer
    refine not_findsFirst_of_ne hr hj hjr hborder hdiffer (h _ ?_)
    rw [mem_append]
    exact fun hmem => hzero (hmem.elim mem_of_mem_take mem_of_mem_drop)
  · exact findsFirst_forward_iff.mpr fun s hs => h.reached hs

/-- In `abab` the prefix `aba` ends in `a`, and both go on with `b`: no string hides it. -/
theorem findSubstr_first_abab :
    FindsFirst (findSubstr (Ascii.ascii "aabab") (Ascii.ascii "abab")) (Ascii.ascii "abab")
      (Ascii.ascii "aabab") := by
  refine (findSubstr_first_iff (Ascii.ascii "abab") (by decide) (by decide)).2.mpr ?_ _ (by decide)
  intro r hr j hj hjr
  have hr : r < 4 := hr
  interval_cases r <;> interval_cases j <;> decide

/-- The third `P` is compared with the `i` of the pattern, and then with its first `P` again. -/
theorem findSubstr_misses_pattern :
    findSubstr (Ascii.ascii "PPPid:") PPIDPATTERN = none ∧
      PPIDPATTERN <:+: Ascii.ascii "PPPid:" := by
  decide +kernel

end LinuxWorkouts.Proc
