import Mathlib.Data.List.Infix
import Mathlib.Data.Nat.Find

/-!
Search for a pattern that never goes back in the text.

An attempt at a position compares the pattern with the text from there on, as far as they agree
(`common`); the next attempt starts behind what was compared, or one further when nothing agreed
(`stride`). `Reached` are the positions at which an attempt starts; the search is right about a text
iff the first occurrence is at one of them (`findsFirst_forward_iff`). A pattern whose prefixes go
on like the shorter prefixes they end in is always found (`SameContinuations.reached`), and any
other one stands in a text in which it is not (`not_findsFirst_of_ne`).
-/

namespace LinuxWorkouts.ForwardSearch

open List

/-! ### Occurrences -/

section Occurrences

variable {α : Type*} {p t : List α} {s : Nat}

def FirstAt (p t : List α) (s : Nat) : Prop := p <+: t.drop s ∧ ∀ i < s, ¬ p <+: t.drop i

/-- `found` says whether the pattern stands in the text, and where its first occurrence ends. -/
def FindsFirst (found : Option Nat) (p t : List α) : Prop :=
  (found.isSome = true ↔ p <:+: t) ∧ ∀ s, FirstAt p t s → found = some (s + p.length)

/-- Where a prefix of the pattern ends in a shorter one, both go on in the same way. -/
def SameContinuations (p : List α) : Prop :=
  ∀ r < p.length, ∀ j, 1 ≤ j → j < r → p.take j <:+ p.take r → p[j]? = p[r]?

theorem infix_of_prefix_drop (h : p <+: t.drop s) : p <:+: t :=
  h.isInfix.trans (drop_suffix s t).isInfix

theorem exists_firstAt (h : p <:+: t) : ∃ s, FirstAt p t s := by
  classical
  obtain ⟨front, back, rfl⟩ := h
  have hsome : ∃ s, p <+: (front ++ p ++ back).drop s := ⟨front.length, by simp⟩
  obtain ⟨s, hs, hmin⟩ := Nat.findX hsome
  exact ⟨s, hs, hmin⟩

theorem firstAt_add_iff {n : Nat} : FirstAt p t (n + s) ↔
    (∀ i < n, ¬ p <+: t.drop i) ∧ FirstAt p (t.drop n) s := by
  constructor
  · rintro ⟨hs, hbefore⟩
    refine ⟨fun i hi => hbefore i (by omega), by rwa [drop_drop], fun i hi => ?_⟩
    rw [drop_drop]
    exact hbefore _ (by omega)
  · rintro ⟨hfirst, hs, hbefore⟩
    refine ⟨by rwa [drop_drop] at hs, fun i hi => ?_⟩
    by_cases hlt : i < n
    · exact hfirst i hlt
    · have hrest := hbefore (i - n) (by omega)
      rwa [drop_drop, Nat.add_sub_cancel' (not_lt.mp hlt)] at hrest

theorem getElem?_of_prefix_drop (h : p <+: t.drop s) {i : Nat} (hi : i < p.length) :
    p[i]? = t[s + i]? := by
  rw [← getElem?_drop, prefix_iff_getElem?.mp h i hi, getElem?_eq_getElem]

end Occurrences

variable {α : Type*} [DecidableEq α]

def common : List α → List α → Nat
  | a :: p, b :: t => if a = b then common p t + 1 else 0
  | _, _ => 0

def stride (p t : List α) : Nat := max 1 (common p t)

/-- The positions of the text at which an attempt starts when those before fail. -/
inductive Reached (p : List α) : List α → Nat → Prop
  | start (t : List α) : Reached p t 0
  | next {t : List α} {s : Nat} (h : Reached p (t.drop (stride p t)) s) :
      Reached p t (stride p t + s)

def forward (p t : List α) : Option Nat :=
  if common p t = p.length then some p.length
  else if t = [] then none
  else (forward p (t.drop (stride p t))).map (stride p t + ·)
termination_by t.length
decreasing_by
  have hpos := length_pos_iff.mpr ‹t ≠ []›
  rw [length_drop, stride]
  omega

variable {p t : List α} {r s : Nat}

/-! ### The common part -/

theorem le_common_iff : r ≤ common p t ↔ r ≤ p.length ∧ p.take r <+: t := by
  induction p generalizing t r with
  | nil => cases r <;> simp [common]
  | cons a p ih =>
    cases t with
    | nil => cases r <;> simp [common]
    | cons b t =>
      cases r with
      | zero => simp
      | succ r =>
        rw [common, take_succ_cons, cons_prefix_cons, length_cons]
        split <;> simp_all

theorem common_le (p t : List α) : common p t ≤ p.length := (le_common_iff.mp le_rfl).1

theorem prefix_of_common (p t : List α) : p.take (common p t) <+: t := (le_common_iff.mp le_rfl).2

theorem common_eq_length_iff : common p t = p.length ↔ p <+: t := by
  have h : p.length ≤ common p t ↔ p <+: t := by rw [le_common_iff, take_length]; simp
  rw [← h]
  exact ⟨fun heq => heq.ge, fun hle => le_antisymm (common_le p t) hle⟩

theorem getElem?_common_ne (h : common p t < p.length) : p[common p t]? ≠ t[common p t]? := by
  induction p, t using common.induct with
  | case1 p b t ih =>
    rw [common, if_pos rfl, length_cons] at h
    rw [common, if_pos rfl, getElem?_cons_succ, getElem?_cons_succ]
    exact ih (Nat.lt_of_succ_lt_succ h)
  | case2 a p b t hne =>
    rw [common, if_neg hne]
    simpa using hne
  | case3 p t hcons =>
    cases p with
    | nil => exact absurd h (Nat.not_lt_zero _)
    | cons a p =>
      cases t with
      | nil => simp [common]
      | cons b t => exact (hcons a p b t rfl rfl).elim

theorem getElem?_eq_of_lt_common {i : Nat} (h : i < common p t) : p[i]? = t[i]? := by
  have hpre : p.take (common p t) <+: t.drop 0 := prefix_of_common p t
  have hlength := length_take_of_le (common_le p t)
  have hget := getElem?_of_prefix_drop hpre (i := i) (by rwa [hlength])
  rwa [getElem?_take_of_lt h, Nat.zero_add] at hget

theorem succ_le_common (hle : r ≤ common p t) (hr : r < p.length) (heq : p[r]? = t[r]?) :
    r + 1 ≤ common p t := by
  refine lt_of_le_of_ne hle ?_
  rintro rfl
  exact getElem?_common_ne hr heq

theorem common_eq_of_ne (hpre : p.take r <+: t) (hr : r < p.length) (hne : p[r]? ≠ t[r]?) :
    common p t = r := by
  refine le_antisymm ?_ (le_common_iff.mpr ⟨hr.le, hpre⟩)
  by_contra hlt
  obtain ⟨-, hnext⟩ := le_common_iff.mp (Nat.succ_le_of_lt (not_le.mp hlt))
  have hget := prefix_iff_getElem?.mp hnext r (by rw [length_take]; omega)
  apply hne
  rw [hget, getElem_take, getElem?_eq_getElem]

/-! ### The attempts -/

theorem stride_pos (p t : List α) : 0 < stride p t :=
  Nat.lt_of_lt_of_le Nat.zero_lt_one (le_max_left _ _)

theorem Reached.stride_le (h : Reached p t s) (hpos : 0 < s) : stride p t ≤ s := by
  cases h with
  | start => exact absurd hpos (Nat.lt_irrefl 0)
  | next h => exact Nat.le_add_right _ _

theorem reached_stride_add_iff :
    Reached p t (stride p t + s) ↔ Reached p (t.drop (stride p t)) s := by
  refine ⟨fun h => ?_, .next⟩
  have hpos := stride_pos p t
  generalize hn : stride p t + s = n at h
  cases h with
  | start => omega
  | next h =>
    obtain rfl := Nat.add_left_cancel hn
    exact h

theorem forward_eq_some_iff {e : Nat} : forward p t = some e ↔
    ∃ s, (Reached p t s ∧ p <+: t.drop s) ∧ (∀ i < s, Reached p t i → ¬ p <+: t.drop i) ∧
      e = s + p.length := by
  fun_induction forward p t generalizing e with
  | case1 t hall =>
    have hhere := common_eq_length_iff.mp hall
    constructor
    · intro h
      cases h
      exact ⟨0, ⟨.start t, hhere⟩, fun i hi => absurd hi (Nat.not_lt_zero i), (Nat.zero_add _).symm⟩
    · rintro ⟨s, -, hbefore, rfl⟩
      obtain rfl : s = 0 := Nat.eq_zero_of_not_pos fun hpos => hbefore 0 hpos (.start t) hhere
      rw [Nat.zero_add]
  | case2 hfail =>
    refine iff_of_false (Option.some_ne_none e).symm ?_
    rintro ⟨s, ⟨-, hs⟩, -⟩
    rw [drop_nil] at hs
    exact hfail (common_eq_length_iff.mpr hs)
  | case3 t hfail hne ih =>
    have hhere : ¬ p <+: t := mt common_eq_length_iff.mpr hfail
    rw [Option.map_eq_some_iff]
    constructor
    · rintro ⟨e', he, rfl⟩
      obtain ⟨s, ⟨hreached, hs⟩, hbefore, rfl⟩ := ih.mp he
      rw [drop_drop] at hs
      refine ⟨stride p t + s, ⟨.next hreached, hs⟩, fun i hi hi' => ?_, (Nat.add_assoc _ _ _).symm⟩
      cases hi' with
      | start => exact hhere
      | next hi' =>
        rw [← drop_drop]
        exact hbefore _ (Nat.lt_of_add_lt_add_left hi) hi'
    · rintro ⟨s, ⟨hreached, hs⟩, hbefore, rfl⟩
      cases hreached with
      | start => exact absurd hs hhere
      | @next _ s hreached =>
        rw [← drop_drop] at hs
        refine ⟨s + p.length, ih.mpr ⟨s, ⟨hreached, hs⟩, fun i hi hi' => ?_, rfl⟩,
          (Nat.add_assoc _ _ _).symm⟩
        rw [drop_drop]
        exact hbefore _ (Nat.add_lt_add_left hi _) (.next hi')

theorem forward_eq_none_of_length_lt (h : t.length < p.length) : forward p t = none := by
  by_contra hsome
  obtain ⟨e, he⟩ := Option.ne_none_iff_exists'.mp hsome
  obtain ⟨s, ⟨-, hs⟩, -⟩ := forward_eq_some_iff.mp he
  exact h.not_ge (infix_of_prefix_drop hs).length_le

theorem findsFirst_forward_iff :
    FindsFirst (forward p t) p t ↔ ∀ s, FirstAt p t s → Reached p t s := by
  constructor
  · rintro ⟨-, hfound⟩ s hfirst
    obtain ⟨s', ⟨hreached, -⟩, -, heq⟩ := forward_eq_some_iff.mp (hfound s hfirst)
    rwa [Nat.add_right_cancel heq]
  · intro h
    have hfound : ∀ s, FirstAt p t s → forward p t = some (s + p.length) := fun s hfirst =>
      forward_eq_some_iff.mpr ⟨s, ⟨h s hfirst, hfirst.1⟩, fun i hi _ => hfirst.2 i hi, rfl⟩
    refine ⟨⟨fun hsome => ?_, fun hin => ?_⟩, hfound⟩
    · obtain ⟨e, he⟩ := Option.isSome_iff_exists.mp hsome
      obtain ⟨s, ⟨-, hs⟩, -⟩ := forward_eq_some_iff.mp he
      exact infix_of_prefix_drop hs
    · obtain ⟨s, hfirst⟩ := exists_firstAt hin
      rw [hfound s hfirst]
      rfl

/-! ### Patterns for which the search is always right -/

theorem SameContinuations.stride_le (hp : SameContinuations p) (hs : FirstAt p t s) (hpos : 0 < s) :
    stride p t ≤ s := by
  have hfail : common p t < p.length := by
    refine lt_of_le_of_ne (common_le p t) fun heq => ?_
    exact hs.2 0 hpos (common_eq_length_iff.mp heq)
  refine max_le hpos (not_lt.mp fun hlt => ?_)
  have hdiffer := getElem?_common_ne hfail
  have hagree : ∀ i < common p t, p[i]? = t[i]? := fun i => getElem?_eq_of_lt_common
  generalize common p t = k at hfail hlt hdiffer hagree
  -- what the occurrence has in common with the attempt is a prefix at the end of a prefix
  have hborder : p.take (k - s) <:+ p.take k := by
    have hdrop : p.take (k - s) = (p.take k).drop s := by
      rw [drop_take]
      apply ext_getElem?
      intro i
      by_cases hi : i < k - s
      · rw [getElem?_take_of_lt hi, getElem?_take_of_lt hi, getElem?_drop,
          hagree (s + i) (by omega), getElem?_of_prefix_drop hs.1 (by omega)]
      · rw [getElem?_take_eq_none (by omega), getElem?_take_eq_none (by omega)]
    rw [hdrop]
    exact drop_suffix s _
  have hsame := hp k hfail (k - s) (by omega) (by omega) hborder
  rw [getElem?_of_prefix_drop hs.1 (by omega), Nat.add_sub_cancel' hlt.le] at hsame
  exact hdiffer hsame.symm

theorem SameContinuations.reached (hp : SameContinuations p) (hs : FirstAt p t s) :
    Reached p t s := by
  induction s using Nat.strong_induction_on generalizing t with
  | _ s ih =>
    rcases Nat.eq_zero_or_pos s with rfl | hpos
    · exact .start t
    · obtain ⟨s', rfl⟩ := Nat.exists_eq_add_of_le (hp.stride_le hs hpos)
      have hstride := stride_pos p t
      exact .next (ih s' (by omega) (firstAt_add_iff.mp hs).2)

theorem not_findsFirst_of_ne {j : Nat} (hr : r < p.length) (hj : 1 ≤ j) (hjr : j < r)
    (hborder : p.take j <:+ p.take r) (hne : p[j]? ≠ p[r]?) :
    ¬ FindsFirst (forward p (p.take r ++ p.drop j)) p (p.take r ++ p.drop j) := by
  have hlength : (p.take r).length = r := length_take_of_le hr.le
  have hcommon : common p (p.take r ++ p.drop j) = r := by
    refine common_eq_of_ne (prefix_append _ _) hr fun heq => hne ?_
    rw [heq, getElem?_append_right hlength.le, hlength, Nat.sub_self, getElem?_drop, Nat.add_zero]
  have hend : p <+: (p.take r ++ p.drop j).drop (r - j) := by
    have hdrop : (p.take r).drop (r - j) = p.take j := by
      have heq := suffix_iff_eq_drop.mp hborder
      rw [hlength, length_take_of_le (hjr.le.trans hr.le)] at heq
      exact heq.symm
    rw [drop_append_of_le_length (by omega), hdrop, take_append_drop]
  rw [findsFirst_forward_iff]
  intro h
  obtain ⟨s, hfirst⟩ := exists_firstAt (infix_of_prefix_drop hend)
  have hs : s ≤ r - j := not_lt.mp fun hlt => hfirst.2 _ hlt hend
  cases h s hfirst with
  | start => exact hr.ne (hcommon ▸ common_eq_length_iff.mpr hfirst.1)
  | next =>
    rw [stride, hcommon] at hs
    omega

end LinuxWorkouts.ForwardSearch
