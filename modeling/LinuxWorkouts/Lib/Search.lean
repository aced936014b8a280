import Mathlib

/-!
Searching a text for a pattern.

A pattern is a language, built with the operations of `Language`; `Occurs p s` says that a part
of the text `s` is in it, which is what a search for a regular expression without anchors
answers. The lemmas turn a search into tests that can be run:

* `occurs_singleton` and `occurs_add` for words and alternatives;
* `occurs_mul_left` and `occurs_mul_right` drop what may match nothing at either end;
* `occurs_gap` for two words with a gap of characters of one class between them.

`infix_append_cons` cuts a text at a character that the word does not have.
-/

namespace LinuxWorkouts.Search

open List

open scoped Computability

variable {α : Type*} {p q : Language α} {s w : List α}

def Occurs (p : Language α) (s : List α) : Prop := ∃ m ∈ p, m <:+: s

theorem occurs_singleton : Occurs {w} s ↔ w <:+: s := by
  constructor
  · rintro ⟨m, rfl, hm⟩
    exact hm
  · exact fun h => ⟨w, rfl, h⟩

theorem occurs_add : Occurs (p + q) s ↔ Occurs p s ∨ Occurs q s := by
  constructor
  · rintro ⟨m, hm | hm, hs⟩
    · exact .inl ⟨m, hm, hs⟩
    · exact .inr ⟨m, hm, hs⟩
  · rintro (⟨m, hm, hs⟩ | ⟨m, hm, hs⟩)
    · exact ⟨m, .inl hm, hs⟩
    · exact ⟨m, .inr hm, hs⟩

theorem occurs_mul_left (hp : [] ∈ p) : Occurs (p * q) s ↔ Occurs q s := by
  constructor
  · rintro ⟨m, hm, hs⟩
    obtain ⟨a, -, b, hb, rfl⟩ := Language.mem_mul.mp hm
    exact ⟨b, hb, (suffix_append a b).isInfix.trans hs⟩
  · rintro ⟨m, hm, hs⟩
    exact ⟨m, Language.mem_mul.mpr ⟨[], hp, m, hm, rfl⟩, hs⟩

theorem occurs_mul_right (hq : [] ∈ q) : Occurs (p * q) s ↔ Occurs p s := by
  constructor
  · rintro ⟨m, hm, hs⟩
    obtain ⟨a, ha, b, -, rfl⟩ := Language.mem_mul.mp hm
    exact ⟨a, ha, (prefix_append a b).isInfix.trans hs⟩
  · rintro ⟨m, hm, hs⟩
    exact ⟨m, Language.mem_mul.mpr ⟨m, hm, [], hq, append_nil m⟩, hs⟩

theorem nil_mem_optional (p : Language α) : [] ∈ 1 + p := .inl Language.nil_mem_one

/-! ### Gaps -/

def oneOf (dot : α → Bool) : Language α := {w | ∃ c, dot c ∧ w = [c]}

theorem mem_kstar_oneOf {dot : α → Bool} : w ∈ (oneOf dot)∗ ↔ ∀ c ∈ w, dot c := by
  rw [Language.mem_kstar]
  constructor
  · rintro ⟨ws, rfl, hws⟩ c hc
    obtain ⟨v, hv, hcv⟩ := mem_flatten.mp hc
    obtain ⟨d, hd, rfl⟩ := hws v hv
    rw [mem_singleton.mp hcv]
    exact hd
  · intro hw
    refine ⟨w.map fun c => [c], ?_, ?_⟩
    · rw [← flatMap_def, flatMap_singleton']
    · intro v hv
      obtain ⟨c, hc, rfl⟩ := mem_map.mp hv
      exact ⟨c, hw c hc, rfl⟩

/-- `a` occurs, and `b` occurs behind it with only characters of the class before it. -/
def gapTest [DecidableEq α] (dot : α → Bool) (a b s : List α) : Bool :=
  s.tails.any fun t => a.isPrefixOf t && decide (b <:+: (t.drop a.length).takeWhile dot)

theorem gapTest_iff [DecidableEq α] {dot : α → Bool} {a b : List α} :
    gapTest dot a b s ↔ ∃ u v, s = u ++ (a ++ v) ∧ b <:+: v.takeWhile dot := by
  rw [gapTest, any_eq_true]
  constructor
  · rintro ⟨t, ht, htest⟩
    rw [Bool.and_eq_true, isPrefixOf_iff_prefix, decide_eq_true_eq] at htest
    obtain ⟨⟨v, rfl⟩, hb⟩ := htest
    obtain ⟨u, rfl⟩ := (mem_tails _ _).mp ht
    rw [drop_left] at hb
    exact ⟨u, v, rfl, hb⟩
  · rintro ⟨u, v, rfl, hb⟩
    refine ⟨a ++ v, (mem_tails _ _).mpr (suffix_append _ _), ?_⟩
    rw [Bool.and_eq_true, isPrefixOf_iff_prefix, decide_eq_true_eq, drop_left]
    exact ⟨prefix_append a v, hb⟩

theorem occurs_gap [DecidableEq α] {dot : α → Bool} {a b : List α} (hb : ∀ c ∈ b, dot c) :
    Occurs ({a} * (oneOf dot)∗ * {b}) s ↔ gapTest dot a b s := by
  rw [gapTest_iff]
  constructor
  · rintro ⟨m, hm, l, r, rfl⟩
    obtain ⟨x, hx, b', rfl, rfl⟩ := Language.mem_mul.mp hm
    obtain ⟨a', rfl, g, hg, rfl⟩ := Language.mem_mul.mp hx
    rw [mem_kstar_oneOf] at hg
    refine ⟨l, g ++ b' ++ r, by simp only [append_assoc], ?_⟩
    have hgap : ∀ c ∈ g ++ b', dot c := by
      intro c hc
      rcases mem_append.mp hc with hc | hc
      · exact hg c hc
      · exact hb c hc
    rw [takeWhile_append_of_pos hgap]
    exact (suffix_append g b').isInfix.trans (prefix_append _ _).isInfix
  · rintro ⟨u, v, rfl, g, r, hv⟩
    refine ⟨a ++ g ++ b, ?_, u, r ++ v.dropWhile dot, ?_⟩
    · refine Language.mem_mul.mpr ⟨a ++ g, Language.mem_mul.mpr ⟨a, rfl, g, ?_, rfl⟩, b, rfl, rfl⟩
      rw [mem_kstar_oneOf]
      intro c hc
      have hmem : c ∈ v.takeWhile dot := by
        rw [← hv]
        exact mem_append_left _ (mem_append_left _ hc)
      exact mem_takeWhile_imp hmem
    · have hsplit : v = g ++ b ++ r ++ v.dropWhile dot := by
        rw [hv, takeWhile_append_dropWhile]
      conv_rhs => rw [hsplit]
      simp only [append_assoc]

/-! ### Parts of a text -/

theorem infix_append_cons {c : α} {x y : List α} (hc : c ∉ w) :
    w <:+: x ++ c :: y ↔ w <:+: x ∨ w <:+: y := by
  constructor
  · rintro ⟨l, r, h⟩
    -- the cut is in front of the word, behind it or inside it
    rw [append_assoc, append_eq_append_iff] at h
    rcases h with ⟨u, rfl, hu⟩ | ⟨u, rfl, hu⟩
    · rw [append_eq_append_iff] at hu
      rcases hu with ⟨v, rfl, -⟩ | ⟨v, rfl, hv⟩
      · exact .inl ⟨l, v, by rw [append_assoc]⟩
      · cases v with
        | nil => exact .inl ⟨l, [], by simp⟩
        | cons d v =>
          cases hv
          exact absurd (mem_append_right _ mem_cons_self) hc
    · cases u with
      | nil =>
        cases w with
        | nil => exact .inl List.nil_infix
        | cons d w =>
          cases hu
          exact absurd mem_cons_self hc
      | cons d u =>
        cases hu
        exact .inr ⟨u, r, append_assoc _ _ _⟩
  · rintro (h | h)
    · exact h.trans (prefix_append _ _).isInfix
    · exact h.trans ((suffix_cons c y).trans (suffix_append x _)).isInfix

end LinuxWorkouts.Search
