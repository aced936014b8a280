import Mathlib.Data.Sym.Sym2
import Mathlib.Data.Multiset.OrderedMonoid
import Mathlib.Algebra.Order.Sub.Basic
import Mathlib.Algebra.BigOperators.Group.Multiset.Basic
import Mathlib.Algebra.Order.BigOperators.Group.Multiset
import Mathlib.Algebra.Group.Nat.Even
import Mathlib.Logic.Relation

/-!
Trails in undirected multigraphs, and Euler's theorem.

A multigraph is the multiset of its edges; loops are edges of a vertex with itself, and count twice
in its degree. `Trail.even_degree` is the parity of the degrees along a trail and `Trail.splice`
puts a closed trail into another one. `exists_euler_trail` is the theorem: with even degrees a
closed trail can be extended until nothing that is connected with it is left.
-/

namespace LinuxWorkouts.EulerTrails

open List

variable {V : Type*}

/-- A trail from one vertex to another, with the vertices on it and the edges it uses. -/
inductive Trail : V → V → List V → Multiset (Sym2 V) → Prop
  | nil (v : V) : Trail v v [v] 0
  | cons (u : V) {v w : V} {vs : List V} {E : Multiset (Sym2 V)} (h : Trail v w vs E) :
      Trail u w (u :: vs) (s(u, v) ::ₘ E)

section Basic

variable {u v w : V} {vs ws : List V} {E F : Multiset (Sym2 V)}

section

variable (h : Trail u v vs E)
include h

theorem Trail.start_mem : u ∈ vs := by
  cases h <;> exact mem_cons_self

theorem Trail.mem_of_edge {x y : V} (he : s(x, y) ∈ E) : y ∈ vs := by
  induction h with
  | nil v => exact absurd he (Multiset.notMem_zero _)
  | @cons u v w vs E htrail ih =>
    rcases Multiset.mem_cons.mp he with heq | he
    · rcases Sym2.eq_iff.mp heq with ⟨-, rfl⟩ | ⟨-, rfl⟩
      · exact mem_cons_of_mem u htrail.start_mem
      · exact mem_cons_self
    · exact mem_cons_of_mem u (ih he)

theorem Trail.exists_cons : ∃ rest, vs = u :: rest := by
  cases h
  · exact ⟨[], rfl⟩
  · exact ⟨_, rfl⟩

theorem Trail.snoc (w : V) : Trail u w (vs ++ [w]) (s(v, w) ::ₘ E) := by
  induction h with
  | nil v => exact (Trail.nil w).cons v
  | @cons u _ _ _ _ _ ih =>
    rw [Multiset.cons_swap]
    exact ih.cons u

theorem Trail.append (h' : Trail v w ws F) : ∃ us, Trail u w us (E + F) := by
  induction h with
  | nil v => exact ⟨ws, by rwa [zero_add]⟩
  | @cons u _ _ _ _ _ ih =>
    obtain ⟨us, hus⟩ := ih h'
    refine ⟨u :: us, ?_⟩
    rw [Multiset.cons_add]
    exact hus.cons u

theorem Trail.splice {p : V} (hp : p ∈ vs) (h' : Trail p p ws F) : ∃ us, Trail u v us (F + E) := by
  induction h with
  | nil v =>
    obtain rfl := mem_singleton.mp hp
    exact ⟨ws, by rwa [add_zero]⟩
  | @cons u v w vs E htrail ih =>
    rcases mem_cons.mp hp with rfl | hp
    · exact h'.append (htrail.cons p)
    · obtain ⟨us, hus⟩ := ih hp
      refine ⟨u :: us, ?_⟩
      rw [Multiset.add_cons]
      exact hus.cons u

theorem Trail.reachable {x : V} (hx : x ∈ vs) :
    Relation.ReflTransGen (fun x y => s(x, y) ∈ E) u x := by
  induction h with
  | nil v => exact mem_singleton.mp hx ▸ .refl
  | @cons u v w vs E _ ih =>
    rcases mem_cons.mp hx with rfl | hx
    · exact .refl
    · exact .head (Multiset.mem_cons_self _ E)
        (Relation.ReflTransGen.mono (fun a b hab => Multiset.mem_cons_of_mem hab) _ _ (ih hx))

theorem Trail.reachable_of_mem {x y : V} (hx : x ∈ vs) (hy : y ∈ vs) :
    Relation.ReflTransGen (fun x y => s(x, y) ∈ E) x y := by
  have hsymm : Std.Symm fun x y => s(x, y) ∈ E := ⟨fun a b hab => by rwa [Sym2.eq_swap]⟩
  exact (Relation.ReflTransGen.stdSymm.symm _ _ (h.reachable hx)).trans (h.reachable hy)

theorem Trail.mem_of_reachable {x : V} (hx : Relation.ReflTransGen (fun x y => s(x, y) ∈ E) u x) :
    x ∈ vs := by
  induction hx with
  | refl => exact h.start_mem
  | tail _ hstep _ => exact h.mem_of_edge hstep

end

end Basic

/-! ### Consecutive vertices -/

section Consecutive

def consecutive : List V → Multiset (Sym2 V)
  | [] => 0
  | [_] => 0
  | u :: v :: vs => s(u, v) ::ₘ consecutive (v :: vs)

variable {u v w z : V} {vs ts : List V} {E : Multiset (Sym2 V)}

theorem Trail.consecutive_append (h : Trail u v vs E) (ts : List V) :
    consecutive (vs ++ ts) = E + consecutive (v :: ts) := by
  induction h with
  | nil v => rw [zero_add, singleton_append]
  | @cons u _ _ _ _ htrail ih =>
    obtain ⟨rest, rfl⟩ := htrail.exists_cons
    rw [cons_append, cons_append, consecutive, ← cons_append, ih, Multiset.cons_add]

theorem Trail.consecutive_eq (h : Trail u v vs E) : consecutive vs = E := by
  have happend := h.consecutive_append []
  rwa [append_nil, consecutive, add_zero] at happend

theorem notMem_consecutive_append (h : ∀ x ∈ ts, x ≠ u ∧ x ≠ v) :
    s(u, v) ∉ consecutive (ts ++ [z]) := by
  induction ts with
  | nil => exact Multiset.notMem_zero _
  | cons x ts ih =>
    have hx := h x mem_cons_self
    have hrest := ih fun y hy => h y (mem_cons_of_mem x hy)
    cases ts with
    | nil =>
      simp only [cons_append, nil_append, consecutive]
      grind
    | cons y ts =>
      simp only [cons_append, consecutive] at hrest ⊢
      grind

end Consecutive

/-! ### Degrees -/

section Degree

variable [DecidableEq V] {u v w x : V} {vs : List V} {E F : Multiset (Sym2 V)}

def endsAt (x : V) (e : Sym2 V) : Nat := e.toMultiset.count x

def degree (x : V) (E : Multiset (Sym2 V)) : Nat := (E.map (endsAt x)).sum

theorem endsAt_mk (x a b : V) :
    endsAt x s(a, b) = (if x = a then 1 else 0) + if x = b then 1 else 0 := by
  have hcount : endsAt x s(a, b) = count x [a, b] := by simp [endsAt, Sym2.toMultiset]
  rw [hcount, count_cons, count_singleton, add_comm]
  simp only [beq_iff_eq, eq_comm (a := x)]

@[simp]
theorem degree_zero (x : V) : degree x (0 : Multiset (Sym2 V)) = 0 := rfl

theorem degree_cons (x : V) (e : Sym2 V) (E : Multiset (Sym2 V)) :
    degree x (e ::ₘ E) = endsAt x e + degree x E := by
  rw [degree, Multiset.map_cons, Multiset.sum_cons, degree]

theorem degree_add (x : V) (E F : Multiset (Sym2 V)) :
    degree x (E + F) = degree x E + degree x F := by
  rw [degree, Multiset.map_add, Multiset.sum_add, degree, degree]

theorem degree_eq_zero_of_le (h : E ≤ F) (hF : degree x F = 0) : degree x E = 0 := by
  obtain ⟨D, rfl⟩ := Multiset.le_iff_exists_add.mp h
  rw [degree_add] at hF
  omega

theorem degree_ne_zero (x y : V) (h : s(x, y) ∈ E) : degree x E ≠ 0 := by
  obtain ⟨D, rfl⟩ := Multiset.exists_cons_of_mem h
  rw [degree_cons, endsAt_mk, if_pos rfl]
  omega

theorem exists_edge_of_degree (h : degree x E ≠ 0) : ∃ y, s(x, y) ∈ E := by
  by_contra hnot
  refine h (Multiset.sum_eq_zero fun k hk => ?_)
  obtain ⟨e, he, rfl⟩ := Multiset.mem_map.mp hk
  refine Multiset.count_eq_zero.mpr fun hx => ?_
  obtain ⟨y, rfl⟩ := Sym2.mem_iff_exists.mp (Sym2.mem_toMultiset.mp hx)
  exact hnot ⟨y, he⟩

theorem Trail.even_degree (h : Trail u v vs E) (x : V) :
    Even (degree x E + ((if x = u then 1 else 0) + if x = v then 1 else 0)) := by
  induction h with
  | nil v =>
    rw [degree_zero, zero_add]
    exact Even.add_self _
  | @cons u v w vs E _ ih =>
    rw [degree_cons, endsAt_mk]
    have hdouble : Even ((if x = v then 1 else 0) + if x = v then 1 else 0) := Even.add_self _
    have hdouble' : Even ((if x = u then 1 else 0) + if x = u then 1 else 0) := Even.add_self _
    grind

theorem Trail.even_of_closed (h : Trail v v vs E) (x : V) : Even (degree x E) := by
  have heven := h.even_degree x
  have hdouble : Even ((if x = v then 1 else 0) + if x = v then 1 else 0) := Even.add_self _
  exact (Nat.even_add.mp heven).mpr hdouble

end Degree

/-! ### Euler's theorem -/

section Euler

variable [DecidableEq V] {u v p q r : V} {vs ws : List V} {E F R : Multiset (Sym2 V)}

theorem Trail.exists_closed (heven : ∀ x, Even (degree x R)) (h : Trail u p ws F) (hle : F ≤ R) :
    ∃ ws' F', Trail p p ws' F' ∧ F ≤ F' ∧ F' ≤ R := by
  -- The induction is on the number of edges that are left.
  induction hk : (R - F).card using Nat.strong_induction_on generalizing u ws F with
  | _ k ih =>
    by_cases hup : u = p
    · subst hup
      exact ⟨ws, F, h, le_rfl, hle⟩
    · have hodd := h.even_degree u
      rw [if_pos rfl, if_neg hup, Nat.even_add_one] at hodd
      have hsum : degree u F + degree u (R - F) = degree u R := by
        rw [← degree_add, add_tsub_cancel_of_le hle]
      have hleft : degree u (R - F) ≠ 0 := by
        intro hzero
        rw [hzero, add_zero] at hsum
        exact hodd (hsum ▸ heven u)
      obtain ⟨y, hy⟩ := exists_edge_of_degree hleft
      have hnext : s(y, u) ::ₘ F ≤ R := by
        rw [Sym2.eq_swap, ← Multiset.singleton_add]
        calc {s(u, y)} + F ≤ (R - F) + F :=
              add_le_add_left (Multiset.singleton_le.mpr hy) F
          _ = R := tsub_add_cancel_of_le hle
      have hfewer : (R - s(y, u) ::ₘ F).card < k := by
        rw [← hk, Multiset.card_sub hnext, Multiset.card_sub hle, Multiset.card_cons]
        have hcard := Multiset.card_le_card hnext
        rw [Multiset.card_cons] at hcard
        omega
      obtain ⟨ws', F', hclosed, hF, hR⟩ := ih _ hfewer (h.cons y) hnext rfl
      exact ⟨ws', F', hclosed, (Multiset.le_cons_self F _).trans hF, hR⟩

theorem Trail.exists_leftover (h : Trail r v vs F) (hle : F ≤ E) (hne : F ≠ E)
    (hconn : ∀ x y, s(x, y) ∈ E → Relation.ReflTransGen (fun x y => s(x, y) ∈ E) r x) :
    ∃ p q, p ∈ vs ∧ s(p, q) ∈ E - F := by
  by_contra hnot
  -- Without one, the edges do not lead away from the trail.
  have hstay : ∀ x, Relation.ReflTransGen (fun x y => s(x, y) ∈ E) r x → x ∈ vs := by
    intro x hx
    induction hx with
    | refl => exact h.start_mem
    | @tail p q _ hstep hp =>
      by_contra hq
      have hfree : s(p, q) ∉ F := fun hF => hq (h.mem_of_edge hF)
      refine hnot ⟨p, q, hp, Multiset.mem_sub.mpr ?_⟩
      rw [Multiset.count_eq_zero_of_notMem hfree]
      exact Multiset.count_pos.mpr hstep
  have hrest : E - F ≠ 0 := by
    intro hzero
    exact hne (le_antisymm hle (tsub_eq_zero_iff_le.mp hzero))
  obtain ⟨e, he⟩ := Multiset.exists_mem_of_ne_zero hrest
  induction e with
  | _ x y =>
    exact hnot ⟨x, y, hstay x (hconn x y (Multiset.mem_of_le tsub_le_self he)), he⟩

theorem exists_euler_trail (heven : ∀ x, Even (degree x E))
    (hconn : ∀ x y, s(x, y) ∈ E → Relation.ReflTransGen (fun x y => s(x, y) ∈ E) r x) :
    ∃ vs, Trail r r vs E := by
  suffices h : ∀ k F vs, Trail r r vs F → F ≤ E → (E - F).card = k → ∃ vs, Trail r r vs E from
    h _ 0 [r] (.nil r) (Multiset.zero_le E) rfl
  intro k
  induction k using Nat.strong_induction_on with
  | _ k ih =>
    intro F vs h hle hk
    by_cases hfull : F = E
    · exact ⟨vs, hfull ▸ h⟩
    · obtain ⟨p, q, hp, hedge⟩ := h.exists_leftover hle hfull hconn
      have hevenRest : ∀ x, Even (degree x (E - F)) := by
        intro x
        have hsum : degree x F + degree x (E - F) = degree x E := by
          rw [← degree_add, add_tsub_cancel_of_le hle]
        have hx := heven x
        rw [← hsum, Nat.even_add] at hx
        exact hx.mp (h.even_of_closed x)
      obtain ⟨ws, F', hclosed, hone, hrest⟩ := Trail.exists_closed hevenRest
        ((Trail.nil p).cons q) (Multiset.singleton_le.mpr (Sym2.eq_swap ▸ hedge))
      obtain ⟨us, hus⟩ := h.splice hp hclosed
      have hmore : F' + F ≤ E := by
        calc F' + F ≤ (E - F) + F := add_le_add_left hrest F
          _ = E := tsub_add_cancel_of_le hle
      have hcard : 1 ≤ F'.card := Multiset.card_le_card hone
      refine ih _ ?_ (F' + F) us hus hmore rfl
      rw [← hk, Multiset.card_sub hmore, Multiset.card_sub hle, Multiset.card_add]
      have hbound := Multiset.card_le_card hmore
      rw [Multiset.card_add] at hbound
      omega

end Euler

end LinuxWorkouts.EulerTrails
