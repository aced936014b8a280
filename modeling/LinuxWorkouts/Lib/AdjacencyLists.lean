import Mathlib.Data.List.Basic
import Mathlib.Data.List.Nodup
import Mathlib.Logic.Function.Basic
import Mathlib.Algebra.BigOperators.Group.Finset.Piecewise

/-!
Adjacency lists of undirected graphs, built edge by edge. A loop is entered twice into the list of
its vertex.
-/

namespace LinuxWorkouts.AdjacencyLists

open List

variable {V : Type*} [DecidableEq V]

def push (lists : V → List V) (v u : V) : V → List V := Function.update lists v (lists v ++ [u])

def addEdge (lists : V → List V) (edge : V × V) : V → List V :=
  push (push lists edge.1 edge.2) edge.2 edge.1

def ofEdges (edges : List (V × V)) : V → List V := edges.foldl addEdge fun _ => []

def ends (v : V) (edge : V × V) : List V :=
  (if v = edge.1 then [edge.2] else []) ++ if v = edge.2 then [edge.1] else []

theorem push_apply (lists : V → List V) (v u w : V) :
    push lists v u w = lists w ++ if w = v then [u] else [] := by
  rw [push, Function.update_apply]
  split
  · next h => rw [h]
  · exact (append_nil _).symm

theorem addEdge_apply (lists : V → List V) (edge : V × V) (v : V) :
    addEdge lists edge v = lists v ++ ends v edge := by
  rw [addEdge, push_apply, push_apply, append_assoc, ends]

theorem foldl_addEdge (edges : List (V × V)) (lists : V → List V) (v : V) :
    edges.foldl addEdge lists v = lists v ++ edges.flatMap (ends v) := by
  induction edges generalizing lists with
  | nil => exact (append_nil _).symm
  | cons edge edges ih =>
    rw [foldl_cons, ih, addEdge_apply, flatMap_cons, append_assoc]

theorem ofEdges_apply (edges : List (V × V)) (v : V) :
    ofEdges edges v = edges.flatMap (ends v) := foldl_addEdge edges _ v

theorem mem_ends {v u : V} {edge : V × V} : u ∈ ends v edge ↔ edge = (v, u) ∨ edge = (u, v) := by
  obtain ⟨a, b⟩ := edge
  unfold ends
  grind

theorem mem_ofEdges {edges : List (V × V)} {v u : V} :
    u ∈ ofEdges edges v ↔ (v, u) ∈ edges ∨ (u, v) ∈ edges := by
  rw [ofEdges_apply, mem_flatMap]
  constructor
  · rintro ⟨edge, hmem, hends⟩
    rcases mem_ends.mp hends with rfl | rfl
    · exact .inl hmem
    · exact .inr hmem
  · rintro (h | h)
    · exact ⟨_, h, mem_ends.mpr (.inl rfl)⟩
    · exact ⟨_, h, mem_ends.mpr (.inr rfl)⟩

theorem sum_length_ofEdges [Fintype V] (edges : List (V × V)) :
    ∑ v, (ofEdges edges v).length = 2 * edges.length := by
  simp only [ofEdges_apply]
  induction edges with
  | nil => simp
  | cons edge edges ih =>
    have hends : ∑ v, (ends v edge).length = 2 := by
      simp only [ends, length_append, apply_ite length, length_singleton,
        length_nil, Finset.sum_add_distrib, Finset.sum_ite_eq', Finset.mem_univ, if_true]
    simp only [flatMap_cons, length_append, Finset.sum_add_distrib, ih, hends, length_cons]
    omega

end LinuxWorkouts.AdjacencyLists
