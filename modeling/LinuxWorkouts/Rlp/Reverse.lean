import LinuxWorkouts.Lib.StdString

/-!
`hex_reverse` of `c++/RTL.cpp`.

Two positions run towards each other and exchange a byte, which is two characters, in every round:
`l` is the second character of the left byte and `r` that of the right one. A position is written
only inside the string, and every position that a round reads it writes as well, so that a result
`ok` says that all of them were valid. For the empty string `r` starts at `SIZE_MAX`.
-/

namespace LinuxWorkouts.Rlp

open StdString

/-- The assignment to `hexstr[i]`. -/
def setChar (hexstr : List UInt8) (i : Nat) (c : UInt8) : Except Fault (List UInt8) :=
  if i < hexstr.length then .ok (hexstr.set i c) else .error .badIndex

/-- One round of the loop. -/
def swapBytes (hexstr : List UInt8) (l r : Nat) : Except Fault (List UInt8) := do
  let temp1 ← charAt hexstr (l - 1)
  let temp2 ← charAt hexstr l
  let hexstr ← setChar hexstr (l - 1) (← charAt hexstr (r - 1))
  let hexstr ← setChar hexstr l (← charAt hexstr r)
  let hexstr ← setChar hexstr (r - 1) temp1
  setChar hexstr r temp2

def hexReverseLoop (hexstr : List UInt8) (l r : Nat) : Except Fault (List UInt8) :=
  if l < r then
    match swapBytes hexstr l r with
    | .error fault => .error fault
    | .ok hexstr => hexReverseLoop hexstr (l + 2) (r - 2)
  else .ok hexstr
termination_by r - l

def hexReverse (hexstr : List UInt8) : Except Fault (List UInt8) :=
  hexReverseLoop hexstr 1 (sizeSub hexstr.length 1)

def hexBytes : List UInt8 → List (List UInt8)
  | c :: d :: hexstr => [c, d] :: hexBytes hexstr
  | [c] => [[c]]
  | [] => []

/-! ### The bytes of a string -/

theorem flatten_hexBytes (hexstr : List UInt8) : (hexBytes hexstr).flatten = hexstr := by
  fun_induction hexBytes hexstr with
  | case1 c d hexstr ih => rw [List.flatten_cons, ih]; rfl
  | case2 c => rfl
  | case3 => rfl

def Pairs (bytes : List (List UInt8)) : Prop := ∀ byte ∈ bytes, byte.length = 2

theorem pairs_hexBytes {hexstr : List UInt8} (heven : Even hexstr.length) :
    Pairs (hexBytes hexstr) := by
  fun_induction hexBytes hexstr with
  | case1 c d hexstr ih =>
    have htail : Even hexstr.length := (Nat.even_add (n := 2)).mp heven |>.mpr even_two
    exact List.forall_mem_cons.mpr ⟨rfl, ih htail⟩
  | case2 c => exact absurd heven Nat.not_even_one
  | case3 => exact List.forall_mem_nil _

variable {bytes : List (List UInt8)}

theorem hexBytes_flatten (hpairs : Pairs bytes) : hexBytes bytes.flatten = bytes := by
  induction bytes with
  | nil => rfl
  | cons byte bytes ih =>
    obtain ⟨hbyte, hbytes⟩ := List.forall_mem_cons.mp hpairs
    obtain ⟨c, d, rfl⟩ := List.length_eq_two.mp hbyte
    rw [List.flatten_cons, List.cons_append, List.cons_append, List.nil_append, hexBytes, ih hbytes]

theorem Pairs.length_flatten (hpairs : Pairs bytes) : bytes.flatten.length = 2 * bytes.length := by
  rw [List.length_flatten, List.map_congr_left hpairs, List.map_const', List.sum_replicate,
    smul_eq_mul, Nat.mul_comm]

theorem Pairs.reverse (hpairs : Pairs bytes) : Pairs bytes.reverse :=
  fun byte hbyte => hpairs byte (List.mem_reverse.mp hbyte)

/-! ### One round -/

section Positions

variable (c d : UInt8) (hexstr : List UInt8) (i : Nat)

theorem charAt_zero : charAt (c :: hexstr) 0 = .ok c := rfl

theorem charAt_succ : charAt (c :: hexstr) (i + 1) = charAt hexstr i := by
  simp [charAt]

theorem charAt_append (front : List UInt8) :
    charAt (front ++ hexstr) (front.length + i) = charAt hexstr i := by
  rw [charAt, charAt, List.getElem?_append_right (Nat.le_add_right _ _), Nat.add_sub_cancel_left,
    List.length_append]
  simp only [Nat.add_left_cancel_iff]

theorem charAt_length (front : List UInt8) : charAt (front ++ c :: hexstr) front.length = .ok c :=
  charAt_append (c :: hexstr) 0 front

theorem setChar_zero : setChar (c :: hexstr) 0 d = .ok (d :: hexstr) := rfl

theorem setChar_succ : setChar (c :: hexstr) (i + 1) d = (setChar hexstr i d).map (c :: ·) := by
  simp only [setChar, List.length_cons, Nat.add_lt_add_iff_right, List.set_cons_succ]
  split <;> rfl

theorem setChar_append (front : List UInt8) :
    setChar (front ++ hexstr) (front.length + i) d = (setChar hexstr i d).map (front ++ ·) := by
  simp only [setChar, List.length_append, Nat.add_lt_add_iff_left,
    List.set_append_right _ _ (Nat.le_add_right _ _), Nat.add_sub_cancel_left]
  split <;> rfl

theorem setChar_length (front : List UInt8) :
    setChar (front ++ c :: hexstr) front.length d = .ok (front ++ d :: hexstr) :=
  setChar_append d (c :: hexstr) 0 front

end Positions

theorem swapBytes_eq (front middle back : List UInt8) (a b c d : UInt8) :
    swapBytes (front ++ a :: b :: (middle ++ c :: d :: back)) (front.length + 1)
        (front.length + (middle.length + 3)) =
      .ok (front ++ c :: d :: (middle ++ a :: b :: back)) := by
  have hr : front.length + (middle.length + 3) = front.length + (middle.length + 1 + 1 + 1) := rfl
  have hr' : front.length + (middle.length + 1 + 1 + 1) - 1 =
      front.length + (middle.length + 1 + 1) := rfl
  rw [swapBytes, hr, hr', Nat.add_sub_cancel]
  -- behind `front` the second position, behind `middle` the third and the fourth
  simp only [charAt_append, setChar_append, charAt_length, setChar_length, charAt_zero,
    setChar_zero, charAt_succ, setChar_succ, bind, Except.bind, Except.map]

/-! ### The loop -/

theorem hexReverseLoop_eq (hpairs : Pairs bytes) (front back : List UInt8) {r : Nat}
    (hr : r + 1 = front.length + 2 * bytes.length) :
    hexReverseLoop (front ++ (bytes.flatten ++ back)) (front.length + 1) r =
      .ok (front ++ (bytes.reverse.flatten ++ back)) := by
  induction bytes using List.bidirectionalRec generalizing front back r with
  | nil =>
    rw [hexReverseLoop, if_neg (by simp at hr; omega)]
    rfl
  | singleton byte =>
    rw [hexReverseLoop, if_neg (by simp at hr; omega)]
    rfl
  | cons_append left bytes right ih =>
    obtain ⟨hleft, hrest⟩ := List.forall_mem_cons.mp hpairs
    obtain ⟨hbytes, hright⟩ := List.forall_mem_append.mp hrest
    obtain ⟨a, b, rfl⟩ := List.length_eq_two.mp hleft
    obtain ⟨c, d, rfl⟩ := List.length_eq_two.mp (hright right (List.mem_singleton_self right))
    have hlength := Pairs.length_flatten hbytes
    have hsize : ([a, b] :: (bytes ++ [[c, d]])).length = bytes.length + 2 := by simp
    have hr' : r = front.length + (bytes.flatten.length + 3) := by omega
    have hin : front ++ (([a, b] :: (bytes ++ [[c, d]])).flatten ++ back) =
        front ++ a :: b :: (bytes.flatten ++ c :: d :: back) := by simp
    have hmid : front ++ c :: d :: (bytes.flatten ++ a :: b :: back) =
        (front ++ [c, d]) ++ (bytes.flatten ++ a :: b :: back) := by simp
    have hout : front ++ (([a, b] :: (bytes ++ [[c, d]])).reverse.flatten ++ back) =
        (front ++ [c, d]) ++ (bytes.reverse.flatten ++ a :: b :: back) := by simp
    have hnext := ih hbytes (front ++ [c, d]) (a :: b :: back) (r := r - 2) (by simp; omega)
    rw [List.length_append, List.length_cons, List.length_singleton] at hnext
    rw [hin, hexReverseLoop, if_pos (by omega), hr', swapBytes_eq, ← hr', hmid, hout]
    exact hnext

theorem hexReverse_eq {hexstr : List UInt8} (hne : hexstr ≠ []) (heven : Even hexstr.length) :
    hexReverse hexstr = .ok (hexBytes hexstr).reverse.flatten := by
  have hpairs := pairs_hexBytes heven
  have hlength : hexstr.length = 2 * (hexBytes hexstr).length := by
    rw [← hpairs.length_flatten, flatten_hexBytes]
  have hpos : 1 ≤ hexstr.length := List.length_pos_iff.mpr hne
  have hr : sizeSub hexstr.length 1 + 1 =
      ([] : List UInt8).length + 2 * (hexBytes hexstr).length := by
    rw [sizeSub, if_pos hpos, List.length_nil]
    omega
  have hloop := hexReverseLoop_eq hpairs [] [] hr
  rw [List.nil_append, List.nil_append, List.append_nil, List.append_nil, flatten_hexBytes] at hloop
  exact hloop

/-- The bytes of a string of even length in the reverse order, at positions inside the string; twice
the same is the string itself. -/
theorem hexReverse_reverses_bytes (hexstr : List UInt8) (hne : hexstr ≠ [])
    (heven : Even hexstr.length) :
    hexReverse hexstr = .ok (hexBytes hexstr).reverse.flatten ∧
      (hexReverse hexstr).bind hexReverse = .ok hexstr := by
  have hpairs := pairs_hexBytes heven
  have hreverse : (hexBytes hexstr).reverse.flatten ≠ [] := by
    intro h
    apply hne
    rw [← flatten_hexBytes hexstr, ← List.length_eq_zero_iff, hpairs.length_flatten,
      ← List.length_reverse, ← hpairs.reverse.length_flatten, h]
    rfl
  refine ⟨hexReverse_eq hne heven, ?_⟩
  rw [hexReverse_eq hne heven, Except.bind, hexReverse_eq hreverse, hexBytes_flatten hpairs.reverse,
    List.reverse_reverse, flatten_hexBytes]
  rw [hpairs.reverse.length_flatten]
  exact even_two_mul _

theorem hexReverse_reverses_short :
    hexReverse [49, 50, 51, 52, 53, 54] = .ok [53, 54, 51, 52, 49, 50] ∧
      (hexReverse [49, 50, 51, 52, 53, 54]).bind hexReverse = .ok [49, 50, 51, 52, 53, 54] :=
  hexReverse_reverses_bytes [49, 50, 51, 52, 53, 54] (List.cons_ne_nil _ _) (by decide)

end LinuxWorkouts.Rlp
