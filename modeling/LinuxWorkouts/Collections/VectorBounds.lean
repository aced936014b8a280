import LinuxWorkouts.Collections.Vector

/-!
Where `add` of `vector.c` copies to, with the `realloc` of glibc.

`add` trusts things it does not test: that the loop around `resize` ended with a larger block, that
the growth factor makes a capacity larger, and that products of sizes fit a `size_t`. So it copies
behind the block when all attempts to `realloc` fail and when the product of `vector_init` wrapped
around, and it never says that the attempts failed. A capacity or an element size of zero makes it
ask for no bytes, and then the block is freed once per attempt. `adds_safe_iff` says from which
vectors on the calls of `add` are safe.
-/

namespace LinuxWorkouts.Collections

open Transition Option

variable {n : Nat} {p : Platform}

/-- The copy of an `add` stays inside the block, and an `add` that needed a larger block and got
none returns an error with the vector as it was. -/
def AddSafe (p : Platform) (s : VectorState) : VectorOp n → Prop
  | .add (some el) outcomes =>
    ∃ inst code, add p s.inst (some el) outcomes = some (inst, code) ∧
      (isFull s.inst = true → (∀ attempt ≤ reallocTries, outcomes attempt = none) →
        code ≠ .noErr ∧ inst.size = s.inst.size ∧ inst.capacity = s.inst.capacity ∧
          inst.data = s.inst.data)
  | _ => True

/-! ### One call -/

section Calls

variable {s : VectorState} {el : Element n} {outcomes : Nat → Realloc}

theorem code_eq_of_add {inst inst' : Vector} {code : ErrorCode}
    (h : add p inst (some el) outcomes = some (inst', code)) : code = .noErr := by
  obtain ⟨room, -, hcopy⟩ := bind_eq_some_iff.mp h
  obtain ⟨data, -, heq⟩ := map_eq_some_iff.mp hcopy
  exact (congrArg Prod.snd heq).symm

theorem not_addSafe_of_none (hfull : isFull s.inst = true)
    (hnone : ∀ attempt ≤ reallocTries, outcomes attempt = none) :
    ¬ AddSafe p s (.add (some el) outcomes) := by
  rintro ⟨inst, code, hadd, hunchanged⟩
  exact (hunchanged hfull hnone).1 (code_eq_of_add hadd)

theorem not_addSafe_of_add_eq_none (h : add p s.inst (some el) outcomes = none) :
    ¬ AddSafe p s (.add (some el) outcomes) := by
  rintro ⟨inst, code, hadd, -⟩
  rw [h] at hadd
  cases hadd

theorem makeRoom_of_zero {inst : Vector} (hfull : isFull inst = true) (hfrees : p.zeroFrees = true)
    (hzero : sizeT (grownCapacity p.round inst.capacity * n) = 0) :
    makeRoom p inst n outcomes = none := by
  have hresize : resize p { inst with reallocProcess := true } n (outcomes 0) = none := by
    rw [resize.eq_def]
    by_cases hlarge : 2 ^ 64 ≤ grownCapacity p.round inst.capacity
    · exact if_pos hlarge
    · exact (if_neg hlarge).trans (if_pos ⟨hzero, hfrees⟩)
  rw [makeRoom, if_pos hfull, reallocTries, resizeLoop, hresize, bind_none, map_none]

theorem not_addSafe_of_zero (hfull : isFull s.inst = true) (hfrees : p.zeroFrees = true)
    (hzero : sizeT (grownCapacity p.round s.inst.capacity * n) = 0) :
    ¬ AddSafe p s (.add (some el) outcomes) := by
  refine not_addSafe_of_add_eq_none ?_
  rw [add, makeRoom_of_zero hfull hfrees hzero, bind_none]

theorem Represents.addSafe {xs : List (Element n)} {op : VectorOp n} (h : Represents s.inst xs)
    (hn : p.zeroFrees = true → n ≠ 0) (hgrow : CanGrow p s op) : AddSafe p s op := by
  cases op with
  | set _ _ => trivial
  | get _ => trivial
  | top => trivial
  | pop => trivial
  | add el outcomes =>
    cases el with
    | none => trivial
    | some el =>
      obtain ⟨inst, hadd, -⟩ := h.add el hn hgrow
      refine ⟨inst, .noErr, hadd, fun hfull hnone => ?_⟩
      obtain ⟨⟨attempt, hle, hsome⟩, -⟩ := hgrow hfull
      simp [hnone attempt hle] at hsome

/-! ### A block that is too short -/

theorem add_of_not_full (hfree : s.inst.size < s.inst.capacity) :
    add p s.inst (some el) outcomes =
      (ByteBlock.write s.inst.data (sizeT (s.inst.size * n)) el.toList).map fun data =>
        ({ s.inst with data, size := sizeT (s.inst.size + 1) }, .noErr) := by
  have hfull : ¬ isFull s.inst = true := by simpa [isFull] using hfree
  rw [add, makeRoom, if_neg hfull, bind_some]

theorem exists_unsafe_of_short (op : VectorOp n) (hop : op = .add (some el) outcomes) {slots : Nat}
    (k : Nat) (hsize : s.inst.size + k = slots) (hslots : slots < s.inst.capacity)
    (hfits : slots * n ≤ s.inst.data.length) (hshort : s.inst.data.length < slots * n + n)
    (hbytes : s.inst.data.length < 2 ^ 64) (hcounted : slots < 2 ^ 64) :
    Along (vectorStep p) (CanGrow p) s (List.replicate (k + 1) op) ∧
      ¬ Along (vectorStep p) (AddSafe p) s (List.replicate (k + 1) op) := by
  subst hop
  have hlen : el.toList.length = n := el.toList_length
  induction k generalizing s with
  | zero =>
    obtain rfl : s.inst.size = slots := hsize
    have hoffset : sizeT (s.inst.size * n) = s.inst.size * n := sizeT_of_lt (by omega)
    have hnone : add p s.inst (some el) outcomes = none := by
      rw [add_of_not_full hslots, hoffset, ByteBlock.write, if_neg (by omega), map_none]
    refine ⟨⟨fun hfull => ?_, fun s' hs' => trivial⟩, fun hsafe => ?_⟩
    · simp [isFull] at hfull
      omega
    · exact not_addSafe_of_add_eq_none hnone hsafe.1
  | succ k ih =>
    have hnext : (s.inst.size + 1) * n ≤ slots * n := Nat.mul_le_mul_right n (by omega)
    have hslot : s.inst.size * n + n ≤ s.inst.data.length := by
      rw [← Nat.succ_mul]
      exact hnext.trans hfits
    have hadd : ∃ data, data.length = s.inst.data.length ∧ add p s.inst (some el) outcomes =
        some ({ s.inst with data, size := s.inst.size + 1 }, .noErr) := by
      obtain ⟨data, hwrite⟩ : ∃ data,
          ByteBlock.write s.inst.data (s.inst.size * n) el.toList = some data :=
        ⟨_, ByteBlock.write_of_le (by omega)⟩
      have hoffset : sizeT (s.inst.size * n) = s.inst.size * n := sizeT_of_lt (by omega)
      have hcount : sizeT (s.inst.size + 1) = s.inst.size + 1 := sizeT_of_lt (by omega)
      refine ⟨data, ByteBlock.length_write hwrite, ?_⟩
      rw [add_of_not_full (by omega), hoffset, hwrite, map_some, hcount]
    obtain ⟨data, hdata, hadd⟩ := hadd
    have hstep : vectorStep p s (.add (some el) outcomes) = some
        ⟨{ s.inst with data, size := s.inst.size + 1 }, s.replies ++ [⟨.noErr, none⟩]⟩ := by
      rw [vectorStep, hadd, map_some]
    obtain ⟨hgrow, hunsafe⟩ := ih (s := ⟨{ s.inst with data, size := s.inst.size + 1 },
      s.replies ++ [⟨.noErr, none⟩]⟩) (by simp only; omega) hslots
      (by simpa only [hdata] using hfits) (by simpa only [hdata] using hshort)
      (by simpa only [hdata] using hbytes)
    refine ⟨⟨fun hfull => ?_, fun s' hs' => ?_⟩, fun hsafe => ?_⟩
    · simp [isFull] at hfull
      omega
    · rw [hstep] at hs'
      obtain rfl := Option.some.inj hs'
      exact hgrow
    · exact hunsafe (hsafe.2 _ hstep)

end Calls

/-! ### Whole runs -/

/-- **Where the copies of a run go.** For elements that are not empty: all calls of `add` in every
run that gets the memory it needs are safe, from a vector of `vector_init` on, exactly if the
capacity is not zero and its bytes fit a `size_t`. In every state, an `add` to a full vector is
not safe if all attempts to `realloc` fail or the elements are empty. -/
theorem adds_safe_iff (n capacity : Nat) {instOk dataOk : Bool} {inst : Vector}
    (hinit : vectorInit capacity n instOk dataOk = .ok inst) :
    (0 < n → ((∀ ops : List (VectorOp n),
        Along (vectorStep .glibc) (CanGrow .glibc) ⟨inst, []⟩ ops →
          Along (vectorStep .glibc) (AddSafe .glibc) ⟨inst, []⟩ ops) ↔
        1 ≤ capacity ∧ capacity * n < 2 ^ 64)) ∧
      ∀ (s : VectorState) (el : Element n) (outcomes : Nat → Realloc), isFull s.inst = true →
        (n = 0 ∨ ∀ attempt ≤ reallocTries, outcomes attempt = none) →
        ¬ AddSafe .glibc s (.add (some el) outcomes) := by
  refine ⟨fun hn => ⟨fun hall => ?_, fun ⟨hpos, hbytes⟩ ops hgrow => ?_⟩, ?_⟩
  · have hinst := vectorInit_eq_ok hinit
    -- Every attempt to get memory succeeds.
    let el : Element n := List.Vector.replicate n 0
    let outcomes : Nat → Realloc := fun _ => some fun _ => 0
    by_contra hnot
    rcases Nat.eq_zero_or_pos capacity with rfl | hpos
    · subst hinst
      have hzero : grownCapacity Platform.glibc.round 0 = 0 := by decide +kernel
      have hsafe := (hall [.add (some el) outcomes]
        ⟨fun _ => ⟨⟨0, Nat.zero_le _, rfl⟩, ?_⟩, fun _ _ => trivial⟩).1
      · refine not_addSafe_of_zero rfl rfl ?_ hsafe
        simp only [hzero, Nat.zero_mul]
        rfl
      · simp only [hzero, Nat.zero_mul]
        decide
    · have hwraps : 2 ^ 64 ≤ capacity * n := not_lt.mp fun hbytes => hnot ⟨hpos, hbytes⟩
      have hlength : inst.data.length = capacity * n % 2 ^ 64 := by
        rw [hinst, List.length_replicate, sizeT]
      have hlt : inst.data.length < 2 ^ 64 := hlength ▸ Nat.mod_lt _ (by decide)
      have hslots : inst.data.length / n < capacity :=
        Nat.div_lt_of_lt_mul (by rw [Nat.mul_comm]; omega)
      have hsize : inst.size = 0 := by rw [hinst]
      have hcapacity : inst.capacity = capacity := by rw [hinst]
      obtain ⟨hgrow, hunsafe⟩ := exists_unsafe_of_short (p := .glibc) (s := ⟨inst, []⟩)
        (.add (some el) outcomes) rfl (inst.data.length / n) (by simp [hsize])
        (hslots.trans_eq hcapacity.symm) (Nat.div_mul_le_self _ _) (Nat.lt_div_mul_add hn) hlt
        ((Nat.div_le_self _ _).trans_lt hlt)
      exact hunsafe (hall _ hgrow)
  · have hcap : capacity < 2 ^ 64 := lt_of_le_of_lt (Nat.le_mul_of_pos_right capacity hn) hbytes
    refine hgrow.imp (I := fun s => ∃ t : ListState n, Refines s t)
      (fun s op ⟨t, ht⟩ hg => ht.1.addSafe (fun _ => hn.ne') hg) ?_
      ⟨_, refines_init hpos hcap hbytes hinit⟩
    rintro s op s' ⟨t, ht⟩ hg hstep
    obtain ⟨s'', hstep', ht'⟩ := ht.step (fun _ => hn.ne') hg
    obtain rfl : s'' = s' := Option.some.inj (hstep'.symm.trans hstep)
    exact ⟨_, ht'⟩
  · rintro s el outcomes hfull (rfl | hnone)
    · exact not_addSafe_of_zero hfull rfl rfl
    · exact not_addSafe_of_none hfull hnone

/-- The second `add` that is kept grows the vector, at the third attempt. -/
def growingCalls : List (VectorOp 1) :=
  let element (byte : UInt8) : Element 1 := List.Vector.replicate 1 byte
  [.add (some (element 7)) fun _ => none, .pop, .add (some (element 8)) fun _ => none,
    .add (some (element 9)) fun attempt => if attempt < 2 then none else some fun _ => 0]

theorem adds_safe_growing :
    Along (vectorStep .glibc) (AddSafe .glibc) ⟨⟨[0], 0, 1, false⟩, []⟩ growingCalls := by
  have hinit : vectorInit 1 1 true true = .ok ⟨[0], 0, 1, false⟩ := rfl
  exact ((adds_safe_iff 1 1 hinit).1 (by decide)).mpr (by decide) growingCalls (by decide +kernel)

/-- A full vector of capacity one whose `realloc` never succeeds keeps its block, and the copy goes
behind it. A vector of capacity zero asks for no bytes and loses its block before the copy. For
`2 ^ 63` two-byte elements `vector_init` allocates no byte. -/
theorem add_leaves_block :
    (vectorInit 1 1 true true = .ok ⟨[0], 0, 1, false⟩ ∧
      run (vectorStep .glibc) ⟨⟨[0], 0, 1, false⟩, []⟩
        [VectorOp.add (some ⟨[7], rfl⟩) fun _ => none] =
          some ⟨⟨[7], 1, 1, false⟩, [⟨.noErr, none⟩]⟩ ∧
      makeRoom .glibc ⟨[7], 1, 1, false⟩ 1 (fun _ => none) = some ⟨[7], 1, 1, false⟩ ∧
      add .glibc ⟨[7], 1, 1, false⟩ (some ⟨[8], rfl⟩ : Option (Element 1)) (fun _ => none) = none) ∧
    (vectorInit 0 1 true true = .ok ⟨[], 0, 0, false⟩ ∧
      makeRoom .glibc ⟨[], 0, 0, false⟩ 1 (fun _ => some fun _ => 0) = none) ∧
    vectorInit (2 ^ 63) 2 true true = .ok ⟨[], 0, 2 ^ 63, false⟩ ∧
      add .glibc ⟨[], 0, 2 ^ 63, false⟩ (some ⟨[1, 2], rfl⟩ : Option (Element 2)) (fun _ => none) =
        none :=
  ⟨⟨rfl, rfl, by decide +kernel, by decide +kernel⟩, ⟨rfl, by decide +kernel⟩, rfl,
    by decide +kernel⟩

end LinuxWorkouts.Collections
