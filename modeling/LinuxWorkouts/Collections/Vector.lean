import LinuxWorkouts.Lib.ByteBlock
import LinuxWorkouts.Lib.Rounding
import LinuxWorkouts.Lib.Transition

/-!
The growable byte vector of `utils/collections/vector/vector.c`.

A vector keeps its elements in one flat block and addresses them by `index * el_type_size`. It
does not know the size of its elements: every call passes it. The model keeps the block as the
list of its bytes, so its length is what was allocated, and an access outside it has no result.
Products and sums of `size_t` values are taken modulo `2 ^ 64`. How the attempts to `realloc` end is
an input of `add`. What else depends on the machine is a `Platform`: how a `double` is rounded, and
what `realloc` does when it is asked for no bytes. `Platform.glibc` is the real one; on
`Platform.exact` the growth factor is read over the rationals.

The second half compares whole runs with a plain list of elements. `Represents` is the relation,
one lemma per operation keeps it, and `vector_refines_list` follows by the refinement rule.
-/

namespace LinuxWorkouts.Collections

open Transition List Option

/-! ### The code -/

/-- The error codes of `vector.h` that the single-threaded functions return. -/
inductive ErrorCode
  | noErr
  | allocErr
  | reallocErr
  | nullPtrErr
  | outOfBoundErr
  | zeroSizeVector
  deriving DecidableEq, Repr

/-- `struct vector` without its lock fields. -/
structure Vector where
  data : List UInt8
  size : Nat
  capacity : Nat
  reallocProcess : Bool
  deriving DecidableEq, Repr

/-- The bytes of one element. -/
abbrev Element (n : Nat) := List.Vector UInt8 n

/-- How an attempt to `realloc` ends: `NULL`, or a block with these bytes behind the old ones. -/
abbrev Realloc := Option (Nat → UInt8)

def sizeT (n : Nat) : Nat := n % 2 ^ 64

def reallocCoefficient (round : ℚ → ℚ) (x : Nat) : ℚ :=
  round (round (1024 / round (round x + 128)) + 1)

/-- `REALLOC_TRIES` -/
def reallocTries : Nat := 10

def grownCapacity (round : ℚ → ℚ) (capacity : Nat) : Nat :=
  (round (round capacity * reallocCoefficient round capacity)).floor.toNat

/-- What the code leaves to the machine and the C library. -/
structure Platform where
  round : ℚ → ℚ
  /-- `realloc` to no bytes frees the block and returns `NULL`. -/
  zeroFrees : Bool
  /-- The capacities below it are made larger. -/
  limit : Nat
  grows : ∀ capacity, 1 ≤ capacity → capacity < limit → capacity < grownCapacity round capacity

/-- `vector_init`; the flags say whether the two calls to `malloc` succeed. -/
def vectorInit (capacity dataTypeSize : Nat) (instOk dataOk : Bool) : Except ErrorCode Vector :=
  let allocatedBytes := sizeT (capacity * dataTypeSize)
  if !instOk then .error .allocErr
  else if !dataOk then .error .allocErr
  else .ok
    { data := replicate allocatedBytes 0
      size := 0
      capacity := capacity
      reallocProcess := false }

def isFull (inst : Vector) : Bool := inst.size ≥ inst.capacity

def isOutRange (inst : Vector) (index : Nat) : Bool := inst.size ≤ index

section

variable (p : Platform)

/-- `none` where `new_capacity` does not fit a `size_t`, and where the block is freed: `data` still
points to it then, and the loop of `add` goes on with a second `realloc` of it. -/
def resize (inst : Vector) (typeSize : Nat) (outcome : Realloc) : Option (Vector × ErrorCode) :=
  let newCapacity := grownCapacity p.round inst.capacity
  if 2 ^ 64 ≤ newCapacity then none
  else if sizeT (newCapacity * typeSize) = 0 ∧ p.zeroFrees then none
  else
    match outcome with
    | none => some (inst, .reallocErr)
    | some fill =>
      some ({ inst with
        data := ByteBlock.grow inst.data (sizeT (newCapacity * typeSize)) fill
        capacity := newCapacity }, .noErr)

/-- The loop of `add` around `resize`. `left` is what `tries++ < REALLOC_TRIES` still allows, so a
loop entered with `left` makes at most `left + 1` attempts. -/
def resizeLoop (typeSize : Nat) (outcomes : Nat → Realloc) : Nat → Nat → Vector → Option Vector
  | 0, attempt, inst => (resize p inst typeSize (outcomes attempt)).map Prod.fst
  | left + 1, attempt, inst =>
    (resize p inst typeSize (outcomes attempt)).bind fun resized =>
      if resized.2 ≠ .noErr then resizeLoop typeSize outcomes left (attempt + 1) resized.1
      else some resized.1

/-- The part of `add` before the copy. It goes on with the old block when every attempt failed. -/
def makeRoom (inst : Vector) (typeSize : Nat) (outcomes : Nat → Realloc) : Option Vector :=
  if isFull inst then
    (resizeLoop p typeSize outcomes reallocTries 0 { inst with reallocProcess := true }).map
      fun inst => { inst with reallocProcess := false }
  else some inst

end

/-! In what follows `n` is `el_type_size`. -/

variable {n : Nat}

/-- `none` as an element is the `NULL` pointer; `none` as the result is a copy that leaves the
block, or a block that is gone. -/
def add (p : Platform) (inst : Vector) (el : Option (Element n)) (outcomes : Nat → Realloc) :
    Option (Vector × ErrorCode) :=
  match el with
  | none => some (inst, .nullPtrErr)
  | some el =>
    (makeRoom p inst n outcomes).bind fun inst =>
      (ByteBlock.write inst.data (sizeT (inst.size * n)) el.toList).map fun data =>
        ({ inst with data, size := sizeT (inst.size + 1) }, .noErr)

/-- What a call hands back: its code and, for the reading functions, the bytes put in `*value`. -/
structure Reply where
  code : ErrorCode
  value : Option (List UInt8)
  deriving DecidableEq, Repr

def get (n : Nat) (inst : Vector) (index : Nat) : Option Reply :=
  if inst.size = 0 then some ⟨.zeroSizeVector, none⟩
  else if isOutRange inst index then some ⟨.outOfBoundErr, none⟩
  else (ByteBlock.read inst.data (sizeT (index * n)) n).map fun value => ⟨.noErr, some value⟩

def set (inst : Vector) (index : Nat) (el : Option (Element n)) : Option (Vector × ErrorCode) :=
  match el with
  | none => some (inst, .nullPtrErr)
  | some el =>
    if isOutRange inst index then some (inst, .outOfBoundErr)
    else
      (ByteBlock.write inst.data (sizeT (index * n)) el.toList).map fun data =>
        ({ inst with data }, .noErr)

def top (n : Nat) (inst : Vector) : Option Reply :=
  if inst.size = 0 then some ⟨.zeroSizeVector, none⟩ else get n inst (inst.size - 1)

def pop (n : Nat) (inst : Vector) : Option (Vector × Reply) :=
  if inst.size = 0 then some (inst, ⟨.zeroSizeVector, none⟩)
  else
    (top n inst).map fun res =>
      (if res.code = .noErr then { inst with size := inst.size - 1 } else inst, res)

/-! ### Runs -/

/-- A vector in use, with the replies its callers have seen so far. -/
structure VectorState where
  inst : Vector
  replies : List Reply

/-- One call. An `add` comes with the outcome of each attempt to `realloc`. -/
inductive VectorOp (n : Nat)
  | add (el : Option (Element n)) (outcomes : Nat → Realloc)
  | set (index : Nat) (el : Option (Element n))
  | get (index : Nat)
  | top
  | pop

/-- A call on the vector; `none` when it accesses memory outside the block. -/
def vectorStep (p : Platform) (s : VectorState) : VectorOp n → Option VectorState
  | .add el outcomes =>
    (add p s.inst el outcomes).map fun r => ⟨r.1, s.replies ++ [⟨r.2, none⟩]⟩
  | .set index el => (set s.inst index el).map fun r => ⟨r.1, s.replies ++ [⟨r.2, none⟩]⟩
  | .get index => (get n s.inst index).map fun r => ⟨s.inst, s.replies ++ [r]⟩
  | .top => (top n s.inst).map fun r => ⟨s.inst, s.replies ++ [r]⟩
  | .pop => (pop n s.inst).map fun r => ⟨r.1, s.replies ++ [r.2]⟩

/-- An `add` that has to grow the block can do so: one of the attempts succeeds, the capacity is one
that is made larger, and neither the new one nor the number of its bytes wraps around. -/
def CanGrow (p : Platform) (s : VectorState) : VectorOp n → Prop
  | .add (some _) outcomes =>
    isFull s.inst = true →
      (∃ attempt ≤ reallocTries, (outcomes attempt).isSome) ∧ s.inst.capacity < p.limit ∧
        grownCapacity p.round s.inst.capacity < 2 ^ 64 ∧
        grownCapacity p.round s.inst.capacity * n < 2 ^ 64
  | _ => True

instance decidableCanGrow (p : Platform) (s : VectorState) (op : VectorOp n) :
    Decidable (CanGrow p s op) := by
  unfold CanGrow
  split <;> infer_instance

/-! ### The list it stands for -/

/-- A list of elements, with the replies seen so far. -/
structure ListState (n : Nat) where
  elements : List (Element n)
  replies : List Reply

/-- The reply with an element, or with the code that says there is none. -/
def replyWith (missing : ErrorCode) : Option (Element n) → Reply
  | some x => ⟨.noErr, some x.toList⟩
  | none => ⟨missing, none⟩

def listStep (s : ListState n) : VectorOp n → ListState n
  | .add none _ => ⟨s.elements, s.replies ++ [⟨.nullPtrErr, none⟩]⟩
  | .add (some el) _ => ⟨s.elements ++ [el], s.replies ++ [⟨.noErr, none⟩]⟩
  | .set _ none => ⟨s.elements, s.replies ++ [⟨.nullPtrErr, none⟩]⟩
  | .set index (some el) =>
    if index < s.elements.length then
      ⟨s.elements.set index el, s.replies ++ [⟨.noErr, none⟩]⟩
    else ⟨s.elements, s.replies ++ [⟨.outOfBoundErr, none⟩]⟩
  | .get index =>
    ⟨s.elements, s.replies ++ [replyWith
      (if s.elements = [] then .zeroSizeVector else .outOfBoundErr) s.elements[index]?]⟩
  | .top => ⟨s.elements, s.replies ++ [replyWith .zeroSizeVector s.elements.getLast?]⟩
  | .pop => ⟨s.elements.dropLast, s.replies ++ [replyWith .zeroSizeVector s.elements.getLast?]⟩

/-- The vector holds the elements: slot `i` of the block has the bytes of element `i`, and the
block is exactly as large as the capacity says. The slots behind the last element are free. -/
structure Represents (inst : Vector) (xs : List (Element n)) : Prop where
  size : inst.size = xs.length
  room : inst.size ≤ inst.capacity
  positive : 1 ≤ inst.capacity
  counted : inst.capacity < 2 ^ 64
  block : inst.data.length = inst.capacity * n
  addressable : inst.capacity * n < 2 ^ 64
  stored : ∀ i x, xs[i]? = some x → ByteBlock.read inst.data (i * n) n = some x.toList

/-! ### Growing -/

theorem sizeT_of_lt {m : Nat} (h : m < 2 ^ 64) : sizeT m = m := Nat.mod_eq_of_lt h

theorem vectorInit_eq_ok {capacity : Nat} {instOk dataOk : Bool} {inst : Vector}
    (h : vectorInit capacity n instOk dataOk = .ok inst) :
    inst = ⟨replicate (sizeT (capacity * n)) 0, 0, capacity, false⟩ := by
  unfold vectorInit at h
  split_ifs at h
  exact (Except.ok.inj h).symm

theorem grownCapacity_id (capacity : Nat) :
    grownCapacity id capacity = capacity + 1024 * capacity / (capacity + 128) := by
  have hq : (capacity : ℚ) * reallocCoefficient id capacity =
      (capacity : ℚ) + ((1024 * capacity : Nat) : ℚ) / ((capacity + 128 : Nat) : ℚ) := by
    simp only [reallocCoefficient, id]
    push_cast
    ring
  rw [grownCapacity, id, id, hq]
  change ⌊(capacity : ℚ) + ((1024 * capacity : Nat) : ℚ) / ((capacity + 128 : Nat) : ℚ)⌋.toNat = _
  rw [Int.floor_toNat, add_comm, Nat.floor_add_natCast (by positivity), Nat.floor_div_eq_div,
    add_comm]

theorem lt_grownCapacity_id {capacity : Nat} (h : 1 ≤ capacity) :
    capacity < grownCapacity id capacity := by
  rw [grownCapacity_id]
  have hdiv : 1 ≤ 1024 * capacity / (capacity + 128) := by
    rw [Nat.le_div_iff_mul_le (by omega)]
    omega
  omega

/-- The growth factor over the rationals, and a `realloc` that can be asked for no bytes. -/
def Platform.exact : Platform where
  round := id
  zeroFrees := false
  limit := 2 ^ 64
  grows _ hpos _ := lt_grownCapacity_id hpos

section Doubles

variable {round : ℚ → ℚ}

theorem factor_le_of_error {u x a b d : ℚ} (hu0 : 0 ≤ u) (hu1 : u ≤ 1 / 1024) (hx : 1 ≤ x)
    (ha : a ≤ x * (1 + u)) (hb0 : 0 < b) (hb : b ≤ (a + 128) * (1 + u))
    (hd : 1024 / b * (1 - u) ≤ d) : 1024 * (1 - 3 * u) / (x + 128) ≤ d := by
  refine le_trans ?_ hd
  have hbx : b ≤ (x + 128) * (1 + u) ^ 2 := by nlinarith
  rw [div_mul_eq_mul_div, div_le_div_iff₀ (by linarith) hb0]
  calc 1024 * (1 - 3 * u) * b ≤ 1024 * (1 - 3 * u) * ((x + 128) * (1 + u) ^ 2) := by
        gcongr
        linarith
    _ = 1024 * ((1 - 3 * u) * (1 + u) ^ 2) * (x + 128) := by ring
    _ ≤ 1024 * (1 - u) * (x + 128) := by
        gcongr
        nlinarith [mul_nonneg hu0 hu0, mul_nonneg (mul_nonneg hu0 hu0) hu0]

theorem succ_le_of_factor {u x d : ℚ} (hu0 : 0 ≤ u) (hu1 : u ≤ 1 / 1024) (hx : 1 ≤ x)
    (hux : u * x ≤ 128) (hd : 1024 * (1 - 3 * u) / (x + 128) ≤ d) :
    x + 1 ≤ x * (1 - u) ^ 3 * (1 + d) := by
  have hx0 : 0 < x + 128 := by linarith
  have hd0 : 0 ≤ 1024 * (1 - 3 * u) / (x + 128) := div_nonneg (by linarith) hx0.le
  have hcube : 1 - 3 * u ≤ (1 - u) ^ 3 := by nlinarith [mul_nonneg hu0 hu0]
  have hgain : 1 + 3 * (u * x) ≤ 1024 * x * (1 - 3 * u) ^ 2 / (x + 128) := by
    rw [le_div_iff₀ hx0]
    have hsquare : 1 - 6 * u ≤ (1 - 3 * u) ^ 2 := by nlinarith
    calc (1 + 3 * (u * x)) * (x + 128) ≤ 385 * x + 128 + 384 * (u * x) := by nlinarith
      _ ≤ 1024 * x * (1 - 6 * u) := by nlinarith
      _ ≤ 1024 * x * (1 - 3 * u) ^ 2 := by gcongr
  calc x + 1 ≤ x * (1 - 3 * u) + 1024 * x * (1 - 3 * u) ^ 2 / (x + 128) := by linarith
    _ = x * (1 - 3 * u) * (1 + 1024 * (1 - 3 * u) / (x + 128)) := by field_simp
    _ ≤ x * (1 - u) ^ 3 * (1 + d) := by
        have hx1 : 0 ≤ x := by linarith
        have hu3 : 0 ≤ 1 - 3 * u := by linarith
        refine mul_le_mul ?_ (by linarith) (by linarith) (by nlinarith)
        exact mul_le_mul_of_nonneg_left hcube hx1

theorem lt_grownCapacity_of_error (hround : ∀ x, |round x - x| ≤ |x| / 2 ^ 53) {capacity : Nat}
    (hpos : 1 ≤ capacity) (hlt : capacity < 2 ^ 60) : capacity < grownCapacity round capacity := by
  obtain ⟨u, hu⟩ : ∃ u : ℚ, u = 1 / 2 ^ 53 := ⟨_, rfl⟩
  have hu0 : 0 ≤ u := by rw [hu]; positivity
  have hu1 : u ≤ 1 / 1024 := by rw [hu]; norm_num
  have hv : 0 ≤ 1 - u := by linarith
  have hbounds : ∀ {x : ℚ}, 0 ≤ x → x * (1 - u) ≤ round x ∧ round x ≤ x * (1 + u) :=
    fun {x} hx => by
    have herror := abs_le.mp (hround x)
    rw [abs_of_nonneg hx] at herror
    rw [hu]
    constructor <;> linarith
  have hnonneg : ∀ {x : ℚ}, 0 ≤ x → 0 ≤ round x := fun hx => (mul_nonneg hx hv).trans (hbounds hx).1
  have hx : (1 : ℚ) ≤ capacity := by exact_mod_cast hpos
  have hux : u * capacity ≤ 128 := by
    have hc : (capacity : ℚ) ≤ 2 ^ 60 := by exact_mod_cast hlt.le
    calc u * capacity ≤ u * 2 ^ 60 := by gcongr
      _ = 128 := by rw [hu]; norm_num
  obtain ⟨ha, ha'⟩ := hbounds (capacity.cast_nonneg (α := ℚ))
  have ha0 := hnonneg (capacity.cast_nonneg (α := ℚ))
  have hb := hbounds (x := round capacity + 128) (by linarith)
  have hb0 : 0 < round (round capacity + 128) := lt_of_lt_of_le (by nlinarith) hb.1
  have hd := (hbounds (x := 1024 / round (round capacity + 128)) (by positivity)).1
  have hfactor := factor_le_of_error hu0 hu1 hx ha' hb0 hb.2 hd
  have hd0 := hnonneg (x := 1024 / round (round capacity + 128)) (by positivity)
  have he := (hbounds (x := round (1024 / round (round capacity + 128)) + 1) (by linarith)).1
  have hsucc : (capacity : ℚ) + 1 ≤ round (round capacity * reallocCoefficient round capacity) :=
    calc (capacity : ℚ) + 1
        ≤ capacity * (1 - u) ^ 3 * (1 + round (1024 / round (round capacity + 128))) :=
          succ_le_of_factor hu0 hu1 hx hux hfactor
      _ = capacity * (1 - u) * ((round (1024 / round (round capacity + 128)) + 1) * (1 - u)) *
            (1 - u) := by ring
      _ ≤ round capacity * reallocCoefficient round capacity * (1 - u) := by
          refine mul_le_mul_of_nonneg_right (mul_le_mul ha he ?_ ha0) hv
          exact mul_nonneg (by linarith) hv
      _ ≤ _ := (hbounds (mul_nonneg ha0 (hnonneg (by linarith)))).1
  have hfloor : ((capacity + 1 : Nat) : ℤ) ≤
      ⌊round (round capacity * reallocCoefficient round capacity)⌋ :=
    Int.le_floor.mpr (by exact_mod_cast hsucc)
  exact Int.toNat_le_toNat hfloor

end Doubles

def Platform.glibc : Platform where
  round := Rounding.roundTo 53
  zeroFrees := true
  limit := 2 ^ 60
  grows _ := lt_grownCapacity_of_error (Rounding.abs_roundTo_sub_le 53)

variable {p : Platform} {outcomes : Nat → Realloc} {i : Nat}

def Resizable (p : Platform) (n capacity : Nat) : Prop :=
  grownCapacity p.round capacity < 2 ^ 64 ∧
    ¬ (sizeT (grownCapacity p.round capacity * n) = 0 ∧ p.zeroFrees = true)

theorem Resizable.resize {inst : Vector} (h : Resizable p n inst.capacity) (outcome : Realloc) :
    resize p inst n outcome = some (match outcome with
      | none => (inst, .reallocErr)
      | some fill => ({ inst with
          data := ByteBlock.grow inst.data (sizeT (grownCapacity p.round inst.capacity * n)) fill
          capacity := grownCapacity p.round inst.capacity }, .noErr)) := by
  rw [resize.eq_def, if_neg (not_le.mpr h.1), if_neg h.2]
  cases outcome <;> rfl

theorem resizeLoop_of_some {left first attempt : Nat} (inst : Vector)
    (hresizable : Resizable p n inst.capacity) (hfirst : first ≤ attempt)
    (hlast : attempt ≤ first + left) (hsome : (outcomes attempt).isSome) :
    ∃ fill, resizeLoop p n outcomes left first inst = some { inst with
      data := ByteBlock.grow inst.data (sizeT (grownCapacity p.round inst.capacity * n)) fill
      capacity := grownCapacity p.round inst.capacity } := by
  induction left generalizing first with
  | zero =>
    obtain rfl : attempt = first := by omega
    obtain ⟨fill, hfill⟩ := isSome_iff_exists.mp hsome
    exact ⟨fill, by rw [resizeLoop, hresizable.resize, hfill, map_some]⟩
  | succ left ih =>
    rw [resizeLoop, hresizable.resize, bind_some]
    cases hout : outcomes first with
    | some fill => exact ⟨fill, if_neg (by simp)⟩
    | none =>
      -- a failed attempt leaves the vector as it was
      have hne : first ≠ attempt := by
        rintro rfl
        rw [hout] at hsome
        cases hsome
      have hnext : first + 1 ≤ attempt := by omega
      obtain ⟨fill, hfill⟩ := ih hnext (by omega)
      exact ⟨fill, by simpa using hfill⟩

theorem Represents.makeRoom {inst : Vector} {xs : List (Element n)} (h : Represents inst xs)
    (hn : p.zeroFrees = true → n ≠ 0)
    (hgrow : isFull inst = true → (∃ attempt ≤ reallocTries, (outcomes attempt).isSome) ∧
      inst.capacity < p.limit ∧ grownCapacity p.round inst.capacity < 2 ^ 64 ∧
      grownCapacity p.round inst.capacity * n < 2 ^ 64) :
    ∃ inst', makeRoom p inst n outcomes = some inst' ∧ Represents inst' xs ∧
      inst'.size < inst'.capacity := by
  unfold Collections.makeRoom
  split
  case isTrue hfull =>
    obtain ⟨⟨attempt, hattempt, hsome⟩, hlimit, hcap, hbytes⟩ := hgrow hfull
    have hlt := p.grows inst.capacity h.positive hlimit
    have hresizable : Resizable p n inst.capacity := by
      refine ⟨hcap, fun ⟨hzero, hfrees⟩ => ?_⟩
      rw [sizeT_of_lt hbytes] at hzero
      exact Nat.mul_ne_zero (by omega) (hn hfrees) hzero
    have hlast : attempt ≤ 0 + reallocTries := by omega
    obtain ⟨fill, hfill⟩ := resizeLoop_of_some { inst with reallocProcess := true } hresizable
      (Nat.zero_le attempt) hlast hsome
    have hroom := h.room
    have hfree : inst.size < grownCapacity p.round inst.capacity := by omega
    rw [hfill, sizeT_of_lt hbytes]
    refine ⟨_, rfl, ⟨h.size, hfree.le, Nat.one_le_of_lt hlt, hcap, ByteBlock.length_grow _ _ _,
      hbytes, ?_⟩, hfree⟩
    intro i x hx
    refine ByteBlock.read_grow ?_ (h.stored i x hx)
    rw [h.block]
    exact Nat.mul_le_mul_right n hlt.le
  case isFalse hfull =>
    refine ⟨inst, rfl, h, ?_⟩
    simpa [isFull] using hfull

/-! ### One call -/

theorem slots_apart {j : Nat} (h : j ≠ i) : j * n + n ≤ i * n ∨ i * n + n ≤ j * n := by
  rcases Nat.lt_or_gt_of_ne h with hlt | hgt
  · left
    calc j * n + n = (j + 1) * n := by ring
      _ ≤ i * n := Nat.mul_le_mul_right n hlt
  · right
    calc i * n + n = (i + 1) * n := by ring
      _ ≤ j * n := Nat.mul_le_mul_right n hgt

section Calls

variable {inst : Vector} {xs : List (Element n)} (h : Represents inst xs)

include h

theorem Represents.slot_le (hi : i < inst.capacity) : i * n + n ≤ inst.data.length := by
  rw [h.block]
  calc i * n + n = (i + 1) * n := by ring
    _ ≤ inst.capacity * n := Nat.mul_le_mul_right n hi

theorem Represents.offset (hi : i < inst.capacity) : sizeT (i * n) = i * n := by
  have hslot := h.slot_le hi
  have hblock := h.block
  have haddr := h.addressable
  exact sizeT_of_lt (by omega)

theorem Represents.write_slot (hi : i < inst.capacity) (el : Element n) :
    ∃ data, ByteBlock.write inst.data (sizeT (i * n)) el.toList = some data ∧
      data.length = inst.data.length ∧ ByteBlock.read data (i * n) n = some el.toList ∧
      ∀ j, j ≠ i → ByteBlock.read data (j * n) n = ByteBlock.read inst.data (j * n) n := by
  have hlen : el.toList.length = n := el.toList_length
  have hin : i * n + el.toList.length ≤ inst.data.length := by
    rw [hlen]
    exact h.slot_le hi
  obtain ⟨data, hwrite⟩ : ∃ data, ByteBlock.write inst.data (i * n) el.toList = some data :=
    ⟨_, ByteBlock.write_of_le hin⟩
  refine ⟨data, by rw [h.offset hi, hwrite], ByteBlock.length_write hwrite, ?_, ?_⟩
  · have hread := ByteBlock.read_write_same hwrite
    rwa [hlen] at hread
  · intro j hj
    refine ByteBlock.read_write_apart hwrite ?_
    rw [hlen]
    exact slots_apart hj

theorem Represents.add (el : Element n) (hn : p.zeroFrees = true → n ≠ 0)
    (hgrow : isFull inst = true → (∃ attempt ≤ reallocTries, (outcomes attempt).isSome) ∧
      inst.capacity < p.limit ∧ grownCapacity p.round inst.capacity < 2 ^ 64 ∧
      grownCapacity p.round inst.capacity * n < 2 ^ 64) :
    ∃ inst', Collections.add p inst (some el) outcomes = some (inst', .noErr) ∧
      Represents inst' (xs ++ [el]) := by
  obtain ⟨room, hroom, hr, hfree⟩ := h.makeRoom hn hgrow
  obtain ⟨data, hwrite, hlen, hsame, hother⟩ := hr.write_slot hfree el
  refine ⟨{ room with data, size := sizeT (room.size + 1) }, ?_, ?_⟩
  · simp only [Collections.add, hroom, bind_some, hwrite, map_some]
  have hcounted := hr.counted
  have hsize : sizeT (room.size + 1) = room.size + 1 := sizeT_of_lt (by omega)
  constructor
  · rw [hsize, hr.size, length_append, length_singleton]
  · rw [hsize]
    exact hfree
  · exact hr.positive
  · exact hr.counted
  · exact hlen.trans hr.block
  · exact hr.addressable
  · intro i x hx
    rw [getElem?_append] at hx
    split at hx
    case isTrue hi =>
      rw [hother i (by rw [hr.size]; omega)]
      exact hr.stored i x hx
    case isFalse hi =>
      obtain ⟨hi0, rfl⟩ : i - xs.length = 0 ∧ el = x := by
        cases hsub : i - xs.length with
        | zero => simpa [hsub] using hx
        | succ k => simp [hsub] at hx
      obtain rfl : i = room.size := by
        rw [hr.size]
        omega
      exact hsame

theorem Represents.set {index : Nat} (hi : index < xs.length) (el : Element n) :
    ∃ inst', Collections.set inst index (some el) = some (inst', .noErr) ∧
      Represents inst' (xs.set index el) := by
  have hrange : isOutRange inst index = false := by simpa [isOutRange, h.size] using hi
  have hcap : index < inst.capacity := by
    have hroom := h.room
    rw [h.size] at hroom
    omega
  obtain ⟨data, hwrite, hlen, hsame, hother⟩ := h.write_slot hcap el
  refine ⟨{ inst with data }, by simp only [Collections.set, hrange, hwrite]; rfl, ?_⟩
  constructor
  · simpa using h.size
  · exact h.room
  · exact h.positive
  · exact h.counted
  · exact hlen.trans h.block
  · exact h.addressable
  · intro i x hx
    by_cases hne : i = index
    · subst hne
      rw [getElem?_set_self hi] at hx
      cases hx
      exact hsame
    · rw [getElem?_set_ne (Ne.symm hne)] at hx
      rw [hother i hne]
      exact h.stored i x hx

theorem Represents.get (index : Nat) :
    Collections.get n inst index =
      some (replyWith (if xs = [] then .zeroSizeVector else .outOfBoundErr) xs[index]?) := by
  unfold Collections.get
  by_cases hnil : xs = []
  · subst hnil
    simp [h.size, replyWith]
  · have hpos : xs.length ≠ 0 := by simpa using hnil
    rw [if_neg (by rw [h.size]; exact hpos), if_neg hnil]
    by_cases hi : index < xs.length
    · have hrange : isOutRange inst index = false := by simpa [isOutRange, h.size] using hi
      have hroom := h.room
      rw [h.size] at hroom
      rw [hrange, h.offset (by omega), getElem?_eq_getElem hi,
        h.stored index _ (getElem?_eq_getElem hi)]
      rfl
    · have hrange : isOutRange inst index = true := by simpa [isOutRange, h.size] using hi
      rw [hrange, getElem?_eq_none (by omega)]
      rfl

theorem Represents.top : Collections.top n inst = some (replyWith .zeroSizeVector xs.getLast?) := by
  unfold Collections.top
  by_cases hnil : xs = []
  · subst hnil
    simp [h.size, replyWith]
  · have hpos : xs.length ≠ 0 := by simpa using hnil
    rw [if_neg (by rw [h.size]; exact hpos), h.get, h.size, ← getLast?_eq_getElem?,
      getLast?_eq_some_getLast hnil]
    rfl

theorem Represents.shrink : Represents { inst with size := inst.size - 1 } xs.dropLast := by
  have hroom := h.room
  constructor
  · simp [h.size]
  · exact (Nat.sub_le _ _).trans hroom
  · exact h.positive
  · exact h.counted
  · exact h.block
  · exact h.addressable
  · intro i x hx
    rw [getElem?_dropLast] at hx
    split at hx
    · exact h.stored i x hx
    · cases hx

theorem Represents.pop :
    ∃ inst', Collections.pop n inst =
      some (inst', replyWith .zeroSizeVector xs.getLast?) ∧ Represents inst' xs.dropLast := by
  unfold Collections.pop
  by_cases hnil : xs = []
  · subst hnil
    have hsize : inst.size = 0 := h.size
    refine ⟨inst, ?_, h⟩
    rw [if_pos hsize]
    rfl
  · have hpos : xs.length ≠ 0 := by simpa using hnil
    rw [if_neg (by rw [h.size]; exact hpos), h.top, getLast?_eq_some_getLast hnil]
    exact ⟨{ inst with size := inst.size - 1 }, rfl, h.shrink⟩

end Calls

/-! ### Whole runs -/

/-- The vector holds the list's elements and has given the list's replies. -/
def Refines (s : VectorState) (t : ListState n) : Prop :=
  Represents s.inst t.elements ∧ s.replies = t.replies

theorem Refines.step {s : VectorState} {t : ListState n} (h : Refines s t) {op : VectorOp n}
    (hn : p.zeroFrees = true → n ≠ 0) (hgrow : CanGrow p s op) :
    ∃ s', vectorStep p s op = some s' ∧ Refines s' (listStep t op) := by
  obtain ⟨hrep, hreplies⟩ := h
  cases op with
  | add el outcomes =>
    cases el with
    | none => exact ⟨_, rfl, hrep, by rw [hreplies, listStep]⟩
    | some el =>
      obtain ⟨inst', hadd, hrep'⟩ := hrep.add el hn hgrow
      rw [vectorStep, hadd, map_some]
      refine ⟨_, rfl, hrep', ?_⟩
      rw [hreplies, listStep]
  | set index el =>
    cases el with
    | none => exact ⟨_, rfl, hrep, by rw [hreplies, listStep]⟩
    | some el =>
      rw [listStep]
      split
      case isTrue hi =>
        obtain ⟨inst', hset, hrep'⟩ := hrep.set hi el
        rw [vectorStep, hset, map_some]
        refine ⟨_, rfl, hrep', ?_⟩
        rw [hreplies]
      case isFalse hi =>
        have hrange : isOutRange s.inst index = true := by
          simpa [isOutRange, hrep.size] using hi
        refine ⟨⟨s.inst, s.replies ++ [⟨.outOfBoundErr, none⟩]⟩, ?_, hrep, by rw [hreplies]⟩
        simp only [vectorStep, Collections.set, hrange]
        rfl
  | get index =>
    rw [vectorStep, hrep.get, map_some]
    refine ⟨_, rfl, hrep, ?_⟩
    rw [hreplies, listStep]
  | top =>
    rw [vectorStep, hrep.top, map_some]
    refine ⟨_, rfl, hrep, ?_⟩
    rw [hreplies, listStep]
  | pop =>
    obtain ⟨inst', hpop, hrep'⟩ := hrep.pop
    rw [vectorStep, hpop, map_some]
    refine ⟨_, rfl, hrep', ?_⟩
    rw [hreplies, listStep]

theorem refines_init {capacity : Nat} {instOk dataOk : Bool} {inst : Vector} (hpos : 1 ≤ capacity)
    (hcap : capacity < 2 ^ 64) (hbytes : capacity * n < 2 ^ 64)
    (hinit : vectorInit capacity n instOk dataOk = .ok inst) :
    Refines ⟨inst, []⟩ (⟨[], []⟩ : ListState n) := by
  rw [vectorInit_eq_ok hinit]
  refine ⟨⟨rfl, Nat.zero_le _, hpos, hcap, ?_, hbytes, ?_⟩, rfl⟩
  · rw [length_replicate, sizeT_of_lt hbytes]
  · intro i x hx
    simp at hx

/-- **The vector is a list.** From a vector of `vector_init`, every sequence of calls in which
`realloc` succeeds where it is needed and nothing wraps around stays inside the block, gets the
replies the list of the elements gives, and ends with that list in the block. In every state on the
way the size is at most the capacity and the block, which every copy stays in, has
`capacity * el_type_size` bytes. -/
theorem vector_refines_list (n capacity : Nat) (hpos : 1 ≤ capacity) (hcap : capacity < 2 ^ 64)
    (hbytes : capacity * n < 2 ^ 64) {instOk dataOk : Bool} {inst : Vector}
    (hinit : vectorInit capacity n instOk dataOk = .ok inst) (ops : List (VectorOp n))
    (hgrow : Along (vectorStep .exact) (CanGrow .exact) ⟨inst, []⟩ ops) :
    (∃ s, run (vectorStep .exact) ⟨inst, []⟩ ops = some s ∧
      s.replies = (ops.foldl listStep ⟨[], []⟩).replies ∧
      Represents s.inst (ops.foldl listStep ⟨[], []⟩).elements) ∧
    Always (vectorStep .exact)
      (fun s => s.inst.size ≤ s.inst.capacity ∧ s.inst.data.length = s.inst.capacity * n)
      ⟨inst, []⟩ ops := by
  have hempty := refines_init hpos hcap hbytes hinit
  have hstep : ∀ (s : VectorState) (t : ListState n) op, Refines s t → CanGrow .exact s op →
      ∃ s', vectorStep .exact s op = some s' ∧ Refines s' (listStep t op) :=
    fun s t op hrel hg => hrel.step (absurd · Bool.false_ne_true) hg
  constructor
  · obtain ⟨s, hrun, hrep, hreplies⟩ := run_refines hstep hempty hgrow
    exact ⟨s, hrun, hreplies, hrep⟩
  · refine always_of_along (I := fun s => ∃ t : ListState n, Refines s t) ?_ ?_ ⟨_, hempty⟩ hgrow
    · rintro s ⟨t, hrep, -⟩
      exact ⟨hrep.room, hrep.block⟩
    · rintro s op s' - ⟨t, hrel⟩ hg hs'
      obtain ⟨s'', hs'', hrel'⟩ := hstep s t op hrel hg
      obtain rfl : s'' = s' := Option.some.inj (hs''.symm.trans hs')
      exact ⟨_, hrel'⟩

/-- Two-byte elements in a vector of capacity one: the second `add` grows it, at the third
attempt. -/
def grownCalls : List (VectorOp 2) :=
  [.top, .add (some ⟨[1, 2], rfl⟩) fun _ => none,
    .add (some ⟨[3, 4], rfl⟩) fun attempt => if attempt < 2 then none else some fun _ => 0,
    .set 0 (some ⟨[5, 6], rfl⟩), .get 0, .get 2, .pop, .top]

theorem vector_refines_list_grown :
    vectorInit 1 2 true true = .ok ⟨[0, 0], 0, 1, false⟩ ∧
      Along (vectorStep .exact) (CanGrow .exact) ⟨⟨[0, 0], 0, 1, false⟩, []⟩ grownCalls ∧
      ∃ s, run (vectorStep .exact) ⟨⟨[0, 0], 0, 1, false⟩, []⟩ grownCalls = some s ∧
        s.replies = [⟨.zeroSizeVector, none⟩, ⟨.noErr, none⟩, ⟨.noErr, none⟩, ⟨.noErr, none⟩,
          ⟨.noErr, some [5, 6]⟩, ⟨.outOfBoundErr, none⟩, ⟨.noErr, some [3, 4]⟩,
          ⟨.noErr, some [5, 6]⟩] := by
  have hgrow :
      Along (vectorStep .exact) (CanGrow .exact) ⟨⟨[0, 0], 0, 1, false⟩, []⟩ grownCalls := by
    decide +kernel
  obtain ⟨s, hrun, hreplies, -⟩ := (vector_refines_list 2 1 (by decide) (by decide) (by decide)
    (show vectorInit 1 2 true true = _ from rfl) grownCalls hgrow).1
  exact ⟨rfl, hgrow, s, hrun, hreplies.trans (by decide +kernel)⟩

end LinuxWorkouts.Collections
