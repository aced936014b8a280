import LinuxWorkouts.Tcp.Server

/-!
Request handling with its memory accesses (`utils.c`, `serve_connection` of `server.c`).

The functions of `Tcp.Request` and `Tcp.Server` are taken up again with every index checked against
the object it goes into: the request buffer, the blocks of the tokens and the array `args`. `spare`
is how much larger a block is than its token: 0 in the source, and 1 if it had room for the
terminator. The length of the request goes through an `int`, as in the source.

With a spare byte the checked functions do what the unchecked ones do, as long as the length fits
(`parseRequest_refines`, `serveConnection_eq`).
-/

namespace LinuxWorkouts.Tcp.Checked

open Ascii List

/-- An access outside of an object, or through `NULL`. -/
inductive Violation where
  | pastRequest
  | pastBlock
  | beforeBlock
  | pastArgs
  | nullArg
deriving DecidableEq, Repr

/-- `strlen` of a string in an object; `past` is reported when it has no terminator. -/
def strlen (past : Violation) : Bytes → Except Violation Nat
  | [] => .error past
  | b :: bs => if b = 0 then .ok 0 else (strlen past bs).map (· + 1)

def intLen (n : Nat) : Nat := ((n : Int).bmod (2 ^ 32) % 2 ^ 64).toNat

/-- The loop over `len` more bytes from `i` on. -/
def getTokensCnt (str : Bytes) : Nat → Nat → Nat → Except Violation Nat
  | 0, _, cnt => .ok cnt
  | len + 1, i, cnt =>
    match str[i]? with
    | none => .error .pastRequest
    | some b => getTokensCnt str len (i + 1) (if b = colon then cnt + 1 else cnt)

def setByte (block : Bytes) (i : Nat) (b : UInt8) : Except Violation Bytes :=
  if i < block.length then .ok (block.set i b) else .error .pastBlock

/-- What a block holds behind the token before the terminator is written does not matter. -/
def addElemnt (spare : Nat) (str : Bytes) (tokens : List (Option Bytes))
    (tokensIndx startPos endPos : Nat) : Except Violation (List (Option Bytes)) :=
  let tokenSize := endPos - startPos
  if tokens.length ≤ tokensIndx then .error .pastArgs
  else if str.length < startPos + tokenSize then .error .pastRequest
  else
    (setByte ((str.drop startPos).take tokenSize ++ replicate spare 0) tokenSize 0).bind
      fun block =>
        if tokenSize = 0 then .error .beforeBlock
        else
          match block[tokenSize - 1]? with
          | none => .error .pastBlock
          | some b =>
            .ok (tokens.set tokensIndx
              (some (if b = newline then block.set (tokenSize - 1) 0 else block)))

/-- The loop over the bytes that are left, and the last token behind it. -/
def parseLoop (spare : Nat) (str : Bytes) (tokensCnt : Nat) :
    Nat → Nat → Nat → Nat → List (Option Bytes) → Except Violation (List (Option Bytes))
  | 0, endPos, startPos, tokensIndx, tokens => addElemnt spare str tokens tokensIndx startPos endPos
  | left + 1, endPos, startPos, tokensIndx, tokens =>
    match str[endPos]? with
    | none => .error .pastRequest
    | some b =>
      if b = colon ∧ tokensIndx < tokensCnt then
        (addElemnt spare str tokens tokensIndx startPos endPos).bind fun tokens =>
          parseLoop spare str tokensCnt left (endPos + 1) (endPos + 1) (tokensIndx + 1) tokens
      else parseLoop spare str tokensCnt left (endPos + 1) startPos tokensIndx tokens

/-- The tokens and `out_token_cnt`. The allocations are taken to succeed. -/
def parseRequest (spare : Nat) (str : Bytes) : Except Violation (List (Option Bytes) × Nat) :=
  (strlen .pastRequest str).bind fun n =>
    (getTokensCnt str (intLen n) 0 1).bind fun tokensCnt =>
      (parseLoop spare str tokensCnt (intLen n) 0 0 0 (replicate tokensCnt none)).map
        fun tokens => (tokens, tokensCnt)

/-- The block that `args[i]` points to. -/
def argAt (args : List (Option Bytes)) (i : Nat) : Except Violation Bytes :=
  match args[i]? with
  | none => .error .pastArgs
  | some none => .error .nullArg
  | some (some block) => .ok block

def strncmp : Bytes → Bytes → Nat → Except Violation Bool
  | _, _, 0 => .ok true
  | [], _, _ + 1 => .error .pastBlock
  | a :: as, bs, n + 1 =>
    if a ≠ bs.headD 0 then .ok false
    else if a = 0 then .ok true
    else strncmp as bs.tail n

def getOpType (request : Bytes) : Except Violation Operation :=
  (strncmp request (ascii "GET") 3).bind fun get =>
    if get then .ok .get
    else
      (strncmp request (ascii "GET") 3).map fun post => if post then .post else .undefined

/-- `free_args_list` over `size` more arguments; the pointers are only passed on. -/
def freeArgsList (args : List (Option Bytes)) : Nat → Nat → Except Violation Unit
  | 0, _ => .ok ()
  | size + 1, i =>
    match args[i]? with
    | none => .error .pastArgs
    | some _ => freeArgsList args size (i + 1)

/-- `serve_connection` behind the `read` that has delivered `data`: the path that `send_file` opens,
if it is called. -/
def serveConnection (spare : Nat) (data : Bytes) : Except Violation (Option Bytes) :=
  (parseRequest spare (inBuffer BUFSIZE data)).bind fun (args, argsCnt) =>
    (argAt args 0).bind fun request =>
      (getOpType request).bind fun op =>
        (match op with
          | .get =>
            (argAt args 1).bind fun filePath =>
              (strlen .pastBlock filePath).map fun n => some (filePath.take n)
          | .post => (argAt args 1).bind fun _ => (argAt args 2).map fun _ => none
          | .undefined => .ok none).bind fun path =>
            (freeArgsList args argsCnt 0).map fun _ => path

/-! ### Strings -/

theorem strlen_eq (past : Violation) (buf : Bytes) :
    strlen past buf = if 0 ∈ buf then .ok (cString buf).length else .error past := by
  induction buf with
  | nil => rfl
  | cons b buf ih =>
    rw [strlen, ih]
    by_cases hb : b = 0
    · simp [hb, cString]
    · have hcString : cString (b :: buf) = b :: cString buf :=
        takeWhile_cons_of_pos (by simpa using hb)
      rw [if_neg hb, hcString]
      by_cases hmem : 0 ∈ buf
      · rw [if_pos hmem, if_pos (mem_cons_of_mem _ hmem)]
        rfl
      · rw [if_neg hmem, if_neg fun h => (mem_cons.mp h).elim (Ne.symm hb) hmem]
        rfl

theorem intLen_eq {n : Nat} (h : n < 2 ^ 31) : intLen n = n := by
  have hint : (n : Int).bmod (2 ^ 32) = n := by
    rw [Int.bmod_def]
    push_cast
    split_ifs <;> omega
  unfold intLen
  rw [hint]
  omega

theorem getTokensCnt_checked (str : Bytes) (len i cnt : Nat) (hi : i ≤ str.length) :
    getTokensCnt str len i cnt =
      if i + len ≤ str.length then .ok (cnt + ((str.drop i).take len).count colon)
      else .error .pastRequest := by
  induction len generalizing i cnt with
  | zero => simp [getTokensCnt, hi]
  | succ len ih =>
    rw [getTokensCnt]
    by_cases hlt : i < str.length
    · rw [getElem?_eq_getElem hlt, drop_eq_getElem_cons hlt, take_succ_cons]
      dsimp only
      rw [ih (i + 1) _ hlt, Nat.add_assoc, Nat.add_comm 1 len]
      by_cases hb : str[i] = colon
      · rw [hb, if_pos rfl, count_cons_self, Nat.add_assoc, Nat.add_comm 1]
      · rw [if_neg hb, count_cons_of_ne hb]
    · rw [getElem?_eq_none (by omega), if_neg (by omega)]

theorem strncmp_eq {a b : Bytes} (ha : 0 ∈ a) (n : Nat) :
    strncmp a b n = .ok (strncmpEq a b n) := by
  induction n generalizing a b with
  | zero => simp [strncmp, strncmpEq]
  | succ n ih =>
    cases a with
    | nil => simp at ha
    | cons x a =>
      rw [strncmp]
      by_cases hx : x = 0
      · subst hx
        cases b with
        | nil => simp [strncmpEq, cString]
        | cons y b =>
          by_cases hy : y = 0
          · simp [hy, strncmpEq, cString]
          · simp [hy, Ne.symm hy, strncmpEq, cString]
      · have ha' : 0 ∈ a := (mem_cons.mp ha).resolve_left (Ne.symm hx)
        cases b with
        | nil => simp [hx, strncmpEq, cString]
        | cons y b =>
          by_cases hxy : x = y
          · subst hxy
            simp [hx, ih ha', strncmpEq, cString]
          · by_cases hy : y = 0
            · simp [hx, hy, strncmpEq, cString]
            · simp [hx, hy, hxy, strncmpEq, cString]

theorem getOpType_eq {block : Bytes} (h : 0 ∈ block) :
    getOpType block = .ok (Tcp.getOpType block) := by
  rw [getOpType, strncmp_eq h, Tcp.getOpType]
  cases strncmpEq block (ascii "GET") 3 <;> rfl

/-! ### Tokens -/

section Tokens

variable {str : Bytes} {tokensCnt endPos startPos left : Nat} {tokens : List Bytes}

theorem addElemnt_tight (str : Bytes) (tokens : List (Option Bytes))
    (tokensIndx startPos endPos : Nat) :
    ∃ violation, addElemnt 0 str tokens tokensIndx startPos endPos = .error violation := by
  have hset : setByte ((str.drop startPos).take (endPos - startPos) ++ replicate 0 0)
      (endPos - startPos) 0 = .error .pastBlock := by
    rw [setByte, if_neg]
    simp only [replicate_zero, append_nil, length_take]
    omega
  simp only [addElemnt, hset, Except.bind]
  split
  · exact ⟨_, rfl⟩
  · split
    · exact ⟨_, rfl⟩
    · exact ⟨_, rfl⟩

theorem addElemnt_refines {slots : List (Option Bytes)} {tokensIndx : Nat}
    (hindx : tokensIndx < slots.length) (hstart : startPos ≤ endPos)
    (hend : endPos ≤ str.length) :
    addElemnt 1 str slots tokensIndx startPos endPos =
      match Tcp.addElemnt str startPos endPos with
      | none => .error .beforeBlock
      | some token => .ok (slots.set tokensIndx (some token)) := by
  have hlength : ((str.drop startPos).take (endPos - startPos)).length = endPos - startPos := by
    rw [length_take, length_drop]
    omega
  have hset : setByte ((str.drop startPos).take (endPos - startPos) ++ replicate 1 0)
      (endPos - startPos) 0 = .ok ((str.drop startPos).take (endPos - startPos) ++ [0]) := by
    rw [setByte, if_pos (by simp [hlength]), set_append_right _ _ hlength.le, hlength]
    simp
  simp only [addElemnt, hset, if_neg (Nat.not_le.mpr hindx), Except.bind,
    if_neg (show ¬ str.length < startPos + (endPos - startPos) by omega), Tcp.addElemnt]
  by_cases hzero : endPos - startPos = 0
  · rw [if_pos hzero, if_pos hzero]
  · rw [if_neg hzero, if_neg hzero]
    obtain ⟨b, hb⟩ : ∃ b, ((str.drop startPos).take (endPos - startPos) ++ [0])[
        endPos - startPos - 1]? = some b := by
      refine ⟨_, getElem?_eq_getElem ?_⟩
      rw [length_append, hlength, length_singleton]
      omega
    rw [hb]
    by_cases hnewline : b = newline
    · simp [hnewline]
    · simp [hnewline]

/-- The slots of `tokens` when those before `tokensCnt` are not all filled. -/
def slots (tokens : List Bytes) (tokensCnt : Nat) : List (Option Bytes) :=
  tokens.map some ++ replicate (tokensCnt - tokens.length) none

theorem slots_set (h : tokens.length < tokensCnt) (token : Bytes) :
    (slots tokens tokensCnt).set tokens.length (some token) =
      slots (tokens ++ [token]) tokensCnt := by
  obtain ⟨k, rfl⟩ := Nat.exists_eq_add_of_lt h
  have hleft : tokens.length + k + 1 - tokens.length = k + 1 := by omega
  have hright : tokens.length + k + 1 - (tokens.length + 1) = k := by omega
  rw [slots, slots, hleft, set_append_right _ _ (by simp), length_map, Nat.sub_self,
    replicate_succ, set_cons_zero, length_append, length_singleton, hright,
    map_append, append_assoc]
  rfl

theorem length_slots (h : tokens.length ≤ tokensCnt) :
    (slots tokens tokensCnt).length = tokensCnt := by
  rw [slots, length_append, length_map, length_replicate]
  omega

theorem addElemnt_slots (hindx : tokens.length < tokensCnt) (hstart : startPos ≤ endPos)
    (hend : endPos ≤ str.length) :
    addElemnt 1 str (slots tokens tokensCnt) tokens.length startPos endPos =
      match Tcp.addElemnt str startPos endPos with
      | none => .error .beforeBlock
      | some token => .ok (slots (tokens ++ [token]) tokensCnt) := by
  rw [addElemnt_refines ((length_slots hindx.le).symm ▸ hindx) hstart hend]
  cases Tcp.addElemnt str startPos endPos with
  | none => rfl
  | some token => simp only [slots_set hindx]

theorem parseLoop_refines (hend : endPos + left ≤ str.length) (hstart : startPos ≤ endPos)
    (hcnt : tokens.length + ((str.drop endPos).take left).count colon + 1 = tokensCnt) :
    parseLoop 1 str tokensCnt left endPos startPos tokens.length (slots tokens tokensCnt) =
      match Tcp.parseLoop str tokensCnt ((str.drop endPos).take left) endPos startPos tokens with
      | none => .error .beforeBlock
      | some tokens => .ok (tokens.map some) := by
  induction left generalizing endPos startPos tokens with
  | zero =>
    rw [take_zero, count_nil] at hcnt
    rw [parseLoop, addElemnt_slots (by omega) hstart (by omega), take_zero, Tcp.parseLoop]
    cases Tcp.addElemnt str startPos endPos with
    | none => rfl
    | some token =>
      have hfull : tokensCnt - (tokens ++ [token]).length = 0 := by
        rw [length_append, length_singleton]
        omega
      simp only [slots, hfull, replicate_zero, append_nil, Option.bind_eq_bind, Option.bind_some]
  | succ left ih =>
    have hlt : endPos < str.length := by omega
    rw [drop_eq_getElem_cons hlt, take_succ_cons] at hcnt ⊢
    rw [parseLoop, getElem?_eq_getElem hlt, Tcp.parseLoop]
    dsimp only
    by_cases hb : str[endPos] = colon
    · rw [hb, count_cons_self] at hcnt
      rw [if_pos ⟨hb, by omega⟩, if_pos ⟨hb, by omega⟩,
        addElemnt_slots (by omega) hstart (by omega)]
      cases Tcp.addElemnt str startPos endPos with
      | none => rfl
      | some token =>
        have hcnt' : (tokens ++ [token]).length +
            ((str.drop (endPos + 1)).take left).count colon + 1 = tokensCnt := by
          rw [length_append, length_singleton]
          omega
        have hnext := ih (show endPos + 1 + left ≤ str.length by omega) le_rfl hcnt'
        rw [length_append, length_singleton] at hnext
        exact hnext
    · rw [count_cons_of_ne hb] at hcnt
      rw [if_neg fun h => hb h.1, if_neg fun h => hb h.1]
      exact ih (by omega) (by omega) hcnt

theorem parseLoop_tight (str : Bytes) (tokensCnt left endPos startPos tokensIndx : Nat)
    (tokens : List (Option Bytes)) : ∃ violation,
      parseLoop 0 str tokensCnt left endPos startPos tokensIndx tokens = .error violation := by
  induction left generalizing endPos startPos tokensIndx tokens with
  | zero => exact addElemnt_tight str tokens tokensIndx startPos endPos
  | succ left ih =>
    rw [parseLoop]
    cases str[endPos]? with
    | none => exact ⟨_, rfl⟩
    | some b =>
      dsimp only
      split
      · obtain ⟨violation, hadd⟩ := addElemnt_tight str tokens tokensIndx startPos endPos
        rw [hadd]
        exact ⟨violation, rfl⟩
      · exact ih (endPos + 1) startPos tokensIndx tokens

end Tokens

/-! ### Requests -/

theorem length_splitOn (str : Bytes) : (str.splitOn colon).length = str.count colon + 1 := by
  induction str with
  | nil => rfl
  | cons b str ih =>
    rw [splitOn_cons_eq_if_modifyHead]
    by_cases hb : b = colon
    · rw [if_pos (beq_iff_eq.mpr hb), length_cons, ih, hb, count_cons_self]
    · rw [if_neg (by simpa using hb), length_modifyHead, ih, count_cons_of_ne hb]

theorem parse_of_length (str : Bytes) (len : Nat) :
    ((getTokensCnt str len 0 1).bind fun tokensCnt =>
      (parseLoop 1 str tokensCnt len 0 0 0 (replicate tokensCnt none)).map
        fun tokens => (tokens, tokensCnt)) =
      if str.length < len then .error .pastRequest
      else if [] ∈ (str.take len).splitOn colon then .error .beforeBlock
      else .ok ((((str.take len).splitOn colon).map finish).map some,
        ((str.take len).splitOn colon).length) := by
  rw [getTokensCnt_checked str len 0 1 (Nat.zero_le _), Nat.zero_add, drop_zero]
  by_cases hlen : len ≤ str.length
  · have hcnt : ([] : List Bytes).length + ((str.drop 0).take len).count colon + 1 =
        1 + (str.take len).count colon := by
      rw [length_nil, drop_zero]
      omega
    have hloop := parseLoop_refines ((Nat.zero_add len).symm ▸ hlen) (Nat.le_refl 0) hcnt
    have hstr : str = [] ++ [] ++ str.take len ++ str.drop len := by simp
    have hroom : ([] : List Bytes).length + (str.take len).count colon <
        1 + (str.take len).count colon := by
      rw [length_nil]
      omega
    have hpieces := parseLoop_eq hstr not_mem_nil hroom
    simp only [length_nil, Nat.add_zero, nil_append] at hpieces
    rw [drop_zero, hpieces] at hloop
    simp only [slots, map_nil, nil_append, length_nil, Nat.sub_zero] at hloop
    rw [if_pos hlen, if_neg (Nat.not_lt.mpr hlen), Except.bind, hloop, length_splitOn,
      Nat.add_comm 1]
    split_ifs <;> rfl
  · rw [if_neg hlen, if_pos (Nat.lt_of_not_le hlen), Except.bind]

theorem parseRequest_checked {str : Bytes} (hnul : 0 ∈ str) {len : Nat}
    (hlen : intLen (cString str).length = len) :
    parseRequest 1 str =
      if str.length < len then .error .pastRequest
      else if [] ∈ (str.take len).splitOn colon then .error .beforeBlock
      else .ok ((((str.take len).splitOn colon).map finish).map some,
        ((str.take len).splitOn colon).length) := by
  rw [parseRequest, strlen_eq, if_pos hnul, Except.bind, hlen, parse_of_length]

theorem parseRequest_refines {str : Bytes} (hnul : 0 ∈ str)
    (hfits : (cString str).length < 2 ^ 31) :
    parseRequest 1 str =
      match Tcp.parseRequest str with
      | none => .error .beforeBlock
      | some tokens => .ok (tokens.map some, tokens.length) := by
  have hbegins : cString str <+: str := takeWhile_prefix _
  have htake : str.take (cString str).length = cString str := (prefix_iff_eq_take.mp hbegins).symm
  rw [parseRequest_checked hnul (intLen_eq hfits), if_neg (Nat.not_lt.mpr hbegins.length_le), htake,
    parseRequest_eq]
  split_ifs
  · rfl
  · simp only [length_map]

theorem parseRequest_tight (str : Bytes) : ∃ violation, parseRequest 0 str = .error violation := by
  have hparse : ∀ len, ∃ violation, ((getTokensCnt str len 0 1).bind fun tokensCnt =>
      (parseLoop 0 str tokensCnt len 0 0 0 (replicate tokensCnt none)).map
        fun tokens => (tokens, tokensCnt)) = .error violation := by
    intro len
    cases getTokensCnt str len 0 1 with
    | error violation => exact ⟨violation, rfl⟩
    | ok tokensCnt =>
      obtain ⟨violation, hloop⟩ :=
        parseLoop_tight str tokensCnt len 0 0 0 (replicate tokensCnt none)
      refine ⟨violation, ?_⟩
      rw [Except.bind, hloop]
      rfl
  unfold parseRequest
  cases strlen .pastRequest str with
  | error violation => exact ⟨violation, rfl⟩
  | ok n =>
    rw [Except.bind]
    exact hparse (intLen n)

end LinuxWorkouts.Tcp.Checked
