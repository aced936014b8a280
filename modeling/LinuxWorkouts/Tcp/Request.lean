import LinuxWorkouts.Lib.Ascii

/-!
Requests (`utils.c`).

A request is cut at its colons. `parseRequest` follows the loop of the source, which
walks over the string with the start of the current token and the tokens found so far.
`parseRequest_eq` says what comes out for any request, and `parseRequest_get` for the one that the
client sends.
-/

namespace LinuxWorkouts.Tcp

open Ascii List

abbrev Bytes := List UInt8

def colon : UInt8 := ofChar ':'

inductive Operation where
  | get
  | post
  | undefined
deriving DecidableEq, Repr

def getTokensCnt (str : Bytes) : Nat :=
  str.foldl (fun cnt b => if b = colon then cnt + 1 else cnt) 1

/-- The block of the token from `startPos` to `endPos`, taken as large enough for its
terminator. For an empty token the test for a newline looks in front of the block;
the result is then `none`. -/
def addElemnt (str : Bytes) (startPos endPos : Nat) : Option Bytes :=
  let tokenSize := endPos - startPos
  let block := (str.drop startPos).take tokenSize ++ [0]
  if tokenSize = 0 then none
  else if block[tokenSize - 1]? = some newline then some (block.set (tokenSize - 1) 0)
  else some block

/-- The loop over the bytes from `endPos` on, and the last token behind it. -/
def parseLoop (str : Bytes) (tokensCnt : Nat) : Bytes → Nat → Nat → List Bytes → Option (List Bytes)
  | [], endPos, startPos, tokens => do
      let token ← addElemnt str startPos endPos
      some (tokens ++ [token])
  | b :: bs, endPos, startPos, tokens =>
    if b = colon ∧ tokens.length < tokensCnt then do
      let token ← addElemnt str startPos endPos
      parseLoop str tokensCnt bs (endPos + 1) (endPos + 1) (tokens ++ [token])
    else parseLoop str tokensCnt bs (endPos + 1) startPos tokens

def parseRequest (request : Bytes) : Option (List Bytes) :=
  let str := cString request
  parseLoop str (getTokensCnt str) str 0 0 []

/-- The second test of the source is for "GET" again, so `POST` is never recognised. -/
def getOpType (request : Bytes) : Operation :=
  if strncmpEq request (ascii "GET") 3 then .get
  else if strncmpEq request (ascii "GET") 3 then .post
  else .undefined

section Tokens

variable {str token rest : Bytes} {tokensCnt endPos startPos : Nat} {tokens : List Bytes}

theorem getTokensCnt_eq (str : Bytes) : getTokensCnt str = str.count colon + 1 := by
  have hfold : ∀ cnt, str.foldl (fun cnt b => if b = colon then cnt + 1 else cnt) cnt =
      str.count colon + cnt := by
    induction str with
    | nil => simp
    | cons b str ih =>
      intro cnt
      rw [foldl_cons, ih, count_cons]
      by_cases hb : b = colon
      · simp only [hb, if_true, beq_self_eq_true]
        omega
      · simp [hb]
  exact hfold 1

/-- The block of a token: a newline at its end is overwritten by a second terminator. -/
def finish (piece : Bytes) : Bytes :=
  if piece.getLast? = some newline then piece.dropLast ++ [0, 0] else piece ++ [0]

theorem finish_append_newline (piece : Bytes) : finish (piece ++ [newline]) = piece ++ [0, 0] := by
  rw [finish, if_pos getLast?_concat, dropLast_concat]

theorem finish_of_not_mem {piece : Bytes} (h : newline ∉ piece) : finish piece = piece ++ [0] := by
  rw [finish, if_neg fun hlast => h (mem_of_getLast? hlast)]

theorem addElemnt_eq (before piece rest : Bytes) :
    addElemnt (before ++ piece ++ rest) before.length (before.length + piece.length) =
      if piece = [] then none else some (finish piece) := by
  have htoken : ((before ++ piece ++ rest).drop before.length).take piece.length = piece := by
    rw [append_assoc, drop_left, take_left]
  simp only [addElemnt, Nat.add_sub_cancel_left, htoken, length_eq_zero_iff]
  split
  · rfl
  · next hne =>
      obtain ⟨init, last, rfl⟩ := (eq_nil_or_concat piece).resolve_left hne
      simp only [concat_eq_append, finish, getLast?_concat, dropLast_concat,
        length_append, length_singleton, Nat.add_sub_cancel, append_assoc,
        getElem?_append_right (Nat.le_refl init.length), Nat.sub_self,
        set_append_right _ _ (Nat.le_refl init.length)]
      split <;> simp_all

theorem parseLoop_eq {before cur bs tail : Bytes} (hstr : str = before ++ cur ++ bs ++ tail)
    (hcur : colon ∉ cur) (hcnt : tokens.length + bs.count colon < tokensCnt) :
    parseLoop str tokensCnt bs (before.length + cur.length) before.length tokens =
      if [] ∈ (cur ++ bs).splitOn colon then none
      else some (tokens ++ ((cur ++ bs).splitOn colon).map finish) := by
  induction bs generalizing before cur tokens with
  | nil =>
    rw [append_nil, splitOn_eq_singleton hcur, parseLoop, hstr, append_nil, addElemnt_eq]
    simp only [mem_singleton, eq_comm (a := ([] : Bytes)), map_cons, map_nil]
    split <;> rfl
  | cons b bs ih =>
    rw [parseLoop]
    by_cases hb : b = colon
    · subst hb
      rw [count_cons_self] at hcnt
      rw [if_pos ⟨rfl, by omega⟩, splitOn_append_cons_self_of_not_mem hcur]
      have hadd : addElemnt str before.length (before.length + cur.length) =
          if cur = [] then none else some (finish cur) := by
        rw [hstr, append_assoc _ _ tail, addElemnt_eq]
      rw [hadd]
      by_cases hnil : cur = []
      · rw [if_pos hnil, if_pos (by simp [hnil])]
        rfl
      · have hstr' : str = (before ++ cur ++ [colon]) ++ [] ++ bs ++ tail := by
          rw [hstr]
          simp
        have hcnt' : (tokens ++ [finish cur]).length + bs.count colon < tokensCnt := by
          rw [length_append, length_singleton]
          omega
        have hnext := ih hstr' not_mem_nil hcnt'
        simp only [length_append, length_singleton, length_nil, Nat.add_zero, nil_append] at hnext
        rw [if_neg hnil]
        simp only [Option.bind_eq_bind, Option.bind_some, hnext, mem_cons,
          eq_comm (a := ([] : Bytes)), hnil, false_or, map_cons, append_assoc,
          singleton_append]
    · rw [if_neg fun h => hb h.1]
      rw [count_cons_of_ne hb] at hcnt
      have hstr' : str = before ++ (cur ++ [b]) ++ bs ++ tail := by
        rw [hstr]
        simp
      have hcur' : colon ∉ cur ++ [b] := by
        rw [mem_append, mem_singleton]
        rintro (h | h)
        · exact hcur h
        · exact hb h.symm
      have hnext := ih hstr' hcur' hcnt
      rw [length_append, length_singleton, ← Nat.add_assoc, append_assoc, singleton_append] at hnext
      exact hnext

theorem parseRequest_eq (request : Bytes) :
    parseRequest request =
      if [] ∈ (cString request).splitOn colon then none
      else some (((cString request).splitOn colon).map finish) := by
  have hstr : cString request = [] ++ [] ++ cString request ++ [] := by simp
  have hcnt : ([] : List Bytes).length + (cString request).count colon <
      getTokensCnt (cString request) := by
    rw [getTokensCnt_eq, length_nil]
    omega
  have hloop := parseLoop_eq hstr not_mem_nil hcnt
  simpa [parseRequest] using hloop

end Tokens

theorem parseRequest_get {path rest : Bytes} (hcolon : colon ∉ path) (hnul : 0 ∉ path) :
    parseRequest (ascii "GET:" ++ path ++ [newline] ++ 0 :: rest) =
      some [ascii "GET" ++ [0], path ++ [0, 0]] := by
  have hnul' : (0 : UInt8) ∉ ascii "GET:" ++ path ++ [newline] := by
    simp only [mem_append, not_or]
    exact ⟨⟨by decide, hnul⟩, by decide⟩
  have hlast : colon ∉ path ++ [newline] := by
    simp only [mem_append, not_or]
    exact ⟨hcolon, by decide⟩
  have hstr : ascii "GET:" ++ path ++ [newline] = ascii "GET" ++ colon :: (path ++ [newline]) := by
    simp [ascii, colon]
  have hpieces : (ascii "GET:" ++ path ++ [newline]).splitOn colon =
      [ascii "GET", path ++ [newline]] := by
    rw [hstr, splitOn_append_cons_self_of_not_mem (by decide), splitOn_eq_singleton hlast]
  have hfull : [] ∉ [ascii "GET", path ++ [newline]] := by
    rw [mem_cons, mem_singleton]
    rintro (h | h)
    · cases h
    · exact cons_ne_nil _ _ (append_eq_nil_iff.mp h.symm).2
  rw [parseRequest_eq, cString_append hnul', hpieces, if_neg hfull, map_cons,
    map_cons, map_nil, finish_append_newline, finish_of_not_mem (by decide)]

end LinuxWorkouts.Tcp
