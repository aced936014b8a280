import LinuxWorkouts.Tcp.RequestMemory

/-!
Which requests are parsed right, and which are handled safely.

`request_round_trip_iff` is about requests of any length that a client can build from tokens; the
one limit is the `int` that holds the length. `request_memory_safe_iff` is about everything that the
first `read` can deliver: what the source does is never safe, and with a spare byte in each block
three conditions remain. `serveConnection_unchecked` connects the checked handling with the one in
which the transfers are modelled.
-/

namespace LinuxWorkouts.Tcp.Checked

open Ascii List

/-! ### Blocks and pieces -/

section Blocks

variable {piece str : Bytes}

theorem zero_mem_finish (piece : Bytes) : 0 ∈ finish piece := by
  rw [finish]
  split <;> simp

theorem cString_finish (h : 0 ∉ piece) :
    cString (finish piece) = if piece.getLast? = some newline then piece.dropLast else piece := by
  rw [finish]
  split
  · exact cString_append fun hmem => h (mem_of_mem_dropLast hmem)
  · exact cString_append h

theorem cString_finish_length_le (piece : Bytes) :
    (cString (finish piece)).length ≤ piece.length := by
  have hcut : ∀ before after : Bytes, (cString (before ++ 0 :: after)).length ≤ before.length := by
    intro before after
    by_cases hmem : (0 : UInt8) ∈ before
    · obtain ⟨l, r, rfl, hl⟩ := eq_append_cons_of_mem hmem
      rw [append_assoc, cons_append, cString_append hl, length_append]
      omega
    · rw [cString_append hmem]
  rw [finish]
  split
  · refine (hcut piece.dropLast [0]).trans ?_
    rw [length_dropLast]
    omega
  · exact hcut piece []

theorem sum_length_splitOn (str : Bytes) :
    ((str.splitOn colon).map length).sum + str.count colon = str.length := by
  induction str with
  | nil => rfl
  | cons b str ih =>
    rw [splitOn_cons_eq_if_modifyHead]
    by_cases hb : b = colon
    · rw [if_pos (beq_iff_eq.mpr hb), hb, count_cons_self, map_cons, sum_cons,
        length_nil, length_cons]
      omega
    · rw [if_neg (by simpa using hb), count_cons_of_ne hb, length_cons, ← ih]
      cases hsplit : str.splitOn colon with
      | nil => exact absurd hsplit (splitOn_ne_nil colon str)
      | cons p ps =>
        simp only [modifyHead_cons, map_cons, sum_cons, length_cons]
        omega

theorem first_piece (str : Bytes) :
    colon ∉ str ∧ str.splitOn colon = [str] ∨
      ∃ piece next rest, str = piece ++ colon :: next ∧ colon ∉ piece ∧
        str.splitOn colon = piece :: rest ∧ rest ≠ [] := by
  by_cases hcolon : colon ∈ str
  · obtain ⟨piece, next, rfl, hpiece⟩ := eq_append_cons_of_mem hcolon
    exact .inr ⟨piece, next, _, rfl, hpiece,
      splitOn_append_cons_self_of_not_mem hpiece next, splitOn_ne_nil colon next⟩
  · exact .inl ⟨hcolon, splitOn_eq_singleton hcolon⟩

end Blocks

/-! ### The round trip -/

/-- What a client may put into a request. -/
structure IsToken (token : Bytes) : Prop where
  nonempty : token ≠ []
  noColon : colon ∉ token
  noNewline : newline ∉ token
  noNul : 0 ∉ token

def requestOf (tokens : List Bytes) : Bytes := [colon].intercalate tokens ++ [newline]

/-- `parse_request` returns these tokens as C strings, and their number. -/
def ParsesTo (str : Bytes) (tokens : List Bytes) : Prop :=
  ∃ args, parseRequest 1 str = .ok (args, tokens.length) ∧
    args.map (Option.map cString) = tokens.map some

section RoundTrip

variable {tokens init : List Bytes} {last rest : Bytes}

theorem mem_intercalate {b : UInt8} (h : b ∈ [colon].intercalate tokens) :
    b = colon ∨ ∃ token ∈ tokens, b ∈ token := by
  induction tokens with
  | nil => simp at h
  | cons token tokens ih =>
    by_cases hnil : tokens = []
    · rw [hnil, intercalate_singleton] at h
      exact .inr ⟨token, mem_cons_self, h⟩
    · rw [intercalate_cons_of_ne_nil hnil, mem_append, mem_append, mem_singleton] at h
      rcases h with (h | h) | h
      · exact .inr ⟨token, mem_cons_self, h⟩
      · exact .inl h
      · rcases ih h with h | ⟨other, hother, h⟩
        · exact .inl h
        · exact .inr ⟨other, mem_cons_of_mem _ hother, h⟩

theorem requestOf_concat (init : List Bytes) (last : Bytes) :
    requestOf (init ++ [last]) = [colon].intercalate (init ++ [last ++ [newline]]) := by
  induction init with
  | nil => simp [requestOf]
  | cons token init ih =>
    rw [requestOf] at ih ⊢
    rw [cons_append, cons_append, intercalate_cons_of_ne_nil (by simp),
      intercalate_cons_of_ne_nil (by simp), ← ih, append_assoc]

theorem splitOn_requestOf (htokens : ∀ token ∈ init ++ [last], IsToken token) :
    (requestOf (init ++ [last])).splitOn colon = init ++ [last ++ [newline]] := by
  rw [requestOf_concat, splitOn_intercalate]
  · intro token hmem hcolon
    rcases mem_append.mp hmem with hmem | hmem
    · exact (htokens token (mem_append_left _ hmem)).noColon hcolon
    · rw [mem_singleton.mp hmem] at hcolon
      rcases mem_append.mp hcolon with hcolon | hcolon
      · exact (htokens last (by simp)).noColon hcolon
      · exact absurd hcolon (by decide)
  · simp

theorem zero_not_mem_requestOf (htokens : ∀ token ∈ tokens, IsToken token) :
    (0 : UInt8) ∉ requestOf tokens := by
  intro hmem
  rcases mem_append.mp hmem with hmem | hmem
  · rcases mem_intercalate hmem with hcolon | ⟨token, htoken, hnul⟩
    · exact absurd hcolon (by decide)
    · exact (htokens token htoken).noNul hnul
  · exact absurd hmem (by decide)

theorem cString_pieces (htokens : ∀ token ∈ init ++ [last], IsToken token) :
    (init ++ [last ++ [newline]]).map (fun piece => cString (finish piece)) = init ++ [last] := by
  have hinit : init.map (fun piece => cString (finish piece)) = init := by
    conv_rhs => rw [← map_id init]
    refine map_congr_left fun token hmem => ?_
    have htoken := htokens token (mem_append_left _ hmem)
    rw [finish_of_not_mem htoken.noNewline, cString_append htoken.noNul, id]
  have hlast : cString (finish (last ++ [newline])) = last := by
    rw [finish_append_newline, cString_append (htokens last (by simp)).noNul]
  rw [map_append, hinit, map_singleton, hlast]

theorem length_requestOf (htokens : ∀ token ∈ init ++ [last], IsToken token) :
    (requestOf (init ++ [last])).length =
      ((init ++ [last]).map length).sum + (init ++ [last]).length := by
  have hsum := sum_length_splitOn (requestOf (init ++ [last]))
  have hcount := length_splitOn (requestOf (init ++ [last]))
  rw [splitOn_requestOf htokens] at hsum hcount
  simp only [map_append, sum_append, map_singleton, sum_singleton,
    length_append, length_singleton] at hsum hcount ⊢
  omega

theorem intLen_overflow {n : Nat} (h : 2 ^ 31 ≤ n) : intLen n + 2 ^ 32 ≤ n ∨ 2 ^ 63 ≤ intLen n := by
  have hint : (n : Int).bmod (2 ^ 32) = (n : Int) % 2 ^ 32 ∧ (n : Int) % 2 ^ 32 < 2 ^ 31 ∨
      (n : Int).bmod (2 ^ 32) = (n : Int) % 2 ^ 32 - 2 ^ 32 ∧ 2 ^ 31 ≤ (n : Int) % 2 ^ 32 := by
    rw [Int.bmod_def]
    push_cast
    split_ifs <;> omega
  unfold intLen
  rcases hint with ⟨heq, hsmall⟩ | ⟨heq, hlarge⟩
  · left
    rw [heq]
    omega
  · right
    rw [heq]
    omega

theorem parseRequest_overruns {str : Bytes} (hnul : 0 ∈ str) (hlow : 2 ^ 31 ≤ (cString str).length)
    (hhigh : (cString str).length < 2 ^ 32) (hobject : str.length < 2 ^ 63) :
    parseRequest 1 str = .error .pastRequest := by
  have hoverflow := intLen_overflow hlow
  rw [parseRequest_checked hnul rfl]
  generalize intLen (cString str).length = len at hoverflow ⊢
  rw [if_pos (by omega)]

theorem IsToken.overruns {token : Bytes} (h : IsToken token) (hlow : 2 ^ 31 ≤ token.length + 1)
    (hhigh : token.length + 1 < 2 ^ 32) :
    parseRequest 1 (requestOf [token] ++ 0 :: []) = .error .pastRequest := by
  have htokens : ∀ other ∈ [] ++ [token], IsToken other := by
    intro other hmem
    rw [nil_append, mem_singleton] at hmem
    exact hmem ▸ h
  have hlength : (requestOf [token]).length = token.length + 1 := by
    rw [requestOf, intercalate_singleton, length_append, length_singleton]
  have hcString : cString (requestOf [token] ++ 0 :: []) = requestOf [token] :=
    cString_append (zero_not_mem_requestOf htokens)
  refine parseRequest_overruns (mem_append_right _ mem_cons_self) ?_ ?_ ?_
  · rw [hcString, hlength]
    exact hlow
  · rw [hcString, hlength]
    exact hhigh
  · rw [length_append, hlength, length_singleton]
    omega

theorem sum_cString_finish_le (pieces : List Bytes) :
    ((pieces.map fun piece => cString (finish piece)).map length).sum ≤
      (pieces.map length).sum := by
  rw [map_map]
  exact sum_le_sum fun piece _ => cString_finish_length_le piece

theorem length_le_of_parsed {str : Bytes} {len : Nat} (hlen : len ≤ str.length)
    (h : ((str.take len).splitOn colon).map (fun piece => cString (finish piece)) = tokens) :
    (tokens.map length).sum + tokens.length ≤ len + 1 := by
  have hsum := sum_length_splitOn (str.take len)
  have hcount := length_splitOn (str.take len)
  have hle := sum_cString_finish_le ((str.take len).splitOn colon)
  have htokens : tokens.length = ((str.take len).splitOn colon).length := by
    rw [← h, length_map]
  rw [length_take_of_le hlen] at hsum
  rw [h] at hle
  omega

end RoundTrip

/-- **The round trip.** Tokens that are joined by colons come back from `parse_request` if and only
if the length of the request fits an `int`. -/
theorem request_round_trip_iff (tokens : List Bytes) (hne : tokens ≠ [])
    (htokens : ∀ token ∈ tokens, IsToken token) (rest : Bytes)
    (hobject : (requestOf tokens ++ 0 :: rest).length < 2 ^ 63) :
    ParsesTo (requestOf tokens ++ 0 :: rest) tokens ↔ (requestOf tokens).length < 2 ^ 31 := by
  obtain ⟨init, last, rfl⟩ := (eq_nil_or_concat tokens).resolve_left hne
  rw [concat_eq_append] at htokens hobject ⊢
  have hcString : cString (requestOf (init ++ [last]) ++ 0 :: rest) = requestOf (init ++ [last]) :=
    cString_append (zero_not_mem_requestOf htokens)
  have hnul : (0 : UInt8) ∈ requestOf (init ++ [last]) ++ 0 :: rest := by simp
  constructor
  · rintro ⟨args, hparse, hargs⟩
    by_contra hlong
    have hoverflow := intLen_overflow (Nat.le_of_not_lt hlong)
    have hlength := length_requestOf htokens
    rw [parseRequest_checked hnul (congrArg intLen (congrArg length hcString))] at hparse
    generalize intLen (requestOf (init ++ [last])).length = len at hparse hoverflow
    generalize requestOf (init ++ [last]) ++ 0 :: rest = str at hparse hobject
    split_ifs at hparse with hpast hempty
    simp only [Except.ok.injEq, Prod.mk.injEq] at hparse
    rw [← hparse.1, map_map, map_map] at hargs
    have htokens' : ((str.take len).splitOn colon).map (fun piece => cString (finish piece)) =
        init ++ [last] := by
      apply map_injective_iff.mpr (Option.some_injective Bytes)
      rw [← hargs, map_map]
      rfl
    have hle := length_le_of_parsed (Nat.le_of_not_lt hpast) htokens'
    omega
  · intro hfits
    have hpieces := splitOn_requestOf htokens
    have hfull : [] ∉ init ++ [last ++ [newline]] := by
      rw [mem_append, mem_singleton]
      rintro (hmem | hnil)
      · exact (htokens [] (mem_append_left _ hmem)).nonempty rfl
      · exact cons_ne_nil _ _ (append_eq_nil_iff.mp hnil.symm).2
    refine ⟨((init ++ [last ++ [newline]]).map finish).map some, ?_, ?_⟩
    · rw [parseRequest_refines hnul (hcString.symm ▸ hfits), parseRequest_eq, hcString, hpieces,
        if_neg hfull]
      simp
    · rw [← cString_pieces htokens]
      simp only [map_map]
      rfl

/-- Two tokens of the shortest kind. -/
theorem request_round_trip_two :
    ParsesTo (requestOf [ascii "GET", ascii "a"] ++ 0 :: []) [ascii "GET", ascii "a"] ↔
      (requestOf [ascii "GET", ascii "a"]).length < 2 ^ 31 :=
  request_round_trip_iff [ascii "GET", ascii "a"] (by decide)
    (by
      intro token hmem
      rcases mem_cons.mp hmem with rfl | hmem
      · exact ⟨by decide, by decide, by decide, by decide⟩
      · rw [mem_singleton.mp hmem]
        exact ⟨by decide, by decide, by decide, by decide⟩) [] (by decide)

def longToken : Bytes := replicate (2 ^ 31 - 1) 97

/-- The length of this request is read as a negative number, and the colons are counted far behind
the buffer. -/
theorem long_token_overruns :
    IsToken longToken ∧
      parseRequest 1 (requestOf [longToken] ++ 0 :: []) = .error .pastRequest := by
  have hlength : longToken.length = 2 ^ 31 - 1 := length_replicate
  have hletters : ∀ b ∈ longToken, b = 97 := fun b hb => eq_of_mem_replicate hb
  generalize longToken = token at hlength hletters
  have htoken : IsToken token := by
    refine ⟨fun hnil => ?_, fun h => absurd (hletters _ h) (by decide),
      fun h => absurd (hletters _ h) (by decide), fun h => absurd (hletters _ h) (by decide)⟩
    rw [hnil, length_nil] at hlength
    omega
  exact ⟨htoken, htoken.overruns (by omega) (by omega)⟩

/-! ### Serving a connection -/

section Serving

variable {data block : Bytes} {args : List (Option Bytes)}

theorem cString_inBuffer (size : Nat) (data : Bytes) :
    cString (inBuffer size data) = cString data := by
  by_cases hnul : (0 : UInt8) ∈ data
  · obtain ⟨l, r, rfl, hl⟩ := eq_append_cons_of_mem hnul
    rw [inBuffer, append_assoc, cons_append, cString_append hl, cString_append hl]
  · have hdata : cString data = data := by
      rw [cString, takeWhile_eq_self_iff]
      intro b hb
      exact decide_eq_true fun h0 => hnul (h0 ▸ hb)
    rw [inBuffer]
    cases size - data.length with
    | zero => rw [replicate_zero, append_nil]
    | succ k => rw [replicate_succ, cString_append hnul, hdata]

theorem zero_mem_inBuffer (hdata : data.length ≤ BUFSIZE) :
    0 ∈ inBuffer BUFSIZE data ↔ data.length < BUFSIZE ∨ 0 ∈ data := by
  rw [inBuffer, mem_append, mem_replicate]
  constructor
  · rintro (h | ⟨h, -⟩)
    · exact .inr h
    · exact .inl (by omega)
  · rintro (h | h)
    · exact .inr ⟨by omega, rfl⟩
    · exact .inl h

theorem freeArgsList_eq {size i : Nat} (h : i + size ≤ args.length) :
    freeArgsList args size i = .ok () := by
  induction size generalizing i with
  | zero => rfl
  | succ size ih =>
    rw [freeArgsList, getElem?_eq_getElem (by omega)]
    exact ih (by omega)

theorem getOpType_get (block : Bytes) :
    Tcp.getOpType block = if ascii "GET" <+: cString block then .get else .undefined := by
  have hget : strncmpEq block (ascii "GET") 3 = true ↔ ascii "GET" <+: cString block := by
    rw [prefix_iff_eq_take, strncmpEq, decide_eq_true_eq, eq_comm]
    exact Iff.rfl
  rw [Tcp.getOpType]
  by_cases h : ascii "GET" <+: cString block
  · rw [if_pos (hget.mpr h), if_pos h]
  · rw [if_neg fun hc => h (hget.mp hc), if_neg fun hc => h (hget.mp hc), if_neg h]

theorem get_prefix_finish {piece : Bytes} (hnul : 0 ∉ piece) :
    ascii "GET" <+: cString (finish piece) ↔ ascii "GET" <+: piece := by
  rw [cString_finish hnul]
  split
  · next hlast =>
      obtain ⟨init, rfl⟩ : ∃ init, piece = init ++ [newline] := getLast?_eq_some_iff.mp hlast
      rw [dropLast_concat, prefix_concat_iff]
      constructor
      · exact .inr
      · rintro (h | h)
        · have hmem : newline ∈ ascii "GET" := h ▸ mem_append_right _ mem_cons_self
          exact absurd hmem (by decide)
        · exact h
  · exact Iff.rfl

theorem get_prefix_append {piece next : Bytes} :
    ascii "GET" <+: piece ++ colon :: next ↔ ascii "GET" <+: piece := by
  constructor
  · intro h
    rcases prefix_or_prefix_of_prefix h (prefix_append piece (colon :: next)) with h' | h'
    · exact h'
    · obtain ⟨tail, htail⟩ := h'
      rw [← htail, prefix_append_right_inj] at h
      cases tail with
      | nil =>
        rw [append_nil] at htail
        exact htail ▸ prefix_rfl
      | cons b tail =>
        have hb : b = colon := (cons_prefix_cons.mp h).1
        have hmem : colon ∈ ascii "GET" := by
          rw [← htail, hb]
          exact mem_append_right _ mem_cons_self
        exact absurd hmem (by decide)
  · exact fun h => h.trans (prefix_append _ _)

theorem get_prefix_first {str piece : Bytes} {rest : List Bytes} (hclean : 0 ∉ str)
    (hsplit : str.splitOn colon = piece :: rest) :
    ascii "GET" <+: cString (finish piece) ↔ ascii "GET" <+: str := by
  rcases first_piece str with ⟨-, hwhole⟩ | ⟨first, next, rest', rfl, -, hfirst, -⟩
  · rw [hwhole] at hsplit
    cases hsplit
    exact get_prefix_finish hclean
  · rw [hfirst] at hsplit
    cases hsplit
    have hpiece : (0 : UInt8) ∉ piece := fun h => hclean (mem_append_left _ h)
    rw [get_prefix_append, get_prefix_finish hpiece]

theorem zero_not_mem_cString (buf : Bytes) : (0 : UInt8) ∉ cString buf := by
  intro hmem
  have hne := mem_takeWhile_imp hmem
  simp at hne

theorem serveConnection_of_parsed {piece : Bytes} {rest : List Bytes}
    (hparse : parseRequest 1 (inBuffer BUFSIZE data) =
      .ok (((piece :: rest).map finish).map some, (piece :: rest).length)) :
    serveConnection 1 data =
      if ascii "GET" <+: cString (finish piece) then
        match rest.head? with
        | none => .error .pastArgs
        | some path => .ok (some (cString (finish path)))
      else .ok none := by
  have hfree : freeArgsList (((piece :: rest).map finish).map some) (piece :: rest).length 0 =
      .ok () := freeArgsList_eq (by simp)
  have hfirst : argAt (((piece :: rest).map finish).map some) 0 = .ok (finish piece) := rfl
  rw [serveConnection, hparse]
  simp only [Except.bind, hfirst, getOpType_eq (zero_mem_finish piece), getOpType_get, hfree]
  by_cases hget : ascii "GET" <+: cString (finish piece)
  · simp only [if_pos hget]
    cases rest with
    | nil => rfl
    | cons path rest =>
      have hbegins : cString (finish path) <+: finish path := takeWhile_prefix _
      have hsecond : argAt (((piece :: path :: rest).map finish).map some) 1 =
          .ok (finish path) := rfl
      simp only [hsecond, strlen_eq, if_pos (zero_mem_finish path), Except.map,
        ← prefix_iff_eq_take.mp hbegins, head?_cons]
  · simp only [if_neg hget, Except.map]

theorem serveConnection_eq (hdata : data.length ≤ BUFSIZE) :
    serveConnection 1 data =
      if data.length < BUFSIZE ∨ 0 ∈ data then
        if [] ∈ (cString data).splitOn colon then .error .beforeBlock
        else if ascii "GET" <+: cString data then
          match ((cString data).splitOn colon)[1]? with
          | none => .error .pastArgs
          | some path => .ok (some (cString (finish path)))
        else .ok none
      else .error .pastRequest := by
  by_cases hnul : 0 ∈ inBuffer BUFSIZE data
  · rw [if_pos ((zero_mem_inBuffer hdata).mp hnul)]
    have hfits : (cString (inBuffer BUFSIZE data)).length < 2 ^ 31 := by
      have hle : (cString data).length ≤ data.length := (List.takeWhile_prefix _).length_le
      rw [cString_inBuffer]
      have : BUFSIZE = 8192 := rfl
      omega
    have hparse := parseRequest_refines hnul hfits
    rw [parseRequest_eq, cString_inBuffer] at hparse
    by_cases hempty : [] ∈ (cString data).splitOn colon
    · rw [if_pos hempty] at hparse ⊢
      rw [serveConnection, hparse]
      rfl
    · rw [if_neg hempty] at hparse ⊢
      obtain ⟨piece, rest, hsplit⟩ := exists_cons_of_ne_nil
        (splitOn_ne_nil colon (cString data))
      have hfirst := get_prefix_first (zero_not_mem_cString data) hsplit
      rw [hsplit] at hparse ⊢
      simp only [length_map] at hparse
      rw [serveConnection_of_parsed hparse, getElem?_cons_succ, ← head?_eq_getElem?]
      simp only [hfirst]
  · rw [if_neg fun h => hnul ((zero_mem_inBuffer hdata).mpr h), serveConnection, parseRequest,
      strlen_eq, if_neg hnul]
    rfl

/-- **The checks change nothing**: the handling in the model of the transfers faults exactly where
an access is out of bounds, and opens the same file otherwise. -/
theorem serveConnection_unchecked (disk : Disk) (hdata : data.length ≤ BUFSIZE) :
    Tcp.serveConnection disk data =
      match serveConnection 1 data with
      | .error _ => .fault
      | .ok none => .closed
      | .ok (some path) =>
        match openFile disk path with
        | none => .sendErr
        | some fileInfo => .sendOk fileInfo := by
  rw [serveConnection_eq hdata, Tcp.serveConnection]
  by_cases hnul : 0 ∈ inBuffer BUFSIZE data
  · rw [if_pos ((zero_mem_inBuffer hdata).mp hnul), if_neg (not_not.mpr hnul), parseRequest_eq,
      cString_inBuffer]
    by_cases hempty : [] ∈ (cString data).splitOn colon
    · rw [if_pos hempty, if_pos hempty]
    · rw [if_neg hempty, if_neg hempty]
      obtain ⟨piece, rest, hsplit⟩ := exists_cons_of_ne_nil
        (splitOn_ne_nil colon (cString data))
      have hhead : ascii "GET" <+: cString ((((cString data).splitOn colon).map finish).headD []) ↔
          ascii "GET" <+: cString data := by
        rw [hsplit]
        exact get_prefix_first (zero_not_mem_cString data) hsplit
      simp only [getOpType_get, hhead, getElem?_map]
      by_cases hget : ascii "GET" <+: cString data
      · simp only [if_pos hget]
        cases ((cString data).splitOn colon)[1]? with
        | none => rfl
        | some path => rfl
      · simp only [if_neg hget]
  · rw [if_neg fun h => hnul ((zero_mem_inBuffer hdata).mpr h), if_pos hnul]

theorem serveConnection_unchecked_get :
    Tcp.serveConnection ⟨fun _ => none, nofun, nofun⟩ (ascii "GET:a\n") = .sendErr :=
  (serveConnection_unchecked _ (by decide)).trans (by decide +kernel)

end Serving

/-- `serve_connection` and the functions it calls stay inside of the request, the blocks and the
arguments. -/
def Safe (spare : Nat) (data : Bytes) : Prop := ∃ path, serveConnection spare data = .ok path

/-- **Memory safety of request handling.** Whatever the first `read` delivers, the source accesses
memory outside of an object. If each block had room for its terminator, it would be safe exactly for
the requests that leave a terminator in the buffer, have no empty token and name a file if they ask
for one. -/
theorem request_memory_safe_iff (data : Bytes) (hdata : data.length ≤ BUFSIZE) :
    ¬ Safe 0 data ∧
      (Safe 1 data ↔ (data.length < BUFSIZE ∨ 0 ∈ data) ∧ [] ∉ (cString data).splitOn colon ∧
        (ascii "GET" <+: cString data → colon ∈ cString data)) := by
  constructor
  · rintro ⟨path, hserve⟩
    obtain ⟨violation, hparse⟩ := parseRequest_tight (inBuffer BUFSIZE data)
    rw [serveConnection, hparse] at hserve
    cases hserve
  · rw [Safe, serveConnection_eq hdata]
    by_cases hnul : data.length < BUFSIZE ∨ 0 ∈ data
    · by_cases hempty : [] ∈ (cString data).splitOn colon
      · rw [if_pos hnul, if_pos hempty]
        exact iff_of_false (by simp) fun h => h.2.1 hempty
      · by_cases hget : ascii "GET" <+: cString data
        · have hcount := length_splitOn (cString data)
          rw [if_pos hnul, if_neg hempty, if_pos hget]
          cases hsecond : ((cString data).splitOn colon)[1]? with
          | none =>
            have hfew := List.getElem?_eq_none_iff.mp hsecond
            refine iff_of_false (by simp) fun h => ?_
            have hcolon := count_pos_iff.mpr (h.2.2 hget)
            omega
          | some path =>
            have hmany := (List.getElem?_eq_some_iff.mp hsecond).1
            refine iff_of_true ⟨_, rfl⟩ ⟨hnul, hempty, fun _ => ?_⟩
            rw [← count_pos_iff]
            omega
        · rw [if_pos hnul, if_neg hempty, if_neg hget]
          exact iff_of_true ⟨none, rfl⟩ ⟨hnul, hempty, fun h => absurd h hget⟩
    · rw [if_neg hnul]
      exact iff_of_false (by simp) fun h => hnul h.1

/-- The request for a file of one letter. -/
theorem request_memory_safe_get : ¬ Safe 0 (ascii "GET:a\n") ∧ Safe 1 (ascii "GET:a\n") := by
  obtain ⟨htight, hroom⟩ := request_memory_safe_iff (ascii "GET:a\n") (by decide)
  exact ⟨htight, hroom.mpr (by decide +kernel)⟩

/-- The terminator of the first token is written behind its block, in every request. -/
theorem request_overwrites_block :
    serveConnection 0 (ascii "GET:a\n") = .error .pastBlock ∧
      serveConnection 1 (ascii "GET\n") = .error .pastArgs ∧
      serveConnection 1 [] = .error .beforeBlock := by
  decide +kernel

end LinuxWorkouts.Tcp.Checked
