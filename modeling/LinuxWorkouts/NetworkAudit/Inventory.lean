import LinuxWorkouts.Lib.StdString
import LinuxWorkouts.NetworkAudit.Interfaces

/-!
The records that `get_network_interfaces_info` makes of a whole output of `ip address`.

The rows are recognised by an index of the digits 1 to 9, so an entry whose index has a zero belongs
to the token of the entry before it. Up to nine entries there is one token for each (`tokensOf`);
from ten on there are fewer (`length_splitRows`).
-/

namespace LinuxWorkouts.NetworkAudit

open List

/-! ### Where a row starts -/

variable {k : Nat} {c : Char} {t : Str}

section Index

theorem isIndexDigit_of_mem (hc : c ∈ Nat.toDigits 10 k) (hzero : c ≠ '0') : isIndexDigit c := by
  have hdigit := Nat.isDigit_of_mem_toDigits (by decide) (by decide) hc
  simp only [Char.isDigit, Bool.and_eq_true, decide_eq_true_eq, UInt32.le_iff_toNat_le] at hdigit
  have hne : c.val.toNat ≠ 48 := fun h => hzero (Char.ext (UInt32.toNat_inj.mp h))
  simp only [isIndexDigit, Bool.and_eq_true, decide_eq_true_eq, Char.le_def, UInt32.le_iff_toNat_le]
  have hlow : ('0' : Char).val.toNat = 48 := rfl
  have hone : ('1' : Char).val.toNat = 49 := rfl
  exact ⟨by omega, hdigit.2⟩

theorem afterIndex_toDigits (hzero : '0' ∉ Nat.toDigits 10 k) (rest : Str) :
    afterIndex (Nat.toDigits 10 k ++ ':' :: rest) = some rest := by
  have hall : ∀ c ∈ Nat.toDigits 10 k, isIndexDigit c := fun c hc =>
    isIndexDigit_of_mem hc fun h => hzero (h ▸ hc)
  have htake : (Nat.toDigits 10 k ++ ':' :: rest).takeWhile isIndexDigit = Nat.toDigits 10 k := by
    rw [takeWhile_append_of_pos hall, takeWhile_cons_of_neg (by decide), append_nil]
  have hdrop : (Nat.toDigits 10 k ++ ':' :: rest).dropWhile isIndexDigit = ':' :: rest := by
    rw [dropWhile_append_of_pos hall, dropWhile_cons_of_neg (by decide)]
  rw [afterIndex, htake, hdrop, if_pos ⟨Nat.toDigits_ne_nil, rfl⟩]
  rfl

theorem afterIndex_zero (hzero : '0' ∈ Nat.toDigits 10 k) (rest : Str) :
    afterIndex (Nat.toDigits 10 k ++ rest) = none := by
  obtain ⟨front, back, hsplit, hfront⟩ := eq_append_cons_of_mem hzero
  have hall : ∀ c ∈ front, isIndexDigit c := fun c hc =>
    isIndexDigit_of_mem (hsplit ▸ mem_append_left _ hc) fun h => hfront (h ▸ hc)
  have hdrop : (Nat.toDigits 10 k ++ rest).dropWhile isIndexDigit = '0' :: (back ++ rest) := by
    rw [hsplit, append_assoc, dropWhile_append_of_pos hall, cons_append,
      dropWhile_cons_of_neg (by decide)]
  rw [afterIndex, hdrop, if_neg]
  rintro ⟨-, h⟩
  cases h

end Index

/-! ### Rows -/

section Rows

theorem splitRows_cons_of_ne (hc : c ≠ '\n') (s : Str) :
    splitRows (c :: s) = (splitRows s).modifyHead (c :: ·) := by
  rw [splitRows, if_neg hc]

theorem splitRows_break {s : Str} (h : afterIndex s = none) :
    splitRows ('\n' :: s) = (splitRows s).modifyHead ('\n' :: ·) := by
  rw [splitRows, if_pos rfl]
  split <;> simp_all

theorem splitRows_index {s rest : Str} (h : afterIndex s = some rest) :
    splitRows ('\n' :: s) = [] :: splitRows rest := by
  rw [splitRows, if_pos rfl]
  split <;> simp_all

def Quiet (t : Str) : Prop := ∀ s, splitRows (t ++ s) = (splitRows s).modifyHead (t ++ ·)

theorem quiet_nil : Quiet [] := by
  intro s
  cases h : splitRows s <;> simp [h]

theorem Quiet.append {u : Str} (ht : Quiet t) (hu : Quiet u) : Quiet (t ++ u) := by
  intro s
  rw [append_assoc, ht, hu, modifyHead_modifyHead]
  congr 1
  funext x
  exact (append_assoc t u x).symm

theorem quiet_of_not_mem (h : '\n' ∉ t) : Quiet t := by
  induction t with
  | nil => exact quiet_nil
  | cons c t ih =>
    obtain ⟨hc, ht⟩ := ne_and_not_mem_of_not_mem_cons h
    intro s
    rw [cons_append, splitRows_cons_of_ne hc.symm, ih ht, modifyHead_modifyHead]
    rfl

theorem Quiet.newline (ht : Quiet t) (hindent : t.head? = some ' ') : Quiet ('\n' :: t) := by
  intro s
  have hnone : afterIndex (t ++ s) = none := by
    cases t with
    | nil => cases hindent
    | cons c t =>
      cases hindent
      rw [cons_append, afterIndex, takeWhile_cons_of_neg (by decide), if_neg]
      exact fun h => h.1 rfl
  rw [cons_append, splitRows_break hnone, ht, modifyHead_modifyHead]
  rfl

theorem quiet_lineText {line : List Piece} (h : ∀ p ∈ line, IsWord p.word) :
    Quiet (lineText line) := by
  refine quiet_of_not_mem fun hmem => ?_
  obtain ⟨p, hp, hmem⟩ := mem_flatMap.mp hmem
  rcases mem_append.mp hmem with hmem | hmem
  · exact absurd (eq_of_mem_replicate hmem) (by decide)
  · exact absurd ((h p hp).2 _ hmem) (by decide)

theorem head_lineText {line : List Piece} (h : line ≠ []) : (lineText line).head? = some ' ' := by
  obtain ⟨p, line, rfl⟩ := exists_cons_of_ne_nil h
  rfl

theorem Entry.quiet_body (e : Entry) : Quiet e.body := by
  obtain ⟨hfirst, hrest⟩ := forall_mem_cons.mp e.isWord
  have hne := (forall_mem_cons.mp e.lines_ne).2
  rw [Entry.body, Printout.lines, map_cons, intercalate_cons]
  refine (quiet_lineText hfirst).append ?_
  -- the other lines, each one behind its line break
  generalize e.link.line linkEther :: e.inet.line inetKey :: e.others = lines at hrest hne
  induction lines with
  | nil => exact quiet_nil
  | cons line lines ih =>
    obtain ⟨hline, hlines⟩ := forall_mem_cons.mp hrest
    obtain ⟨hlineNe, hlinesNe⟩ := forall_mem_cons.mp hne
    rw [map_cons, flatMap_cons]
    exact ((quiet_lineText hline).newline (head_lineText hlineNe)).append (ih hlines hlinesNe)

end Rows

/-! ### Tokens -/

section Tokens

def tokensOf : List Entry → List Str
  | [] => []
  | e :: es => (e.body ++ if es = [] then ['\n'] else []) :: tokensOf es

theorem zero_not_mem_toDigits (hlow : 1 ≤ k) (hhigh : k ≤ 9) : '0' ∉ Nat.toDigits 10 k := by
  interval_cases k <;> decide

theorem splitRows_entriesText (e : Entry) (es : List Entry) (hlow : 1 ≤ k)
    (hhigh : k + es.length ≤ 10) :
    (splitRows ('\n' :: entriesText k es)).modifyHead (e.body ++ ·) = tokensOf (e :: es) := by
  induction es generalizing k e with
  | nil =>
    rw [entriesText, splitRows_break rfl, splitRows]
    rfl
  | cons next es ih =>
    rw [length_cons] at hhigh
    have hindex := zero_not_mem_toDigits hlow (by omega)
    rw [entriesText, splitRows_index (afterIndex_toDigits hindex _), next.quiet_body,
      ih next (by omega) (by omega)]
    rfl

theorem quiet_index (k : Nat) : Quiet (Nat.toDigits 10 k ++ [':']) := by
  refine quiet_of_not_mem fun hmem => ?_
  rcases mem_append.mp hmem with hmem | hmem
  · exact absurd (Nat.isDigit_of_mem_toDigits (by decide) (by decide) hmem) (by decide)
  · exact absurd (mem_singleton.mp hmem) (by decide)

theorem length_splitRows (k : Nat) (es : List Entry) :
    (splitRows ('\n' :: entriesText k es)).length =
      1 + ((range' k es.length).filter fun i => '0' ∉ Nat.toDigits 10 i).length := by
  induction es generalizing k with
  | nil =>
    rw [entriesText, splitRows_break rfl, splitRows]
    rfl
  | cons e es ih =>
    rw [entriesText, length_cons, range'_succ]
    by_cases hzero : '0' ∈ Nat.toDigits 10 k
    · have hquiet := (quiet_index k).append e.quiet_body
      rw [splitRows_break (afterIndex_zero hzero _), append_cons, ← append_assoc,
        hquiet, length_modifyHead, length_modifyHead, ih,
        filter_cons_of_neg (by simpa using hzero)]
    · rw [splitRows_index (afterIndex_toDigits hzero _), e.quiet_body, length_cons,
        length_modifyHead, ih, filter_cons_of_pos (by simpa using hzero),
        length_cons]
      omega

theorem reSplit_ipText (e : Entry) (es : List Entry) :
    reSplit (ipText (e :: es)) =
      [] :: (splitRows ('\n' :: entriesText 2 es)).modifyHead (e.body ++ ·) := by
  have hindex := afterIndex_toDigits (zero_not_mem_toDigits le_rfl (by decide))
    (e.body ++ '\n' :: entriesText 2 es)
  rw [ipText, entriesText, reSplit, hindex, ← e.quiet_body]

theorem body_ne (e : Entry) : e.body ≠ [] := by
  rw [Entry.body, Printout.lines, map_cons, intercalate_cons]
  exact cons_ne_nil _ _

theorem empty_not_mem_tokensOf (entries : List Entry) : [] ∉ tokensOf entries := by
  induction entries with
  | nil => exact not_mem_nil
  | cons e es ih =>
    refine not_mem_cons_of_ne_of_not_mem ?_ ih
    exact (append_ne_nil_of_left_ne_nil (body_ne e) _).symm

theorem delEmpty_empty_cons (tokens : List Str) :
    delEmpty ([] :: tokens) = cleaned (seen tokens.tail) tokens := by
  rw [delEmpty_eq, seen_empty_cons, iterate_erase_succ_cons, cleaned]

theorem delEmpty_reSplit (e : Entry) (es : List Entry) (hlength : (e :: es).length ≤ 9) :
    delEmpty (reSplit (ipText (e :: es))) = tokensOf (e :: es) := by
  rw [length_cons] at hlength
  have hnone := empty_not_mem_tokensOf (e :: es)
  have hcount : (tokensOf (e :: es)).count [] ≤ seen (tokensOf (e :: es)).tail :=
    (count_eq_zero_of_not_mem hnone).trans_le (Nat.zero_le _)
  rw [reSplit_ipText, splitRows_entriesText e es (by decide) (by omega), delEmpty_empty_cons,
    cleaned, iterate_erase_of_count_le hcount]
  exact filter_eq_self.mpr fun t ht => decide_eq_true fun h => hnone (h ▸ ht)

theorem length_delEmpty_reSplit (e : Entry) (es : List Entry) (hlength : 10 ≤ (e :: es).length) :
    (delEmpty (reSplit (ipText (e :: es)))).length < (e :: es).length := by
  rw [length_cons] at hlength
  have hten : ((range' 2 es.length).filter fun i => '0' ∉ Nat.toDigits 10 i).length <
      (range' 2 es.length).length :=
    length_filter_lt_length_iff_exists.mpr
      ⟨10, mem_range'_1.mpr ⟨by decide, by omega⟩, by decide⟩
  rw [length_range'] at hten
  calc (delEmpty (reSplit (ipText (e :: es)))).length
      ≤ (splitRows ('\n' :: entriesText 2 es)).length := by
        rw [reSplit_ipText, delEmpty_empty_cons, cleaned]
        exact (length_iterate_erase_le _ _).trans (length_modifyHead ..).le
    _ < (e :: es).length := by
        rw [length_splitRows, length_cons]
        omega

end Tokens

/-! ### Records -/

section Records

theorem mapM_eq_ok_iff {ε α β : Type*} {f : α → Except ε β} {as : List α} {bs : List β} :
    as.mapM f = .ok bs ↔ List.Forall₂ (fun a b => f a = .ok b) as bs := by
  induction as generalizing bs with
  | nil =>
    rw [mapM_nil, forall₂_nil_left_iff]
    exact ⟨fun h => by cases h; rfl, fun h => h ▸ rfl⟩
  | cons a as ih =>
    rw [mapM_cons, forall₂_cons_left_iff]
    constructor
    · intro h
      obtain ⟨b, hb, h⟩ := StdString.bind_eq_ok.mp h
      obtain ⟨rest, hrest, h⟩ := StdString.bind_eq_ok.mp h
      cases h
      exact ⟨b, rest, hb, ih.mp hrest, rfl⟩
    · rintro ⟨b, rest, hb, hrest, rfl⟩
      exact StdString.bind_eq_ok.mpr
        ⟨b, hb, StdString.bind_eq_ok.mpr ⟨rest, ih.mpr hrest, rfl⟩⟩

theorem getNetworkInterfacesInfo_eq_iff {e : Entry} {es : List Entry} {infos : List Interface} :
    getNetworkInterfacesInfo (ipText (e :: es)) = .ok (some infos) ↔
      List.Forall₂ (fun token info => interfaceInfo token = .ok info)
        (delEmpty (reSplit (ipText (e :: es)))) infos := by
  have htext : ipText (e :: es) ≠ [] := by
    rw [ipText, entriesText]
    exact append_ne_nil_of_left_ne_nil Nat.toDigits_ne_nil _
  rw [getNetworkInterfacesInfo, if_neg htext, ← mapM_eq_ok_iff]
  cases (delEmpty (reSplit (ipText (e :: es)))).mapM interfaceInfo with
  | error err => exact iff_of_false (fun h => by cases h) fun h => by cases h
  | ok infos' => simp [Except.map]

theorem missing_records (e : Entry) (es : List Entry) (hlength : 10 ≤ (e :: es).length)
    (infos : List Interface) (hinfos : infos.length = (e :: es).length) :
    ¬ List.Forall₂ (fun token info => interfaceInfo token = .ok info)
      (delEmpty (reSplit (ipText (e :: es)))) infos := by
  intro h
  have hshort := length_delEmpty_reSplit e es hlength
  rw [h.length_eq, hinfos] at hshort
  exact Nat.lt_irrefl _ hshort

theorem space_not_mem_ending (es : List Entry) : ' ' ∉ if es = [] then ['\n'] else [] := by
  split_ifs <;> decide

theorem forall₂_tokensOf_iff (entries : List Entry) :
    List.Forall₂ (fun token info => interfaceInfo token = .ok info) (tokensOf entries)
        (entries.map Entry.printed) ↔
      (∀ e ∈ entries, e.Cleaned ∧ e.Followed) ∧ ∀ e ∈ entries.getLast?, e.inet.more ≠ [] := by
  induction entries with
  | nil => exact iff_of_true .nil ⟨forall_mem_nil _, fun e he => by cases he⟩
  | cons e es ih =>
    obtain ⟨info, hinfo, hprinted, -⟩ := e.exists_interfaceInfo (space_not_mem_ending es)
    rw [tokensOf, map_cons, forall₂_cons, ih, forall_mem_cons, hinfo,
      Except.ok.injEq, hprinted, Entry.Followed]
    cases es with
    | nil => simp; tauto
    | cons next es =>
      rw [getLast?_cons_cons]
      simp only [cons_ne_nil, if_false, and_true, and_assoc]

/-- **The inventory.** For up to nine entries there is a record for each, with the name as it is
printed and the addresses, iff the spaces before them are taken away and the addresses are not the
last words of their lines, where a line break stays; from ten on records are missing. The name
without its colon is in no record. -/
theorem getNetworkInterfacesInfo_iff (entries : List Entry) (hne : entries ≠ []) :
    (getNetworkInterfacesInfo (ipText entries) = .ok (some (entries.map Entry.printed)) ↔
      entries.length ≤ 9 ∧ (∀ e ∈ entries, e.Cleaned ∧ e.Followed) ∧
        ∀ e ∈ entries.getLast?, e.inet.more ≠ []) ∧
    getNetworkInterfacesInfo (ipText entries) ≠ .ok (some (entries.map Entry.interface)) := by
  obtain ⟨e, es, rfl⟩ := exists_cons_of_ne_nil hne
  rw [Ne, getNetworkInterfacesInfo_eq_iff, getNetworkInterfacesInfo_eq_iff]
  by_cases hlength : (e :: es).length ≤ 9
  · rw [delEmpty_reSplit e es hlength, forall₂_tokensOf_iff]
    refine ⟨⟨fun h => ⟨hlength, h⟩, And.right⟩, fun h => ?_⟩
    obtain ⟨info, hinfo, -, hname⟩ := e.exists_interfaceInfo (space_not_mem_ending es)
    rw [tokensOf, map_cons, forall₂_cons, hinfo] at h
    exact hname (Except.ok.inj h.1)
  · have hmissing := missing_records e es (by omega)
    exact ⟨iff_of_false (hmissing _ (length_map ..)) fun h => hlength h.1,
      hmissing _ (length_map ..)⟩

def eth0Printout : Printout where
  name := ['e', 't', 'h', '0']
  nameExtra := 0
  details := [⟨0, ['<', 'U', 'P', '>']⟩]
  link := ⟨3, 0, ['0', '2', ':', '4', '2', ':', 'a', 'c'], [⟨0, ['b', 'r', 'd']⟩]⟩
  inet := ⟨3, 0, ['1', '0', '.', '0', '.', '0', '.', '2'], [⟨0, ['s', 'c', 'o', 'p', 'e']⟩]⟩
  others := []

theorem eth0_name_ne : eth0Printout.name ≠ [] := cons_ne_nil _ _

theorem eth0_lines_ne : ∀ line ∈ eth0Printout.lines, line ≠ [] := by
  simp [Printout.lines, eth0Printout, Keyed.line]

theorem isSpace_of_graphic (hlow : 33 ≤ c.toNat) (hhigh : c.toNat ≤ 126) : isSpace c = false := by
  simp only [isSpace, Bool.or_eq_false_iff, Bool.and_eq_false_iff, decide_eq_false_iff_not,
    beq_eq_false_iff_ne]
  omega

theorem eth0_isWord : ∀ line ∈ eth0Printout.lines, ∀ p ∈ line, IsWord p.word := by
  have hgraphic : ∀ line ∈ eth0Printout.lines, ∀ p ∈ line,
      p.word ≠ [] ∧ ∀ c ∈ p.word, 33 ≤ c.toNat ∧ c.toNat ≤ 126 := by
    simp [Printout.lines, eth0Printout, Keyed.line, linkEther, inetKey]
  intro line hline p hp
  obtain ⟨hne, hchars⟩ := hgraphic line hline p hp
  exact ⟨hne, fun c hc => isSpace_of_graphic (hchars c hc).1 (hchars c hc).2⟩

theorem eth0_details_ne : ∀ p ∈ eth0Printout.details, p.word ≠ linkEther ∧ p.word ≠ inetKey := by
  decide

theorem eth0_mac_ne : eth0Printout.link.value ≠ inetKey := by decide

theorem eth0_link_more_ne : ∀ p ∈ eth0Printout.link.more, p.word ≠ inetKey := by decide

def eth0 : Entry :=
  { eth0Printout with
    name_ne := eth0_name_ne
    lines_ne := eth0_lines_ne
    isWord := eth0_isWord
    details_ne := eth0_details_ne
    mac_ne := eth0_mac_ne
    link_more_ne := eth0_link_more_ne }

theorem getNetworkInterfacesInfo_eth0 :
    getNetworkInterfacesInfo (ipText [eth0]) = .ok (some [eth0.printed]) := by
  have hmore : eth0.link.more ≠ [] ∧ eth0.inet.more ≠ [] := ⟨cons_ne_nil _ _, cons_ne_nil _ _⟩
  refine (getNetworkInterfacesInfo_iff [eth0] (cons_ne_nil _ _)).1.mpr ⟨by decide, ?_, ?_⟩
  · exact forall_mem_singleton.mpr ⟨⟨.inl rfl, .inl rfl, .inl rfl⟩, hmore.1, .inl hmore.2⟩
  · rintro e ⟨⟩
    exact hmore.2

/-- The entry with index 10 has no record. -/
theorem getNetworkInterfacesInfo_ten :
    getNetworkInterfacesInfo (ipText (replicate 10 eth0)) ≠
        .ok (some ((replicate 10 eth0).map Entry.printed)) ∧
      getNetworkInterfacesInfo (ipText (replicate 10 eth0)) ≠
        .ok (some ((replicate 10 eth0).map Entry.interface)) := by
  have hmissing := missing_records eth0 (replicate 9 eth0) (by simp)
  rw [replicate_succ, Ne, Ne, getNetworkInterfacesInfo_eq_iff, getNetworkInterfacesInfo_eq_iff]
  exact ⟨hmissing _ (length_map ..), hmissing _ (length_map ..)⟩

end Records

end LinuxWorkouts.NetworkAudit
