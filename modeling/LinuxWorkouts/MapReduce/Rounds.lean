import LinuxWorkouts.Lib.GroupReduce
import LinuxWorkouts.Lib.ShortestPath
import LinuxWorkouts.MapReduce.Records

/-!
Breadth-first search by rounds of `mapper.cpp` and `reducer.cpp`.

Between the two programs the lines are shuffled: the order of the groups and the order inside a
group are arbitrary, lines of one vertex only stand together. The shuffles are an input of `rounds`
and the results hold for all of them.

`reducer_eq` says that the reducer is a `GroupReduce.stream` over the parsed lines, and
`Graph.round_lines` what a round does to the distances of a graph. After `k` rounds the records
hold `distanceWithin` for `k` (`Graph.rounds_lines`). `INT_MAX` stands for `INF` in them, so a
vertex at exactly that distance cannot be told from one that was not reached.
-/

namespace LinuxWorkouts.MapReduce

open List

open Ascii (ascii decimal signedDecimal StoiError)
open StdString (bind_eq_ok)
open ShortestPath (Walk IsDistance distanceWithin)
open GroupReduce (Contiguous IsFold stream streamLoop)

/-! ### The programs -/

def mapLine (line : Line) : Except StoiError (List Line) :=
  (parseLine line).map fun curInfo =>
    line ::
      (if curInfo.adjVertex ≠ [] then printAdjVertexInfo curInfo.adjVertex curInfo.dist else [])

def mapper : List Line → Except StoiError (List Line)
  | [] => .ok []
  | line :: lines => (mapLine line).bind fun out => (mapper lines).map (out ++ ·)

/-- `merge_vects`; the map holds what was in `dest` before the loop. -/
def mergeVects (dest source : List Line) : List Line :=
  dest ++ source.filter fun el => !dest.contains el

def addToEnd (dest source : List Line) : List Line := dest ++ source

/-- The loop of `reducer`. -/
def reduceLoop : List Line → VertexInfo → List Line → Int → Except StoiError (List Line)
  | [], prevInfo, totalAdjVertexes, minDist =>
    .ok [printData prevInfo.vertexId minDist totalAdjVertexes]
  | line :: lines, prevInfo, totalAdjVertexes, minDist =>
    (parseLine line).bind fun curInfo =>
      if curInfo.vertexId ≠ prevInfo.vertexId then
        (reduceLoop lines curInfo (addToEnd [] curInfo.adjVertex) curInfo.dist).map
          (printData prevInfo.vertexId minDist totalAdjVertexes :: ·)
      else
        reduceLoop lines curInfo (mergeVects totalAdjVertexes curInfo.adjVertex)
          (if curInfo.dist ≤ minDist then curInfo.dist else minDist)

def reducer (lines : List Line) : Except StoiError (List Line) :=
  (parseLine (lines.headD [])).bind fun prevInfo =>
    reduceLoop lines.tail prevInfo (addToEnd [] prevInfo.adjVertex) prevInfo.dist

/-- The shuffle brings the lines of a vertex together and does nothing else. -/
def Shuffled (lines shuffled : List Line) : Prop :=
  shuffled.Perm lines ∧ Contiguous (shuffled.map getVertexId)

def round (shuffle : List Line → List Line) (lines : List Line) : Except StoiError (List Line) :=
  (mapper lines).bind fun out => reducer (shuffle out)

def rounds (shuffle : Nat → List Line → List Line) :
    Nat → List Line → Except StoiError (List Line)
  | 0, lines => .ok lines
  | k + 1, lines => (rounds shuffle k lines).bind (round (shuffle k))

/-! ### The programs over parsed lines -/

def info (line : Line) : VertexInfo := (parseLine line).toOption.getD ⟨0, 0, []⟩

def Readable (lines : List Line) : Prop := ∀ line ∈ lines, parseLine line = .ok (info line)

variable {line : Line} {a : VertexInfo} {group : List VertexInfo} {b : List Line × Int}
  {dist' : Nat → Nat}

theorem info_eq (h : parseLine line = .ok a) : info line = a := by
  rw [info, h]
  rfl

theorem readable_of (h : parseLine line = .ok a) : parseLine line = .ok (info line) := by
  rw [info_eq h, h]

def sent (a : VertexInfo) : List Line := printAdjVertexInfo a.adjVertex a.dist

theorem mapLine_eq (h : parseLine line = .ok (info line)) :
    mapLine line = .ok (line :: sent (info line)) := by
  rw [mapLine, h, Except.map, sent]
  split
  · rfl
  · next hnil => rw [not_not.mp hnil, printAdjVertexInfo, map_nil]

theorem mapper_eq {lines : List Line} (h : Readable lines) :
    mapper lines = .ok (lines.flatMap fun line => line :: sent (info line)) := by
  induction lines with
  | nil => rfl
  | cons line lines ih =>
    have hrest := ih fun l hl => h l (mem_cons_of_mem _ hl)
    rw [mapper, mapLine_eq (h line mem_cons_self), hrest, flatMap_cons]
    rfl

def start (a : VertexInfo) : List Line × Int := (addToEnd [] a.adjVertex, a.dist)

def absorb (acc : List Line × Int) (a : VertexInfo) : List Line × Int :=
  (mergeVects acc.1 a.adjVertex, if a.dist ≤ acc.2 then a.dist else acc.2)

def printResult (r : Nat × List Line × Int) : Line := printData r.1 r.2.2 r.2.1

theorem reduceLoop_eq {lines : List Line} (h : Readable lines) (prev : VertexInfo)
    (acc : List Line × Int) :
    reduceLoop lines prev acc.1 acc.2 =
      .ok ((streamLoop VertexInfo.vertexId start absorb (lines.map info) prev.vertexId acc).map
        printResult) := by
  induction lines generalizing prev acc with
  | nil => rfl
  | cons line lines ih =>
    have hrest : Readable lines := fun l hl => h l (mem_cons_of_mem _ hl)
    rw [reduceLoop, h line mem_cons_self, Except.bind, map_cons, streamLoop]
    split
    · have hnext := ih hrest (info line) (start (info line))
      rw [start] at hnext
      rw [hnext]
      rfl
    · next heq =>
        have hnext := ih hrest (info line) (absorb acc (info line))
        rw [not_not.mp heq] at hnext
        exact hnext

theorem reducer_eq {lines : List Line} (hne : lines ≠ []) (h : Readable lines) :
    reducer lines =
      .ok ((stream VertexInfo.vertexId start absorb (lines.map info)).map printResult) := by
  obtain ⟨line, lines, rfl⟩ := exists_cons_of_ne_nil hne
  have hrest : Readable lines := fun l hl => h l (mem_cons_of_mem _ hl)
  rw [reducer, headD_cons, h line mem_cons_self]
  exact reduceLoop_eq hrest (info line) (start (info line))

theorem getVertexId_of_parseLine (h : parseLine line = .ok a) :
    getVertexId line = .ok a.vertexId := by
  obtain ⟨vertexId, hid, h⟩ := bind_eq_ok.mp h
  rw [hid]
  cases hdist : getDistanceValue line with
  | error e =>
    rw [hdist] at h
    cases h
  | ok dist =>
    rw [hdist] at h
    cases h
    rfl

theorem contiguous_info {lines : List Line} (h : Readable lines)
    (hgroups : Contiguous (lines.map getVertexId)) :
    Contiguous ((lines.map info).map VertexInfo.vertexId) := by
  refine GroupReduce.Contiguous.of_map (f := Except.ok (ε := StoiError)) ?_ ?_
  · exact fun a b heq => Except.ok.inj heq
  · rw [map_map, map_map]
    have hids : lines.map getVertexId = lines.map ((Except.ok ∘ VertexInfo.vertexId) ∘ info) :=
      map_congr_left fun line hline => getVertexId_of_parseLine (h line hline)
    rwa [← hids]

/-! ### What a group is reduced to -/

theorem foldl_absorb_le_iff {acc : List Line × Int} {n : Int} :
    (group.foldl absorb acc).2 ≤ n ↔ acc.2 ≤ n ∨ ∃ a ∈ group, a.dist ≤ n := by
  induction group generalizing acc with
  | nil => simp
  | cons a group ih =>
    have hmin : (absorb acc a).2 ≤ n ↔ acc.2 ≤ n ∨ a.dist ≤ n := by
      rw [absorb]
      split <;> omega
    rw [foldl_cons, ih, hmin, exists_mem_cons_iff, or_assoc]

theorem isFold_le_iff {n : Int} (h : IsFold start absorb group b) :
    b.2 ≤ n ↔ ∃ a ∈ group, a.dist ≤ n := by
  obtain ⟨a, rest, rfl, rfl⟩ := h
  rw [foldl_absorb_le_iff, exists_mem_cons_iff]
  rfl

theorem foldl_absorb_nil (h : ∀ a ∈ group, a.adjVertex = []) (acc : List Line × Int) :
    (group.foldl absorb acc).1 = acc.1 := by
  induction group generalizing acc with
  | nil => rfl
  | cons a group ih =>
    rw [foldl_cons, ih fun b hb => h b (mem_cons_of_mem _ hb), absorb,
      h a mem_cons_self, mergeVects, filter_nil, append_nil]

theorem isFold_adjVertex {messages : List VertexInfo} {own : VertexInfo}
    (h : IsFold start absorb group b) (hgroup : group.Perm (own :: messages))
    (hmessages : ∀ a ∈ messages, a.adjVertex = []) : b.1 = own.adjVertex := by
  obtain ⟨before, behind, rfl⟩ := append_of_mem (hgroup.mem_iff.mpr mem_cons_self)
  have hothers : (before ++ behind).Perm messages := (perm_middle.symm.trans hgroup).cons_inv
  have hbefore : ∀ a ∈ before, a.adjVertex = [] := fun a ha =>
    hmessages a (hothers.mem_iff.mp (mem_append_left _ ha))
  have hbehind : ∀ a ∈ behind, a.adjVertex = [] := fun a ha =>
    hmessages a (hothers.mem_iff.mp (mem_append_right _ ha))
  obtain ⟨first, rest, hfirst, rfl⟩ := h
  cases before with
  | nil =>
    obtain ⟨rfl, rfl⟩ := cons.inj hfirst
    rw [foldl_absorb_nil hbehind]
    rfl
  | cons a before =>
    -- A message comes first, so the list is still empty when the vertex's own line is merged.
    rw [cons_append] at hfirst
    obtain ⟨rfl, rfl⟩ := cons.inj hfirst
    have hempty : (before.foldl absorb (start a)).1 = [] := by
      rw [foldl_absorb_nil fun c hc => hbefore c (mem_cons_of_mem _ hc), start, addToEnd,
        hbefore a mem_cons_self, append_nil]
    rw [foldl_append, foldl_cons, foldl_absorb_nil hbehind, absorb, hempty, mergeVects]
    simp

/-! ### Graphs as records -/

/-- A finite directed graph with a source. -/
structure Graph where
  vertices : List Nat
  adj : Nat → List Nat
  source : Nat
  nodup : vertices.Nodup
  bounded : ∀ v ∈ vertices, v ≤ intMax
  closed : ∀ v ∈ vertices, ∀ w ∈ adj v, w ∈ vertices
  source_mem : source ∈ vertices

namespace Graph

variable (G : Graph)

def edge (u v : Nat) : Prop := u ∈ G.vertices ∧ v ∈ G.adj u

def names (v : Nat) : List Line := (G.adj v).map decimal

def recordLine (v : Nat) (dist : Option Nat) : Line :=
  record (decimal v) (dist.elim (ascii "INF") decimal) (G.names v)

/-- The input: one record for every vertex, the source with distance 0. -/
def input : List Line :=
  G.vertices.map fun v => G.recordLine v (if v = G.source then some 0 else none)

/-- The distance as a record holds it. -/
def shown (d : Nat) : Option Nat := if d < intMax then some d else none

def lines (dist : Nat → Nat) : List Line := G.vertices.map fun v => G.recordLine v (shown (dist v))

def own (dist : Nat → Nat) (v : Nat) : VertexInfo := ⟨v, dist v, G.names v⟩

/-- What the neighbours of a vertex are told. -/
def messages (dist : Nat → Nat) (v : Nat) : List VertexInfo :=
  (G.adj v).map fun w => ⟨w, (min intMax (dist v + 1) : Nat), []⟩

variable {G} {dist : Nat → Nat} {v : Nat}

theorem isName_of_mem_names {name : Line} (h : name ∈ G.names v) : IsName name := by
  obtain ⟨w, -, rfl⟩ := mem_map.mp h
  exact isName_decimal w

theorem printDist_eq {d : Nat} (h : d ≤ intMax) :
    printDist d = (shown d).elim (ascii "INF") decimal := by
  rw [printDist, shown]
  by_cases hlt : d < intMax
  · rw [if_neg (by omega), if_pos hlt]
    rfl
  · rw [if_pos (by omega), if_neg hlt]
    rfl

theorem printData_eq (h : dist v ≤ intMax) :
    printData v (dist v) (G.names v) = G.recordLine v (shown (dist v)) := by
  rw [printData, printDist_eq h, recordLine]

theorem parseLine_recordLine (hv : v ∈ G.vertices) (h : dist v ≤ intMax) :
    parseLine (G.recordLine v (shown (dist v))) = .ok (G.own dist v) := by
  rw [← printData_eq h]
  exact parseLine_printData (G.bounded v hv) h fun _ => isName_of_mem_names

theorem parseLine_sent (hv : v ∈ G.vertices) (h : dist v ≤ intMax) :
    (∀ line ∈ sent (G.own dist v), parseLine line = .ok (info line)) ∧
      (sent (G.own dist v)).map info = G.messages dist v := by
  have hread : ∀ w ∈ G.adj v, parseLine (record (decimal w)
      (if (dist v : Int) = intMax then ascii "INF" else signedDecimal (dist v + 1)) []) =
        .ok ⟨w, (min intMax (dist v + 1) : Nat), []⟩ := by
    intro w hw
    have hbound := G.bounded w (G.closed v hv w hw)
    split
    · next heq =>
        have hmin : min intMax (dist v + 1) = intMax := by omega
        rw [hmin]
        exact parseLine_decimal hbound isField_inf rfl (by simp)
    · next hne =>
        have hfits : dist v + 1 ≤ intMax := by omega
        rw [Nat.min_eq_right hfits]
        exact parseLine_decimal hbound (isField_decimal _) (distanceOf_decimal hfits) (by simp)
  have hsent : sent (G.own dist v) = (G.adj v).map fun w => record (decimal w)
      (if (dist v : Int) = intMax then ascii "INF" else signedDecimal (dist v + 1)) [] := by
    rw [sent, own, names, printAdjVertexInfo, map_map]
    rfl
  rw [hsent]
  constructor
  · intro line hline
    obtain ⟨w, hw, rfl⟩ := mem_map.mp hline
    exact readable_of (hread w hw)
  · rw [map_map, messages]
    exact map_congr_left fun w hw => info_eq (hread w hw)

/-! ### One round -/

variable (G) in
def Relaxes (dist dist' : Nat → Nat) : Prop :=
  ∀ v n, dist' v ≤ n ↔ dist v ≤ n ∨ ∃ u, G.edge u v ∧ min intMax (dist u + 1) ≤ n

theorem mapper_lines {ls : List Line} (hle : ∀ v, dist v ≤ intMax)
    (hls : ls.Perm (G.lines dist)) :
    ∃ out, mapper ls = .ok out ∧ Readable out ∧
      (out.map info).Perm
        (G.vertices.map (G.own dist) ++ G.vertices.flatMap (G.messages dist)) := by
  have hmem : ∀ line ∈ ls, ∃ v ∈ G.vertices, G.recordLine v (shown (dist v)) = line := fun line h =>
    mem_map.mp (hls.mem_iff.mp h)
  have hreadable : Readable ls := by
    intro line hline
    obtain ⟨v, hv, rfl⟩ := hmem line hline
    exact readable_of (parseLine_recordLine hv (hle v))
  refine ⟨_, mapper_eq hreadable, ?_, ?_⟩
  · intro line hline
    obtain ⟨origin, horigin, hline⟩ := mem_flatMap.mp hline
    obtain ⟨v, hv, rfl⟩ := hmem origin horigin
    rcases mem_cons.mp hline with rfl | hline
    · exact hreadable _ horigin
    · rw [info_eq (parseLine_recordLine hv (hle v))] at hline
      exact (parseLine_sent hv (hle v)).1 line hline
  · have hpieces : ∀ v ∈ G.vertices,
        (G.recordLine v (shown (dist v)) ::
            sent (info (G.recordLine v (shown (dist v))))).map info =
          G.own dist v :: G.messages dist v := by
      intro v hv
      rw [map_cons, info_eq (parseLine_recordLine hv (hle v)), (parseLine_sent hv (hle v)).2]
    have hinfo : ((G.lines dist).flatMap fun line => line :: sent (info line)).map info =
        G.vertices.flatMap fun v => G.own dist v :: G.messages dist v := by
      rw [lines, flatMap_map, map_flatMap]
      exact flatMap_congr hpieces
    refine ((hls.flatMap_right _).map info).trans ?_
    rw [hinfo]
    exact (map_append_flatMap_perm _ _ _).symm

theorem group_perm {infos : List VertexInfo} (hv : v ∈ G.vertices)
    (h : infos.Perm (G.vertices.map (G.own dist) ++ G.vertices.flatMap (G.messages dist))) :
    (infos.filter (·.vertexId = v)).Perm
      (G.own dist v :: (G.vertices.flatMap (G.messages dist)).filter (·.vertexId = v)) := by
  have hown : (G.vertices.map (G.own dist)).filter (·.vertexId = v) = [G.own dist v] := by
    have hone : G.vertices.filter (· = v) = [v] := by
      rw [filter_eq, count_eq_one_of_mem G.nodup hv, replicate_one]
    rw [filter_map]
    exact congrArg (map (G.own dist)) hone
  refine (h.filter _).trans ?_
  rw [filter_append, hown, singleton_append]

theorem mem_messages_iff :
    a ∈ G.vertices.flatMap (G.messages dist) ↔
      ∃ u w, G.edge u w ∧ a = ⟨w, (min intMax (dist u + 1) : Nat), []⟩ := by
  rw [mem_flatMap]
  constructor
  · rintro ⟨u, hu, ha⟩
    obtain ⟨w, hw, rfl⟩ := mem_map.mp ha
    exact ⟨u, w, ⟨hu, hw⟩, rfl⟩
  · rintro ⟨u, w, ⟨hu, hw⟩, rfl⟩
    exact ⟨u, hu, mem_map.mpr ⟨w, hw, rfl⟩⟩

theorem mem_vertexIds_iff :
    v ∈ (G.vertices.map (G.own dist) ++ G.vertices.flatMap (G.messages dist)).map
      VertexInfo.vertexId ↔ v ∈ G.vertices := by
  rw [mem_map]
  constructor
  · rintro ⟨a, ha, rfl⟩
    rcases mem_append.mp ha with ha | ha
    · obtain ⟨u, hu, rfl⟩ := mem_map.mp ha
      exact hu
    · obtain ⟨u, w, hedge, rfl⟩ := mem_messages_iff.mp ha
      exact G.closed u hedge.1 w hedge.2
  · intro hv
    exact ⟨G.own dist v, mem_append_left _ (mem_map_of_mem hv), rfl⟩

theorem reduced (hrelaxes : G.Relaxes dist dist') (hb : IsFold start absorb group b)
    (hgroup : group.Perm
      (G.own dist v :: (G.vertices.flatMap (G.messages dist)).filter (·.vertexId = v))) :
    b = (G.names v, (dist' v : Int)) := by
  have hadj : b.1 = G.names v := by
    refine isFold_adjVertex hb hgroup fun a ha => ?_
    obtain ⟨u, w, -, rfl⟩ := mem_messages_iff.mp (mem_of_mem_filter ha)
    rfl
  have hle : ∀ n : Int, b.2 ≤ n ↔ (dist v : Int) ≤ n ∨
      ∃ u, G.edge u v ∧ ((min intMax (dist u + 1) : Nat) : Int) ≤ n := by
    intro n
    rw [isFold_le_iff hb]
    constructor
    · rintro ⟨a, ha, han⟩
      rcases mem_cons.mp (hgroup.mem_iff.mp ha) with rfl | ha
      · exact .inl han
      · obtain ⟨ha, hid⟩ := mem_filter.mp ha
        obtain ⟨u, w, hedge, rfl⟩ := mem_messages_iff.mp ha
        obtain rfl : w = v := of_decide_eq_true hid
        exact .inr ⟨u, hedge, han⟩
    · rintro (hn | ⟨u, hedge, hn⟩)
      · exact ⟨_, hgroup.mem_iff.mpr mem_cons_self, hn⟩
      · refine ⟨⟨v, (min intMax (dist u + 1) : Nat), []⟩, hgroup.mem_iff.mpr ?_, hn⟩
        refine mem_cons_of_mem _ (mem_filter.mpr ⟨?_, decide_eq_true rfl⟩)
        exact mem_messages_iff.mpr ⟨u, v, hedge, rfl⟩
  have hnonneg : 0 ≤ b.2 := by
    by_contra hneg
    rcases (hle b.2).mp (le_refl _) with h | ⟨u, -, h⟩ <;> omega
  obtain ⟨m, hm⟩ := Int.eq_ofNat_of_zero_le hnonneg
  have hmin : m = dist' v := by
    refine eq_of_forall_ge_iff fun n => ?_
    have hn := hle n
    rw [hm] at hn
    rw [hrelaxes v n]
    exact_mod_cast hn
  exact Prod.ext hadj (by rw [hm, hmin])

theorem stream_perm {infos : List VertexInfo} (hrelaxes : G.Relaxes dist dist')
    (hgroups : Contiguous (infos.map VertexInfo.vertexId))
    (h : infos.Perm (G.vertices.map (G.own dist) ++ G.vertices.flatMap (G.messages dist))) :
    (stream VertexInfo.vertexId start absorb infos).Perm
      (G.vertices.map fun v => (v, G.names v, (dist' v : Int))) := by
  obtain ⟨hnodup, hkeys, hfolds⟩ := GroupReduce.stream_spec start absorb hgroups
  generalize stream VertexInfo.vertexId start absorb infos = results at hnodup hkeys hfolds ⊢
  have hvertices : (results.map Prod.fst).Perm G.vertices := by
    refine (perm_ext_iff_of_nodup hnodup G.nodup).mpr fun v => ?_
    rw [hkeys, (h.map VertexInfo.vertexId).mem_iff]
    exact mem_vertexIds_iff
  have hresults : results =
      (results.map Prod.fst).map fun v => (v, G.names v, (dist' v : Int)) := by
    rw [map_map]
    refine (map_id results).symm.trans (map_congr_left fun r hr => ?_)
    have hv : r.1 ∈ G.vertices := hvertices.mem_iff.mp (mem_map_of_mem hr)
    exact Prod.ext rfl (reduced hrelaxes (hfolds r hr) (group_perm hv h))
  rw [hresults]
  exact hvertices.map _

theorem round_lines {ls : List Line} {shuffle : List Line → List Line}
    (hshuffle : ∀ l, Shuffled l (shuffle l)) (hle : ∀ v, dist v ≤ intMax)
    (hrelaxes : G.Relaxes dist dist') (hls : ls.Perm (G.lines dist)) :
    ∃ ls', round shuffle ls = .ok ls' ∧ ls'.Perm (G.lines dist') := by
  obtain ⟨out, hout, hreadable, hinfos⟩ := mapper_lines hle hls
  obtain ⟨hperm, hgroups⟩ := hshuffle out
  have hreadable' : Readable (shuffle out) := fun line h => hreadable line (hperm.mem_iff.mp h)
  have hinfos' := (hperm.map info).trans hinfos
  have hne : shuffle out ≠ [] := by
    intro hnil
    rw [hnil, map_nil] at hinfos'
    have hmem : G.own dist G.source ∈ ([] : List VertexInfo) :=
      hinfos'.mem_iff.mpr (mem_append_left _ (mem_map_of_mem G.source_mem))
    exact not_mem_nil hmem
  have hresults := stream_perm hrelaxes (contiguous_info hreadable' hgroups) hinfos'
  have hprint : (G.vertices.map fun v => (v, G.names v, (dist' v : Int))).map printResult =
      G.lines dist' := by
    rw [map_map]
    refine map_congr_left fun v _ => printData_eq ?_
    exact (hrelaxes v intMax).mpr (.inl (hle v))
  refine ⟨_, ?_, hprint ▸ hresults.map printResult⟩
  rw [round, hout]
  exact reducer_eq hne hreadable'

/-! ### All rounds -/

variable (G) in
noncomputable def found (k : Nat) : Nat → Nat := distanceWithin G.edge G.source intMax k

theorem found_le {k : Nat} : G.found k v ≤ intMax := ShortestPath.distanceWithin_le_limit

theorem input_eq_lines : G.input = G.lines (G.found 0) := by
  refine map_congr_left fun v _ => congrArg (G.recordLine v) ?_
  rw [found, ShortestPath.distanceWithin_zero]
  split
  · rfl
  · rw [shown, if_neg (Nat.lt_irrefl _)]

theorem rounds_lines {shuffle : Nat → List Line → List Line}
    (hshuffle : ∀ i l, Shuffled l (shuffle i l)) (k : Nat) :
    ∃ ls, rounds shuffle k G.input = .ok ls ∧ ls.Perm (G.lines (G.found k)) := by
  induction k with
  | zero => exact ⟨_, rfl, List.Perm.of_eq input_eq_lines⟩
  | succ k ih =>
    obtain ⟨ls, hls, hperm⟩ := ih
    have hrelaxes : G.Relaxes (G.found k) (G.found (k + 1)) := fun v n =>
      ShortestPath.distanceWithin_succ_le_iff
    obtain ⟨ls', hround, hperm'⟩ := round_lines (hshuffle k)
      (fun v => found_le) hrelaxes hperm
    refine ⟨ls', ?_, hperm'⟩
    rw [rounds, hls]
    exact hround

theorem shown_found_eq_some_iff {k d : Nat} :
    shown (G.found k v) = some d ↔ IsDistance G.edge G.source v d ∧ d ≤ k ∧ d < intMax := by
  rw [shown]
  constructor
  · intro h
    split at h
    · next hlt =>
        obtain rfl := Option.some.inj h
        obtain ⟨hdistance, hk⟩ := (ShortestPath.distanceWithin_eq_iff hlt).mp rfl
        exact ⟨hdistance, hk, hlt⟩
    · cases h
  · rintro ⟨hdistance, hk, hlt⟩
    have heq : G.found k v = d := (ShortestPath.distanceWithin_eq_iff hlt).mpr ⟨hdistance, hk⟩
    rw [heq, if_pos hlt]

/-- **Breadth-first search.** For every shuffle, `k` rounds end with one record for every vertex,
with its neighbours as they were. It shows the distance if that is at most `k` and below `INT_MAX`,
and `INF` otherwise. -/
theorem rounds_distances (G : Graph) (k : Nat) (shuffle : Nat → List Line → List Line)
    (hshuffle : ∀ i l, Shuffled l (shuffle i l)) :
    ∃ (ls : List Line) (report : Nat → Option Nat), rounds shuffle k G.input = .ok ls ∧
      (∀ v d, report v = some d ↔ IsDistance G.edge G.source v d ∧ d ≤ k ∧ d < intMax) ∧
      ls.Perm (G.vertices.map fun v => G.recordLine v (report v)) := by
  obtain ⟨ls, hls, hperm⟩ := rounds_lines hshuffle k
  exact ⟨ls, fun v => shown (G.found k v), hls, fun v d => shown_found_eq_some_iff, hperm⟩

/-- **The search comes to an end.** From one round less than there are vertices on, every distance
below `INT_MAX` is shown, whatever the shuffles were. -/
theorem rounds_settled (G : Graph) (k : Nat) (shuffle : Nat → List Line → List Line)
    (hk : G.vertices.length ≤ k + 1) (hshuffle : ∀ i l, Shuffled l (shuffle i l)) :
    ∃ (ls : List Line) (report : Nat → Option Nat), rounds shuffle k G.input = .ok ls ∧
      (∀ v d, report v = some d ↔ IsDistance G.edge G.source v d ∧ d < intMax) ∧
      ls.Perm (G.vertices.map fun v => G.recordLine v (report v)) := by
  obtain ⟨ls, hls, hperm⟩ := rounds_lines hshuffle k
  refine ⟨ls, fun v => shown (G.found k v), hls, fun v d => shown_found_eq_some_iff.trans ?_, hperm⟩
  refine and_congr_right fun hd => and_iff_right ?_
  have := hd.lt_length G.source_mem fun u v hedge => G.closed u hedge.1 v hedge.2
  omega

end Graph

/-- A shuffle: every line is put in front of the first one of its vertex. -/
def gatherLines : List Line → List Line := GroupReduce.gather getVertexId

theorem shuffled_gatherLines (l : List Line) : Shuffled l (gatherLines l) :=
  ⟨GroupReduce.gather_perm getVertexId l, GroupReduce.contiguous_gather getVertexId l⟩

def smallGraph : Graph where
  vertices := [2, 0, 1]
  adj v := if v = 0 then [1] else if v = 1 then [0, 2] else []
  source := 0
  nodup := by decide
  bounded := by decide
  closed := by decide
  source_mem := by decide

theorem rounds_distances_smallGraph :
    ∃ (ls : List Line) (report : Nat → Option Nat),
      rounds (fun _ => gatherLines) 1 smallGraph.input = .ok ls ∧
      (∀ v d, report v = some d ↔
        IsDistance smallGraph.edge smallGraph.source v d ∧ d ≤ 1 ∧ d < intMax) ∧
      ls.Perm (smallGraph.vertices.map fun v => smallGraph.recordLine v (report v)) :=
  Graph.rounds_distances smallGraph 1 (fun _ => gatherLines) fun _ => shuffled_gatherLines

theorem rounds_settled_smallGraph :
    ∃ (ls : List Line) (report : Nat → Option Nat),
      rounds (fun _ => gatherLines) 2 smallGraph.input = .ok ls ∧
      (∀ v d, report v = some d ↔ IsDistance smallGraph.edge smallGraph.source v d ∧ d < intMax) ∧
      ls.Perm (smallGraph.vertices.map fun v => smallGraph.recordLine v (report v)) :=
  Graph.rounds_settled smallGraph 2 _ (by decide) fun _ => shuffled_gatherLines

/-! ### The longest path -/

section Path

variable (last : Nat) (hlast : last ≤ intMax)

def pathGraph : Graph where
  vertices := range (last + 1)
  adj v := if v < last then [v + 1] else []
  source := 0
  nodup := nodup_range
  bounded v hv := (Nat.le_of_lt_succ (mem_range.mp hv)).trans hlast
  closed := by
    intro v _ w hw
    rw [mem_range]
    split at hw
    · next hlt =>
        obtain rfl := mem_singleton.mp hw
        exact Nat.succ_lt_succ hlt
    · cases hw
  source_mem := mem_range.mpr (Nat.succ_pos _)

variable {last hlast}

theorem pathGraph_edge_iff {u v : Nat} :
    (pathGraph last hlast).edge u v ↔ u < last ∧ v = u + 1 := by
  have hadj : (pathGraph last hlast).adj u = if u < last then [u + 1] else [] := rfl
  rw [Graph.edge, hadj]
  constructor
  · rintro ⟨-, hv⟩
    split at hv
    · next hlt => exact ⟨hlt, mem_singleton.mp hv⟩
    · cases hv
  · rintro ⟨hlt, rfl⟩
    rw [if_pos hlt]
    exact ⟨mem_range.mpr (Nat.lt_succ_of_lt hlt), mem_singleton_self _⟩

theorem pathGraph_walk_iff {n v : Nat} :
    Walk (pathGraph last hlast).edge (pathGraph last hlast).source n v ↔ v = n ∧ n ≤ last := by
  induction n generalizing v with
  | zero => exact ⟨fun h => ⟨h, Nat.zero_le _⟩, fun h => h.1⟩
  | succ n ih =>
    constructor
    · rintro ⟨u, hwalk, hedge⟩
      obtain ⟨rfl, -⟩ := ih.mp hwalk
      obtain ⟨hlt, rfl⟩ := pathGraph_edge_iff.mp hedge
      exact ⟨rfl, hlt⟩
    · rintro ⟨rfl, hle⟩
      exact ⟨n, ih.mpr ⟨rfl, Nat.le_of_succ_le hle⟩, pathGraph_edge_iff.mpr ⟨hle, rfl⟩⟩

theorem pathGraph_isDistance :
    IsDistance (pathGraph last hlast).edge (pathGraph last hlast).source last last := by
  refine ⟨pathGraph_walk_iff.mpr ⟨rfl, Nat.le_refl _⟩, fun n hn hwalk => ?_⟩
  exact absurd (pathGraph_walk_iff.mp hwalk).1 (Nat.ne_of_gt hn)

theorem pathGraph_last_mem : last ∈ (pathGraph last hlast).vertices :=
  mem_range.mpr (Nat.lt_succ_self _)

theorem pathGraph_shown (h : last = intMax) (k : Nat) :
    Graph.shown ((pathGraph last hlast).found k last) = none := by
  refine Option.eq_none_iff_forall_ne_some.mpr fun d hd => ?_
  obtain ⟨⟨hwalk, -⟩, -, hlt⟩ := Graph.shown_found_eq_some_iff.mp hd
  have heq := (pathGraph_walk_iff.mp hwalk).1
  omega

end Path

/-- The last vertex has distance `INT_MAX`, which is found in so many rounds, but its only record
says `INF`. -/
theorem longest_distance_is_inf :
    IsDistance (pathGraph intMax (Nat.le_refl _)).edge (pathGraph intMax (Nat.le_refl _)).source
        intMax intMax ∧
      (∀ l, Shuffled l (gatherLines l)) ∧
      ∃ ls, rounds (fun _ => gatherLines) intMax (pathGraph intMax (Nat.le_refl _)).input = .ok ls ∧
        (pathGraph intMax (Nat.le_refl _)).recordLine intMax none ∈ ls ∧
        ∀ line ∈ ls, getVertexId line = .ok intMax →
          line = (pathGraph intMax (Nat.le_refl _)).recordLine intMax none := by
  refine ⟨pathGraph_isDistance, shuffled_gatherLines, ?_⟩
  have hinf := @pathGraph_shown intMax (Nat.le_refl _) rfl intMax
  have hmem := @pathGraph_last_mem intMax (Nat.le_refl _)
  generalize pathGraph intMax (Nat.le_refl intMax) = G at hinf hmem ⊢
  obtain ⟨ls, hls, hperm⟩ := Graph.rounds_lines (G := G) (fun _ => shuffled_gatherLines) intMax
  refine ⟨ls, hls, hperm.mem_iff.mpr (mem_map.mpr ⟨intMax, hmem, by rw [hinf]⟩), ?_⟩
  intro line hline hid
  obtain ⟨v, hv, rfl⟩ := mem_map.mp (hperm.mem_iff.mp hline)
  rw [getVertexId_of_parseLine (Graph.parseLine_recordLine hv Graph.found_le)] at hid
  have hv : v = intMax := Except.ok.inj hid
  rw [hv, hinf]

end LinuxWorkouts.MapReduce
