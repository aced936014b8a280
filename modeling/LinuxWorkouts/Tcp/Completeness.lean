import LinuxWorkouts.Tcp.Transfer

/-!
Transfers that come up short.

The server takes the number of bytes that `send` has taken only as something to print, and
the client compares the size of what it has written with the announced one and does
nothing. So a chunk that goes out in part, or a server that goes away, leaves a hole in the
file and `GetFile` returns no error. `download_complete_iff` says when a download without
an error is complete: to a new destination, exactly when no step of the exchange has left
bytes behind; to an existing one, if it also was not longer than the file.
-/

namespace LinuxWorkouts.Tcp

open Ascii Transition

section Account

variable {setup : Setup} {file : File} {old : Bytes} {s s' : State} {op : Op}

def Lossless (setup : Setup) (file : File) (old : Bytes) (s : State) : Prop :=
  ∃ header sent unsent lost, Flow setup file old s header sent unsent lost ∧
    (Live s header → sent ++ unsent = file.bytes) ∧
    sent.length + unsent.length ≤ file.bytes.length

def Lossy (setup : Setup) (file : File) (old : Bytes) (s : State) : Prop :=
  ∃ header sent unsent lost, Flow setup file old s header sent unsent lost ∧
    sent.length + unsent.length < file.bytes.length

theorem Lossless.start (destFile : Option Bytes) :
    Lossless setup file (destFile.getD []) (start destFile) := by
  refine ⟨.nothing, [], file.bytes, [], Flow.start destFile, fun _ => rfl, ?_⟩
  simp

theorem Lossless.next (h : Lossless setup file old s)
    (hfile : setup.disk.fopen setup.srcPath = some file) (hcolon : colon ∉ setup.srcPath)
    (hwhole : HeaderWhole s op) (hkeeps : NoLoss s op) (hstep : step setup s op = some s') :
    Lossless setup file old s' := by
  obtain ⟨header, sent, unsent, lost, hf, hexact, hle⟩ := h
  obtain ⟨header', sent', unsent', lost', hf', hcarried⟩ := hf.next hfile hcolon hwhole hstep
  refine ⟨header', sent', unsent', lost', hf', fun hlive => ?_, Nat.le_trans hcarried.le hle⟩
  rw [hcarried.whole hlive hkeeps]
  exact hexact (hcarried.live hlive)

theorem Lossless.break (h : Lossless setup file old s)
    (hfile : setup.disk.fopen setup.srcPath = some file) (hcolon : colon ∉ setup.srcPath)
    (hwhole : HeaderWhole s op) (hloss : ¬ NoLoss s op) (hstep : step setup s op = some s') :
    Lossy setup file old s' := by
  obtain ⟨header, sent, unsent, lost, hf, -, hle⟩ := h
  obtain ⟨header', sent', unsent', lost', hf', hcarried⟩ := hf.next hfile hcolon hwhole hstep
  exact ⟨header', sent', unsent', lost', hf', Nat.lt_of_lt_of_le (hcarried.lt hloss) hle⟩

theorem Lossy.next (h : Lossy setup file old s)
    (hfile : setup.disk.fopen setup.srcPath = some file) (hcolon : colon ∉ setup.srcPath)
    (hwhole : HeaderWhole s op) (hstep : step setup s op = some s') :
    Lossy setup file old s' := by
  obtain ⟨header, sent, unsent, lost, hf, hlt⟩ := h
  obtain ⟨header', sent', unsent', lost', hf', hcarried⟩ := hf.next hfile hcolon hwhole hstep
  exact ⟨header', sent', unsent', lost', hf', Nat.lt_of_le_of_lt hcarried.le hlt⟩

theorem Lossless.destFile (h : Lossless setup file old s) (hnil : s.client.stage = .returned none) :
    s.client.destFile = some (file.bytes ++ old.drop file.bytes.length) := by
  obtain ⟨header, sent, unsent, lost, hf, hexact, -⟩ := h
  have hreads := hf.client
  simp only [Client.Reads, hnil] at hreads
  obtain ⟨hended, -, -, hdest⟩ := hreads
  have hsent := hexact (.inl hnil)
  rw [hf.drained hended, List.append_nil] at hsent
  rw [hdest, hsent]

theorem Lossy.destFile_ne (h : Lossy setup file [] s) (hnil : s.client.stage = .returned none) :
    s.client.destFile ≠ some file.bytes := by
  obtain ⟨header, sent, unsent, lost, hf, hlt⟩ := h
  have hreads := hf.client
  simp only [Client.Reads, hnil] at hreads
  obtain ⟨-, -, -, hdest⟩ := hreads
  rw [hdest, List.drop_nil, List.append_nil]
  intro heq
  have := congrArg List.length (Option.some.inj heq)
  omega

end Account

/-- **When a download is complete.** The request arrives in one read and the lines of the header are
not cut; the chunks of the file may be, and the connection may end at any point and in any
way. If `GetFile` then returns no error, a new destination holds the file if and only if
every chunk went out as a whole and the server's end did not go away before the last one.
In that case an existing destination holds the file if and only if it was not longer. -/
theorem download_complete_iff (setup : Setup) (file : File) (destFile : Option Bytes)
    (ops : List Op)
    (s : State) (hfile : setup.disk.fopen setup.srcPath = some file)
    (hcolon : colon ∉ setup.srcPath)
    (hwhole : Along (step setup) HeaderWhole (start destFile) ops)
    (hrun : run (step setup) (start destFile) ops = some s)
    (hnil : s.client.stage = .returned none) :
    (destFile = none →
        (s.client.destFile = some file.bytes ↔ Along (step setup) NoLoss (start destFile) ops)) ∧
      (Along (step setup) NoLoss (start destFile) ops →
        (s.client.destFile = some file.bytes ↔
          (destFile.getD []).length ≤ file.bytes.length)) := by
  obtain ⟨hkept, hlost⟩ := run_split (H := NoLoss)
    (fun s op s' (h : Lossless setup file (destFile.getD []) s) hw hk hs =>
      h.next hfile hcolon hw hk hs)
    (fun s op s' h hw hl hs => h.break hfile hcolon hw hl hs)
    (fun s op s' (h : Lossy setup file (destFile.getD []) s) hw hs => h.next hfile hcolon hw hs)
    (Lossless.start destFile) hwhole hrun
  constructor
  · rintro rfl
    constructor
    · intro heq
      by_contra hloss
      exact (hlost hloss).destFile_ne hnil heq
    · intro hkeeps
      rw [(hkept hkeeps).destFile hnil]
      simp
  · intro hkeeps
    rw [(hkept hkeeps).destFile hnil]
    simp

theorem download_complete_iff_tricky :
    Along (step trickySetup) HeaderWhole (start none) trickyRun ∧
      ∃ s, run (step trickySetup) (start none) trickyRun = some s ∧
        s.client.stage = .returned none ∧
        ((none : Option Bytes) = none → (s.client.destFile = some trickyFile.bytes ↔
          Along (step trickySetup) NoLoss (start none) trickyRun)) ∧
        (Along (step trickySetup) NoLoss (start none) trickyRun →
          (s.client.destFile = some trickyFile.bytes ↔
            ((none : Option Bytes).getD []).length ≤ trickyFile.bytes.length)) := by
  have hwhole : Along (step trickySetup) HeaderWhole (start none) trickyRun := by decide +kernel
  have hstage : (run (step trickySetup) (start none) trickyRun).map (fun s => s.client.stage) =
      some (.returned none) := by decide +kernel
  obtain ⟨s, hrun, hnil⟩ := Option.map_eq_some_iff.mp hstage
  exact ⟨hwhole, s, hrun, hnil, download_complete_iff trickySetup trickyFile none trickyRun s
    trickySetup_fopen (by decide) hwhole hrun hnil⟩

/-- The only chunk of the file goes out in part: `send` takes two bytes of four. -/
def shortRun : List Op :=
  [.client 0 0, .server (some 8), .server (some 4), .client 4 0, .client 0 0, .server (some 3),
    .server (some 2), .server none, .server (some 2), .server none, .client 4 0, .client 0 0,
    .client 0 0, .client 0 0]

/-- `GetFile` has found the size 4 in the header, has written two bytes and returns no error. -/
theorem download_incomplete :
    trickySetup.disk.fopen trickySetup.srcPath = some trickyFile ∧
      Along (step trickySetup) HeaderWhole (start none) shortRun ∧
      (run (step trickySetup) (start none) shortRun).map (fun s => s.client) =
        some ⟨.returned none, [], [], 4, some (trickyFile.bytes.take 2),
          [⟨0, 1, false⟩, ⟨0, 1, true⟩]⟩ ∧
      trickyFile.bytes.take 2 ≠ trickyFile.bytes :=
  ⟨trickySetup_fopen, by decide +kernel, by decide +kernel, by decide⟩

end LinuxWorkouts.Tcp
