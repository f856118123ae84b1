import LabSO.Shell.ExecuteRedirect

/-! What a redirected command leaves in its file. `execute_scommand` opens the file without `O_TRUNC`, so the old bytes
    stay after the end of what the command writes. -/

namespace LabSO.Shell
open Program

/-! ### Files -/

abbrev Bytes := List UInt8

/-- The contents of the files that exist. -/
abbrev Disk := Text → Option Bytes

/-- `fcntl.h`. -/
def O_CREAT : Nat := 0o100
def O_TRUNC : Nat := 0o1000

/-- The second argument of `open`. -/
def OpenFlags.toNat (flags : OpenFlags) : Nat :=
  let mode := match flags.mode with
    | .rdonly => 0
    | .wronly => 1
    | .rdwr => 2
  if flags.creat then O_CREAT ||| mode else mode

/-- What an `open` that succeeds does to the files: with `O_CREAT` it makes the file if there is none, and with `O_TRUNC`
    it empties it. -/
def Disk.open (disk : Disk) (pathname : Text) (flags : Nat) : Disk :=
  match disk pathname with
  | none => if flags &&& O_CREAT ≠ 0 then Function.update disk pathname (some []) else disk
  | some _ => if flags &&& O_TRUNC ≠ 0 then Function.update disk pathname (some []) else disk

/-- What a call does to the files. -/
def Disk.call (disk : Disk) : Call → Disk
  | .open pathname flags result => if 0 ≤ result then disk.open pathname flags.toNat else disk
  | _ => disk

/-- A `write` of `bytes` at `offset`: they replace what is there, and the file is extended if needed. -/
def writeAt (content : Bytes) (offset : Nat) (bytes : Bytes) : Bytes :=
  content.take offset ++ bytes ++ content.drop (offset + bytes.length)

/-- The writes through one open file from `offset` on. -/
def writeFrom : Bytes → Nat → List Bytes → Bytes
  | content, _, [] => content
  | content, offset, bytes :: rest => writeFrom (writeAt content offset bytes) (offset + bytes.length) rest

/-- The writes of a process to an open file; a pipe and a terminal keep nothing. -/
def Disk.write (disk : Disk) (file : Option MockFile) (writes : List Bytes) : Disk :=
  match file with
  | some file =>
    if file.kind = .opened ∧ file.writable = true then
      Function.update disk file.name ((disk file.name).map fun content => writeFrom content 0 writes)
    else disk
  | none => disk

/-- The files after the process of `execute_pipeline` ran, and the program that it executed made `writes` to its standard
    output. -/
def filesAfter (sys : Sys) (apipe : Pipeline) (w : World) (disk : Disk) (writes : List Bytes) : Disk :=
  ((pipelineCalls sys apipe w).foldl Disk.call disk).write ((executePipeline sys apipe w).2.fds 1) writes

theorem writeFrom_eq (content : Bytes) (offset : Nat) (writes : List Bytes) (h : offset ≤ content.length) :
    writeFrom content offset writes =
      content.take offset ++ writes.flatten ++ content.drop (offset + writes.flatten.length) := by
  induction writes generalizing content offset with
  | nil => simp [writeFrom]
  | cons bytes rest ih =>
    have hoffset : offset + bytes.length ≤ (writeAt content offset bytes).length := by
      rw [writeAt, List.length_append, List.length_append, List.length_take, Nat.min_eq_left h]
      exact Nat.le_add_right _ _
    have hprefix : (content.take offset ++ bytes).length = offset + bytes.length := by
      rw [List.length_append, List.length_take, Nat.min_eq_left h]
    rw [writeFrom, ih _ _ hoffset]
    have htake : (writeAt content offset bytes).take (offset + bytes.length) = content.take offset ++ bytes := by
      rw [writeAt, ← hprefix, List.take_left]
    have hdrop : (writeAt content offset bytes).drop (offset + bytes.length + rest.flatten.length) =
        content.drop (offset + bytes.length + rest.flatten.length) := by
      rw [← List.drop_drop, writeAt]
      conv => lhs; arg 2; rw [← hprefix, List.drop_left, hprefix]
      rw [List.drop_drop]
    rw [htake, hdrop]
    simp only [List.flatten_cons, List.length_append, List.append_assoc, Nat.add_assoc]

/-- What the writes leave of a file: the old bytes stay after their end. -/
theorem writeFrom_zero (content : Bytes) (writes : List Bytes) :
    writeFrom content 0 writes = writes.flatten ++ content.drop writes.flatten.length := by
  rw [writeFrom_eq content 0 writes (Nat.zero_le _), List.take_zero, List.nil_append, Nat.zero_add]

/-! ### The child of `cmd > f` -/

variable {sys : Sys} {w : World} {sc : Scommand} {f : Text} {wait : Bool}

theorem foldl_noOpen {calls : List Call} (disk : Disk) (h : ∀ call ∈ calls, NoOpen call) :
    calls.foldl Disk.call disk = disk := by
  induction calls with
  | nil => rfl
  | cons call calls ih =>
    obtain ⟨hcall, hcalls⟩ := List.forall_mem_cons.mp h
    have hsame : disk.call call = disk := by
      cases call with
      | «open» pathname flags result => cases hcall
      | _ => rfl
    rw [List.foldl_cons, hsame]
    exact ih hcalls

/-- The file that `open` gives is there afterwards, with the bytes that it had before. -/
theorem open_content (disk : Disk) (f : Text) : disk.open f oCreatWronly.toNat f = some ((disk f).getD []) := by
  have hcreat : oCreatWronly.toNat &&& O_CREAT ≠ 0 := by decide
  have htrunc : ¬oCreatWronly.toNat &&& O_TRUNC ≠ 0 := by decide
  unfold Disk.open
  cases hf : disk f with
  | none =>
    simp only [if_pos hcreat, Function.update_self]
    rfl
  | some content =>
    simp only [if_neg htrunc, hf]
    rfl

/-- The child executes the program with the file at its standard output, and has opened nothing else. -/
theorem executePipeline_out (hcommand : builtinIsInternal sc = some false) (hin : sc.redirIn = none) (hout : sc.redirOut = some f)
    (hchild : sys.fork w.forks = 0) (hopen : OpenSucceeds sys w.fds w.opens) (hexec : sys.execFails w.execs = false)
    (hsize : 2 < sys.tableSize) (hfds : ∀ fd < 3, w.fds fd ≠ none) (wait : Bool) :
    ∃ (result : Int) (calls : List Call) (w' : World), Halts (executePipeline sys ⟨[sc], wait⟩) w (.exec sc.argv) w' ∧
      0 ≤ result ∧ w'.log = w.log ++ (.fork 0 :: Call.open f oCreatWronly result :: calls) ∧ (∀ call ∈ calls, NoOpen call) ∧
      w'.fds 1 = some (openedFile f oCreatWronly) := by
  set w₁ := w.push (.fork 0) with hw₁
  have hopens : w₁.opens = w.opens := by simp [hw₁, World.opens, World.push, Call.isOpen]
  have hexecs : w₁.execs = w.execs := by simp [hw₁, World.execs, World.push, Call.isExec]
  obtain ⟨u, hreturns, hufds, -, huexecs⟩ := redirect_returns (w := w₁) f oCreatWronly (by rw [hopens]; exact hopen.1) hopen.2
    (by omega : 1 < sys.tableSize) (hfds 1 (by omega))
  obtain ⟨result, u', calls, hreturns', hlog, hcalls, hresult⟩ := redirect_result sys w₁ f oCreatWronly 1
  obtain ⟨-, rfl⟩ := hreturns.det hreturns'
  have hexecvp : Halts (mockExecvp sys sc.argv) u (.exec sc.argv) (u.push (.execvp sc.argv)) := by
    rw [Halts, mockExecvp, huexecs, hexecs, hexec, if_neg Bool.false_ne_true]
  have hscommand : Halts (executeScommand sys sc) w₁ (.exec sc.argv) (u.push (.execvp sc.argv)) := by
    refine (Returns.orHalt (takeStrings_eq sc)).bind_halts ?_
    simp only [Scommand.getRedirIn, Scommand.getRedirOut, hin, hout]
    exact Returns.pure.bind_halts (hreturns.bind_halts hexecvp)
  have hfork : Returns (mockFork sys) w 0 w₁ := by simp [Returns, mockFork, liftState, hchild, hw₁]
  have halone : builtinAlone ⟨[sc], wait⟩ = some false := hcommand
  refine ⟨result, calls ++ [.execvp sc.argv], u.push (.execvp sc.argv), ?_, ?_, ?_, ?_, ?_⟩
  · rw [Halts, executePipeline_single rfl halone rfl]
    exact hfork.bind_halts (Halts.bind (Halts.onlyIf rfl ((Returns.orHalt rfl).bind_halts hscommand.bind)))
  · rw [hresult, hopens]
    exact hopen
  · simp [World.push, hlog, hw₁]
  · intro call hcall
    rcases List.mem_append.mp hcall with hcall | hcall
    · exact hcalls call hcall
    · rw [List.mem_singleton.mp hcall]
      rfl
  · show u.fds 1 = _
    rw [hufds, Function.update_self]

theorem filesAfter_out (hcommand : builtinIsInternal sc = some false) (hin : sc.redirIn = none) (hout : sc.redirOut = some f)
    (hchild : sys.fork w.forks = 0) (hopen : OpenSucceeds sys w.fds w.opens) (hexec : sys.execFails w.execs = false)
    (hsize : 2 < sys.tableSize) (hfds : ∀ fd < 3, w.fds fd ≠ none) (disk : Disk) (writes : List Bytes) :
    filesAfter sys ⟨[sc], wait⟩ w disk writes f =
      some (writes.flatten ++ ((disk f).getD []).drop writes.flatten.length) := by
  obtain ⟨result, calls, w', hrun, hresult, hlog, hcalls, hstdout⟩ :=
    executePipeline_out hcommand hin hout hchild hopen hexec hsize hfds wait
  have hlog' : (executePipeline sys ⟨[sc], wait⟩ w).2.log = w.log ++ (.fork 0 :: Call.open f oCreatWronly result :: calls) := by
    rw [hrun]
    exact hlog
  have hdisk : (Call.fork 0 :: Call.open f oCreatWronly result :: calls).foldl Disk.call disk =
      disk.open f oCreatWronly.toNat := by
    rw [List.foldl_cons, List.foldl_cons, foldl_noOpen _ hcalls]
    exact if_pos hresult
  have hfile : (openedFile f oCreatWronly).kind = .opened ∧ (openedFile f oCreatWronly).writable = true := ⟨rfl, rfl⟩
  rw [filesAfter, pipelineCalls_eq hlog', hdisk, hrun, hstdout]
  simp only [Disk.write, if_pos hfile]
  show Function.update _ f _ f = _
  rw [Function.update_self]
  show ((disk.open f oCreatWronly.toNat f).map _) = _
  rw [open_content, Option.map_some, writeFrom_zero]

/-- After `cmd > f` the file has just what the program wrote, exactly if it had no more bytes before than were written. -/
theorem filesAfter_out_iff (hcommand : builtinIsInternal sc = some false) (hin : sc.redirIn = none) (hout : sc.redirOut = some f)
    (hchild : sys.fork w.forks = 0) (hopen : OpenSucceeds sys w.fds w.opens) (hexec : sys.execFails w.execs = false)
    (hsize : 2 < sys.tableSize) (hfds : ∀ fd < 3, w.fds fd ≠ none) (wait : Bool) (disk : Disk) (writes : List Bytes) :
    (executePipeline sys ⟨[sc], wait⟩ w).1 = .error (.exec sc.argv) ∧
      (filesAfter sys ⟨[sc], wait⟩ w disk writes f = some writes.flatten ↔
        ((disk f).getD []).length ≤ writes.flatten.length) := by
  obtain ⟨result, calls, w', hrun, -⟩ := executePipeline_out hcommand hin hout hchild hopen hexec hsize hfds wait
  refine ⟨by rw [hrun], ?_⟩
  rw [filesAfter_out hcommand hin hout hchild hopen hexec hsize hfds, Option.some.injEq, List.append_right_eq_self,
    List.drop_eq_nil_iff]

/-- `ls > f`. -/
def lsToFile : Scommand := ⟨["ls".toList], some "f".toList, none⟩

/-- The process of the only child. -/
def onlyChild : Sys := { workingSys with fork := fun _ => 0 }

/-- The files with an old `f` of three bytes. -/
def oldFile : Disk := fun name => if name = "f".toList then some [1, 2, 3] else none

theorem filesAfter_out_longer :
    (executePipeline onlyChild ⟨[lsToFile], true⟩ mockResetAll).1 = .error (.exec lsToFile.argv) ∧
      (filesAfter onlyChild ⟨[lsToFile], true⟩ mockResetAll oldFile [[7, 8], [9, 10]] "f".toList = some [7, 8, 9, 10] ↔
        3 ≤ 4) :=
  filesAfter_out_iff (by decide) rfl rfl rfl ⟨rfl, by decide⟩ rfl (by decide) (by decide) true oldFile [[7, 8], [9, 10]]

/-- One byte written over three leaves the other two. -/
theorem not_filesAfter_stale : ¬∀ (sc : Scommand) (f : Text) (disk : Disk) (writes : List Bytes),
    builtinIsInternal sc = some false → sc.redirIn = none → sc.redirOut = some f →
      filesAfter onlyChild ⟨[sc], true⟩ mockResetAll disk writes f = some writes.flatten := by
  intro h
  have hstale := h lsToFile "f".toList oldFile [[7]] (by decide) rfl rfl
  revert hstale
  decide

end LabSO.Shell
