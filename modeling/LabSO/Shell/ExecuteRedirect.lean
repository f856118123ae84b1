import LabSO.Shell.ExecuteCalls
import LabSO.Shell.ExecuteChild

/-! `execute_scommand` for any outcome of its `open` calls. Nothing tests what `open` returned, so the program is
    executed in any case, and its redirections are in place exactly if all files could be opened. -/

namespace LabSO.Shell
open Program

variable {sys : Sys} {w : World} {fd : Nat} {flags : OpenFlags} {f : Text}

/-! ### One redirection -/

/-- The call number `k` to `open` gives a descriptor, with the table `fds`. -/
def OpenSucceeds (sys : Sys) (fds : Table) (k : Nat) : Prop := sys.openFails k = false ∧ 0 < free sys fds

theorem mockOpen_result (sys : Sys) (w : World) (f : Text) (flags : OpenFlags) : ∃ (result : Int) (fds : Table),
    Returns (mockOpen sys f flags) w result { fds, log := w.log ++ [Call.open f flags result] } ∧
      (0 ≤ result ↔ OpenSucceeds sys w.fds w.opens) := by
  by_cases hok : OpenSucceeds sys w.fds w.opens
  · obtain ⟨hopen, hfree⟩ := hok
    obtain ⟨fd, hlookup⟩ := exists_lookup hfree
    exact ⟨fd, _, mockOpen_returns hopen hlookup, iff_of_true (Int.natCast_nonneg fd) ⟨hopen, hfree⟩⟩
  · refine ⟨-1, w.fds, ?_, iff_of_false (by decide) hok⟩
    by_cases hopen : sys.openFails w.opens = true
    · simp only [Returns, mockOpen, liftState, hopen, if_true]
      rfl
    · have hnone : mockFdLookup sys w.fds = none := by
        rw [mockFdLookup_eq_none]
        exact Nat.eq_zero_of_not_pos fun hfree => hok ⟨Bool.eq_false_iff.mpr hopen, hfree⟩
      simp only [Returns, mockOpen, liftState, hopen, hnone, Bool.false_eq_true, if_false]
      rfl

/-- The call does not open a file. -/
def NoOpen (call : Call) : Prop := call.isOpen = false

theorem mockClose_noOpen (fd : Int) : Emits (mockClose sys fd) NoOpen := emits_push fun w => by
  split
  · exact ⟨_, rfl, rfl⟩
  · exact ⟨_, rfl, rfl⟩

theorem mockDup2_noOpen (oldfd newfd : Int) : Emits (mockDup2 sys oldfd newfd) NoOpen := emits_push fun w => by
  split
  · exact ⟨_, rfl, rfl⟩
  · split
    · exact ⟨_, rfl, rfl⟩
    · split
      · exact ⟨_, rfl, rfl⟩
      · exact ⟨_, rfl, rfl⟩

/-- The calls of a redirection: `open`, and others with what it gave. -/
theorem redirect_result (sys : Sys) (w : World) (f : Text) (flags : OpenFlags) (fd : Int) :
    ∃ (result : Int) (w' : World) (calls : List Call), Returns (redirect sys f flags fd) w () w' ∧
      w'.log = w.log ++ Call.open f flags result :: calls ∧ (∀ call ∈ calls, NoOpen call) ∧
      (0 ≤ result ↔ OpenSucceeds sys w.fds w.opens) := by
  obtain ⟨result, fds, hopen, hiff⟩ := mockOpen_result sys w f flags
  set w₁ : World := { fds, log := w.log ++ [Call.open f flags result] } with hw₁
  let rest : Process Unit := do
    let _ ← mockClose sys fd
    let _ ← mockDup2 sys result fd
    let _ ← mockClose sys result
  have hrest : Emits rest NoOpen :=
    (mockClose_noOpen fd).bind fun _ => (mockDup2_noOpen result fd).bind fun _ => (mockClose_noOpen result).bind fun _ =>
      .pure ()
  obtain ⟨calls, hlog, hcalls⟩ := hrest w₁
  have hall : (rest w₁).2.log = w.log ++ Call.open f flags result :: calls := by
    rw [hlog, hw₁, List.append_assoc]
    rfl
  exact ⟨result, (rest w₁).2, calls, hopen.bind rfl, hall, hcalls, hiff⟩

/-! ### The command -/

/-- The calls of `execute_scommand`. -/
def scommandCalls (sys : Sys) (sc : Scommand) (w : World) : List Call := (executeScommand sys sc w).2.log.drop w.log.length

/-- The redirection of `fd` to the file `f`, if there is one, was opened by one of the calls and is in place. -/
def InPlace (calls : List Call) (fds : Table) (fd : Nat) (flags : OpenFlags) (filename : Option Text) : Prop :=
  ∀ f ∈ filename, (∃ result : Int, 0 ≤ result ∧ Call.open f flags result ∈ calls) ∧ fds fd = some (openedFile f flags)

/-- `execvp` is called only with both redirections opened and in place. -/
def ExecInPlace (sys : Sys) (sc : Scommand) (w : World) : Prop :=
  ∀ argv, .execvp argv ∈ scommandCalls sys sc w →
    InPlace (scommandCalls sys sc w) (executeScommand sys sc w).2.fds 0 oRdonly sc.redirIn ∧
      InPlace (scommandCalls sys sc w) (executeScommand sys sc w).2.fds 1 oCreatWronly sc.redirOut

/-- The files of the redirections can be opened, one after the other. -/
structure Openable (sys : Sys) (sc : Scommand) (w : World) : Prop where
  input : sc.redirIn.isSome → OpenSucceeds sys w.fds w.opens
  output : sc.redirOut.isSome → OpenSucceeds sys w.fds (w.opens + sc.redirIn.toList.length)

/-- The calls of a redirection, if there is one. -/
inductive RedirCalls (sys : Sys) (w : World) (flags : OpenFlags) : Option Text → List Call → Prop
  | none : RedirCalls sys w flags none []
  | some {f : Text} {result : Int} {calls : List Call} (hcalls : ∀ call ∈ calls, NoOpen call)
    (hiff : 0 ≤ result ↔ OpenSucceeds sys w.fds w.opens) :
    RedirCalls sys w flags (some f) (Call.open f flags result :: calls)

theorem redirectIf_result (sys : Sys) (w : World) (filename : Option Text) (flags : OpenFlags) (fd : Int) :
    ∃ (w' : World) (calls : List Call), Returns (redirectIf sys filename flags fd) w () w' ∧ w'.log = w.log ++ calls ∧
      RedirCalls sys w flags filename calls := by
  cases filename with
  | none => exact ⟨w, [], .pure, (List.append_nil _).symm, .none⟩
  | some f =>
    obtain ⟨result, w', calls, hreturns, hlog, hcalls, hiff⟩ := redirect_result sys w f flags fd
    exact ⟨w', _, hreturns, hlog, .some hcalls hiff⟩

theorem RedirCalls.mem_open {flags' : OpenFlags} {filename : Option Text} {calls : List Call} {result : Int}
    (h : RedirCalls sys w flags filename calls) (hmem : Call.open f flags' result ∈ calls) :
    flags' = flags ∧ (0 ≤ result ↔ OpenSucceeds sys w.fds w.opens) := by
  cases h with
  | none => cases hmem
  | some hcalls hiff =>
    rcases List.mem_cons.mp hmem with heq | hmem
    · cases heq
      exact ⟨rfl, hiff⟩
    · cases hcalls _ hmem

/-- The file is opened by one of the calls, if it can be. -/
theorem RedirCalls.opened {filename : Option Text} {calls : List Call} (h : RedirCalls sys w flags filename calls)
    (hf : f ∈ filename) (hok : OpenSucceeds sys w.fds w.opens) :
    ∃ result : Int, 0 ≤ result ∧ Call.open f flags result ∈ calls := by
  cases h with
  | none => cases hf
  | @some f' result calls hcalls hiff =>
    obtain rfl := Option.some.inj hf
    exact ⟨result, hiff.mpr hok, List.mem_cons_self⟩

theorem RedirCalls.opens {filename : Option Text} {calls : List Call} (h : RedirCalls sys w flags filename calls) :
    calls.countP Call.isOpen = filename.toList.length := by
  cases h with
  | none => rfl
  | some hcalls hiff =>
    have hnone := List.countP_eq_zero.mpr fun call hcall => Bool.eq_false_iff.mp (hcalls call hcall)
    rw [List.countP_cons_of_pos rfl, hnone]
    rfl

/-- What `execute_scommand` does up to its call of `execvp`, which it makes in any case. -/
theorem executeScommand_result (sys : Sys) (sc : Scommand) (w : World) : ∃ (u v : World) (ins outs : List Call),
    Returns (redirectIf sys sc.redirIn oRdonly 0) w () u ∧ Returns (redirectIf sys sc.redirOut oCreatWronly 1) u () v ∧
      RedirCalls sys w oRdonly sc.redirIn ins ∧ RedirCalls sys u oCreatWronly sc.redirOut outs ∧
      u.opens = w.opens + sc.redirIn.toList.length ∧
      scommandCalls sys sc w = ins ++ outs ++ [.execvp sc.argv] ∧ (executeScommand sys sc w).2.fds = v.fds := by
  obtain ⟨u, ins, hin, hulog, hins⟩ := redirectIf_result sys w sc.redirIn oRdonly 0
  obtain ⟨v, outs, hout, hvlog, houts⟩ := redirectIf_result sys u sc.redirOut oCreatWronly 1
  have hrun : executeScommand sys sc w = mockExecvp sys sc.argv v := by
    rw [executeScommand, (Returns.orHalt (takeStrings_eq sc)).bind_eq]
    exact hin.bind_eq.trans hout.bind_eq
  have hexec : (mockExecvp sys sc.argv v).2 = v.push (.execvp sc.argv) := by
    unfold mockExecvp
    split <;> rfl
  refine ⟨u, v, ins, outs, hin, hout, hins, houts, ?_, ?_, ?_⟩
  · rw [World.opens, hulog, List.countP_append, hins.opens]
    rfl
  · rw [scommandCalls, hrun, hexec, World.push, hvlog, hulog, List.append_assoc, List.append_assoc, List.drop_left,
      List.append_assoc]
  · rw [hrun, hexec]
    rfl

/-- The redirection of an open descriptor whose file can be opened. -/
theorem redirectIf_inPlace {u : World} {filename : Option Text} (hok : filename.isSome → OpenSucceeds sys w.fds w.opens)
    (hfd : fd < sys.tableSize) (hopen : w.fds fd ≠ none) (hreturns : Returns (redirectIf sys filename flags fd) w () u) :
    u.fds = redirected filename flags w.fds fd ∧ free sys u.fds = free sys w.fds := by
  cases filename with
  | none =>
    obtain ⟨-, rfl⟩ := Returns.det (Returns.pure (s := w)) hreturns
    exact ⟨rfl, rfl⟩
  | some f =>
    obtain ⟨hopenOk, hfree⟩ := hok rfl
    obtain ⟨u', hreturns', hfds, -, -⟩ := redirect_returns f flags hopenOk hfree hfd hopen
    obtain ⟨-, rfl⟩ := hreturns'.det hreturns
    exact ⟨hfds, by rw [hfds, free_update_open _ hopen]⟩

/-- `execute_scommand` executes the program with its redirections in place, and only so, exactly if the files of all
    its redirections can be opened. -/
theorem execInPlace_iff (sys : Sys) (sc : Scommand) (w : World) (hsize : 2 < sys.tableSize) (hopen : ∀ fd < 3, w.fds fd ≠ none) :
    ExecInPlace sys sc w ↔ Openable sys sc w := by
  obtain ⟨u, v, ins, outs, hin, hout, hins, houts, hopens, hcalls, hfds⟩ := executeScommand_result sys sc w
  have hne : oRdonly ≠ oCreatWronly := by decide
  rw [ExecInPlace, hcalls, hfds]
  constructor
  · intro h
    obtain ⟨hinput, houtput⟩ := h sc.argv (by simp)
    have hinputOk : sc.redirIn.isSome → OpenSucceeds sys w.fds w.opens := by
      intro hsome
      obtain ⟨f, hf⟩ := Option.isSome_iff_exists.mp hsome
      obtain ⟨⟨result, hresult, hmem⟩, -⟩ := hinput f hf
      simp only [List.mem_append, List.mem_singleton, reduceCtorEq, or_false] at hmem
      rcases hmem with hmem | hmem
      · exact (hins.mem_open hmem).2.mp hresult
      · exact absurd (houts.mem_open hmem).1 hne
    refine ⟨hinputOk, fun hsome => ?_⟩
    obtain ⟨f, hf⟩ := Option.isSome_iff_exists.mp hsome
    obtain ⟨⟨result, hresult, hmem⟩, -⟩ := houtput f hf
    simp only [List.mem_append, List.mem_singleton, reduceCtorEq, or_false] at hmem
    rcases hmem with hmem | hmem
    · exact absurd (hins.mem_open hmem).1.symm hne
    · obtain ⟨hfails, hfree⟩ := (houts.mem_open hmem).2.mp hresult
      have hsame := (redirectIf_inPlace hinputOk (by omega) (hopen 0 (by omega)) hin).2
      exact ⟨by rwa [← hopens], by rwa [← hsame]⟩
  · intro h argv _
    obtain ⟨hufds, hufree⟩ := redirectIf_inPlace h.input (by omega) (hopen 0 (by omega)) hin
    have houtputOk : sc.redirOut.isSome → OpenSucceeds sys u.fds u.opens := by
      intro hsome
      obtain ⟨hfails, hfree⟩ := h.output hsome
      exact ⟨by rwa [hopens], by rwa [hufree]⟩
    have huout : u.fds 1 ≠ none := by
      rw [hufds, redirected_of_ne (by decide)]
      exact hopen 1 (by omega)
    obtain ⟨hvfds, -⟩ := redirectIf_inPlace houtputOk (by omega) huout hout
    refine ⟨fun f hf => ⟨?_, ?_⟩, fun f hf => ⟨?_, ?_⟩⟩
    · obtain ⟨result, hresult, hmem⟩ := hins.opened hf (h.input (Option.isSome_iff_exists.mpr ⟨f, hf⟩))
      exact ⟨result, hresult, by simp [hmem]⟩
    · rw [hvfds, redirected_of_ne (by decide), hufds, redirected_self, hf]
      rfl
    · obtain ⟨result, hresult, hmem⟩ := houts.opened hf (houtputOk (Option.isSome_iff_exists.mpr ⟨f, hf⟩))
      exact ⟨result, hresult, by simp [hmem]⟩
    · rw [hvfds, redirected_self, hf]
      rfl

/-- `sort < a > b`. -/
def sortInOut : Scommand := ⟨["sort".toList], some "b".toList, some "a".toList⟩

theorem execInPlace_sort : ExecInPlace workingSys sortInOut mockResetAll ↔ Openable workingSys sortInOut mockResetAll :=
  execInPlace_iff workingSys sortInOut mockResetAll (by decide) (by decide)

/-- No file can be opened. -/
def failingOpen : Sys := { workingSys with openFails := fun _ => true }

/-- `sort < a > b` is executed although neither file could be opened. -/
theorem not_execInPlace_failing : ¬∀ (sys : Sys) (sc : Scommand) (w : World), 2 < sys.tableSize →
    (∀ fd < 3, w.fds fd ≠ none) → ExecInPlace sys sc w := by
  intro h
  have hexec : .execvp sortInOut.argv ∈ scommandCalls failingOpen sortInOut mockResetAll := by decide
  obtain ⟨hinput, -⟩ := h failingOpen sortInOut mockResetAll (by decide) (by decide) _ hexec
  obtain ⟨-, hfds⟩ := hinput "a".toList rfl
  revert hfds
  decide

end LabSO.Shell
