import LabSO.Shell.ExecuteSafe
import LabSO.Shell.ExecuteRedirect

/-! `execute_pipeline` over any system, in which every call can give anything and change the table of descriptors in any
    way. The mock of the tests is one such system. -/

namespace LabSO.Shell
open Program

/-- The program makes one call, and returns what that gave. -/
def Logs {α : Type} (m : Process α) (record : α → Call) : Prop :=
  ∀ w, ∃ (result : α) (fds : Table), Returns m w result { fds, log := w.log ++ [record result] }

/-- The calls of `execute.c` and `builtin.c`, with any outcomes. A call returns in any case, but `execvp` only where it
    fails. -/
structure Os where
  fork : Process Int
  pipe : Process (Option (Int × Int))
  openFile : Text → OpenFlags → Process Int
  close : Int → Process Int
  dup2 : Int → Int → Process Int
  chdir : Text → Process Int
  execvp : List (Option Text) → Process Unit
  logs_fork : Logs fork Call.fork
  logs_pipe : Logs pipe Call.pipe
  logs_openFile : ∀ pathname flags, Logs (openFile pathname flags) (Call.open pathname flags)
  logs_close : ∀ fd, Logs (close fd) (Call.close fd)
  logs_dup2 : ∀ oldfd newfd, Logs (dup2 oldfd newfd) (Call.dup2 oldfd newfd)
  logs_chdir : ∀ path, Logs (chdir path) (Call.chdir path)
  logs_execvp : ∀ argv w, ∃ fds : Table, Returns (execvp argv) w () { fds, log := w.log ++ [.execvp argv] } ∨
    Halts (execvp argv) w (.exec argv) { fds, log := w.log ++ [.execvp argv] }

namespace Os
variable (os : Os)

/-! ### The functions of the source -/

def builtinCd (cmd : Scommand) : Process Unit :=
  if cmd.length = 1 then print .stdout "Error: No se ingreso la ruta destino\n"
  else do
    let cmd ← orHalt .abort cmd.popFront
    let route ← orHalt .abort cmd.front
    let res ← os.chdir route
    onlyIf (res ≠ 0) (print .stdout "Error: No existe el archivo o el directorio\n")

def builtinRun (cmd : Scommand) : Process Unit :=
  match builtinIsInternal cmd with
  | some true =>
    match cmd.front.map internCommand.idxOf with
    | some 0 => os.builtinCd cmd
    | some 1 => print .stdout helpText
    | _ => mockExit 0
  | _ => halt .abort

def redirect (filename : Text) (flags : OpenFlags) (fd : Int) : Process Unit := do
  let file ← os.openFile filename flags
  let _ ← os.close fd
  let _ ← os.dup2 file fd
  let _ ← os.close file

def redirectIf (filename : Option Text) (flags : OpenFlags) (fd : Int) : Process Unit :=
  match filename with
  | some filename => os.redirect filename flags fd
  | none => pure ()

def executeScommand (sc : Scommand) : Process Unit := do
  let (argv, sc) ← orHalt .abort (takeStrings sc.length sc)
  os.redirectIf sc.getRedirIn oRdonly 0
  os.redirectIf sc.getRedirOut oCreatWronly 1
  os.execvp (argv.map some ++ [none])

def plugPipe (other mine fd : Int) : Process Unit := do
  let _ ← os.close other
  let _ ← os.dup2 mine fd
  let _ ← os.close mine

def runChild (pipeLength i : Nat) (apipe : Pipeline) (before here : Int × Int) : Process Unit := do
  let sc ← orHalt .abort apipe.front
  let text ← orHalt .abort sc.toStringChecked
  onlyIf (text = []) (do
    print .stdout "Error, es necesario otro comando.\n"
    orHalt .abort apipe.destroy
    mockExit 1)
  onlyIf (i ≠ pipeLength - 1) (os.plugPipe here.1 here.2 1)
  onlyIf (i ≠ 0) (os.plugPipe before.2 before.1 0)
  os.executeScommand sc
  childFailed

def openPipe (pipeLength i : Nat) : Process (Int × Int) :=
  if i ≠ pipeLength - 1 then do
    match ← os.pipe with
    | none => mockExit 1
    | some pipefd => pure pipefd
  else pure (0, 0)

def closeBoth (pipefd : Int × Int) : Process Unit := do
  let _ ← os.close pipefd.1
  let _ ← os.close pipefd.2

def executePipelineLoop (pipeLength : Nat) :
    Nat → Nat → Pipeline → Int × Int → List Int → Process (Option (List Int × Pipeline))
  | 0, _, apipe, _, idChildren => pure (some (idChildren, apipe))
  | k + 1, i, apipe, before, idChildren => do
    let here ← os.openPipe pipeLength i
    let newProc ← os.fork
    onlyIf (newProc = 0) (os.runChild pipeLength i apipe before here)
    if newProc < 0 then do
      print .stderr "Error fork"
      pure none
    else do
      onlyIf (i ≠ 0) (os.closeBoth before)
      let apipe ← orHalt .abort apipe.popFront
      executePipelineLoop pipeLength k (i + 1) apipe here (idChildren ++ [newProc])

def executeSingle (apipe : Pipeline) : Process Unit := do
  let newProc ← os.fork
  onlyIf (newProc = 0) (do
    let sc ← orHalt .abort apipe.front
    os.executeScommand sc
    childFailed)
  if apipe.getWait then mockWaitpid newProc else ignoreChildren

def executeSeveral (apipe : Pipeline) : Process Unit := do
  match ← os.executePipelineLoop apipe.length apipe.length 0 apipe (0, 0) [] with
  | none => pure ()
  | some (idChildren, apipe) => if apipe.getWait then waitAll idChildren else ignoreChildren

def executePipeline (apipe : Pipeline) : Process Unit :=
  if apipe.isEmpty then pure ()
  else do
    let alone ← orHalt .abort (builtinAlone apipe)
    if alone then do
      let sc ← orHalt .abort apipe.front
      os.builtinRun sc
    else if apipe.length = 1 then os.executeSingle apipe
    else os.executeSeveral apipe

end Os

/-! ### The mock -/

theorem logs_push {α : Type} {g : World → α × World} {record : α → Call}
    (hg : ∀ w, (g w).2.log = w.log ++ [record (g w).1]) : Logs (liftState g : Process α) record := by
  intro w
  refine ⟨(g w).1, (g w).2.fds, ?_⟩
  rw [← hg w]
  rfl

def mockOs (sys : Sys) : Os where
  fork := mockFork sys
  pipe := mockPipe sys
  openFile := mockOpen sys
  close := mockClose sys
  dup2 := mockDup2 sys
  chdir := mockChdir sys
  execvp := mockExecvp sys
  logs_fork := logs_push fun _ => rfl
  logs_pipe := logs_push fun w => by
    split
    · rfl
    · dsimp only
      split
      · rfl
      · rfl
  logs_openFile pathname flags := logs_push fun w => by
    split
    · rfl
    · rfl
  logs_close fd := logs_push fun w => by
    split
    · rfl
    · rfl
  logs_dup2 oldfd newfd := logs_push fun w => by
    split
    · rfl
    · split
      · rfl
      · split
        · rfl
        · rfl
  logs_chdir path := logs_push fun _ => rfl
  logs_execvp argv w := by
    unfold mockExecvp
    by_cases hfails : sys.execFails w.execs = true
    · exact ⟨w.fds, .inl (by simp only [Returns, hfails, if_true]; rfl)⟩
    · exact ⟨w.fds, .inr (by simp only [Halts, hfails, Bool.false_eq_true, if_false]; rfl)⟩

theorem mockOs_executePipeline (sys : Sys) (apipe : Pipeline) :
    (mockOs sys).executePipeline apipe = Shell.executePipeline sys apipe := by
  have hloop : ∀ n k i apipe before ids,
      (mockOs sys).executePipelineLoop n k i apipe before ids = executePipelineLoop sys n k i apipe before ids := by
    intro n k
    induction k with
    | zero => exact fun i apipe before ids => rfl
    | succ k ih =>
      intro i apipe before ids
      simp only [Os.executePipelineLoop, executePipelineLoop, ih]
      rfl
  have hseveral : (mockOs sys).executeSeveral apipe = executeSeveral sys apipe := by
    simp only [Os.executeSeveral, executeSeveral, hloop] <;> rfl
  simp only [Os.executePipeline, executePipeline, hseveral]
  rfl

end LabSO.Shell
