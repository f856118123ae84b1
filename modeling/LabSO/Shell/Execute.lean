import LabSO.Shell.Syscall

/-! `builtin.c` and `execute.c`: the internal commands, `execute_scommand` and `execute_pipeline`. An
    assertion that fails ends the process with `Ending.abort`. -/

namespace LabSO.Shell
open Program

/-! ### `builtin.c` -/

def internCommand : List Text := ["cd".toList, "help".toList, "exit".toList]

/-- `none` where the assertion of `scommand_front` fails. -/
def builtinIsInternal (cmd : Scommand) : Option Bool := cmd.front.map fun command => internCommand.contains command

def builtinAlone (p : Pipeline) : Option Bool :=
  if p.length = 1 then p.front.bind builtinIsInternal else some false

def helpText : String :=
  "2² Easy Pieces Shell\n\nAutores:\n  - Agustin Reyna\n  - Luciano Lopez\n  - Rosella Nardi\n  - Tomas Iannaccone\n\n" ++
  "Comandos disponibles:\n\n# cd\n  Permite cambiar del directorio actual al de la ruta especificada. " ++
  "Se utiliza para navegar entre directorios en la línea de comandos.\n\n  Uso básico:\n" ++
  "    - cd <ruta>: Cambia al directorio especificado por <ruta>. La ruta puede ser absoluta (ej. /home/user/docs) " ++
  "o relativa (ej. ../ para subir un nivel).\n    - cd ..: Sube un nivel en la jerarquía de directorios.\n" ++
  "    - cd ~: Cambia al directorio home del usuario actual.\n\n# help\n  Proporciona, mediante un mensaje por la " ++
  "salida estándar, información sobre los comandos disponibles en el shell y su uso. Especifica una descripción " ++
  "breve o detalles sobre un comando particular.\n\n# exit\n  Finaliza la sesión de shell actual o termina la " ++
  "ejecución de un script. Puede devolver un valor de salida al sistema operativo que indica el estado de la " ++
  "terminación (código de salida).\n\n  Uso básico:\n    - exit: Sale del shell actual o del script con el código " ++
  "de salida por defecto (generalmente 0, que indica éxito).\n    - exit <número>: Sale del shell o script con el " ++
  "código de salida especificado por <número>. Los códigos de salida suelen indicar diferentes estados de éxito o " ++
  "error.\n"

/-- `cd` to the second string of the command. -/
def builtinCd (sys : Sys) (cmd : Scommand) : Process Unit :=
  if cmd.length = 1 then print .stdout "Error: No se ingreso la ruta destino\n"
  else do
    let cmd ← orHalt .abort cmd.popFront
    let route ← orHalt .abort cmd.front
    let res ← mockChdir sys route
    onlyIf (res ≠ 0) (print .stdout "Error: No existe el archivo o el directorio\n")

def builtinRun (sys : Sys) (cmd : Scommand) : Process Unit :=
  match builtinIsInternal cmd with
  | some true =>
    match cmd.front.map internCommand.idxOf with
    | some 0 => builtinCd sys cmd
    | some 1 => print .stdout helpText
    | _ => mockExit 0
  | _ => halt .abort

/-! ### `execute_scommand` -/

/-- The loop that moves the strings of a command to `argv`. -/
def takeStrings : Nat → Scommand → Option (List Text × Scommand)
  | 0, sc => some ([], sc)
  | k + 1, sc => do
    let string ← sc.front
    let sc ← sc.popFront
    let (rest, sc) ← takeStrings k sc
    some (string :: rest, sc)

def oRdonly : OpenFlags := { mode := .rdonly, creat := false }

/-- `O_CREAT | O_WRONLY`. -/
def oCreatWronly : OpenFlags := { mode := .wronly, creat := true }

/-- Put a file in place of the descriptor `fd`. -/
def redirect (sys : Sys) (filename : Text) (flags : OpenFlags) (fd : Int) : Process Unit := do
  let file ← mockOpen sys filename flags
  let _ ← mockClose sys fd
  let _ ← mockDup2 sys file fd
  let _ ← mockClose sys file

def redirectIf (sys : Sys) (filename : Option Text) (flags : OpenFlags) (fd : Int) : Process Unit :=
  match filename with
  | some filename => redirect sys filename flags fd
  | none => pure ()

def executeScommand (sys : Sys) (sc : Scommand) : Process Unit := do
  let (argv, sc) ← orHalt .abort (takeStrings sc.length sc)
  redirectIf sys sc.getRedirIn oRdonly 0
  redirectIf sys sc.getRedirOut oCreatWronly 1
  mockExecvp sys (argv.map some ++ [none])

/-! ### `execute_pipeline` -/

/-- The end of every child that `execvp` did not take over. -/
def childFailed : Process Unit := do
  print .stderr "Error al ejecutar un comando.\n"
  mockExit 1

/-- Put an end of a pipe in place of the descriptor `fd`, and close both. -/
def plugPipe (sys : Sys) (other mine fd : Int) : Process Unit := do
  let _ ← mockClose sys other
  let _ ← mockDup2 sys mine fd
  let _ ← mockClose sys mine

/-- The child of step `i`. `before` and `here` are `pipefd[i-1]` and `pipefd[i]`, where there are such. -/
def runChild (sys : Sys) (pipeLength i : Nat) (apipe : Pipeline) (before here : Int × Int) : Process Unit := do
  let sc ← orHalt .abort apipe.front
  let text ← orHalt .abort sc.toStringChecked
  onlyIf (text = []) (do
    print .stdout "Error, es necesario otro comando.\n"
    orHalt .abort apipe.destroy
    mockExit 1)
  onlyIf (i ≠ pipeLength - 1) (plugPipe sys here.1 here.2 1)
  onlyIf (i ≠ 0) (plugPipe sys before.2 before.1 0)
  executeScommand sys sc
  childFailed

/-- The pipe of step `i`; nothing reads the result at the last step, which makes none. -/
def openPipe (sys : Sys) (pipeLength i : Nat) : Process (Int × Int) :=
  if i ≠ pipeLength - 1 then do
    match ← mockPipe sys with
    | none => mockExit 1
    | some pipefd => pure pipefd
  else pure (0, 0)

def closeBoth (sys : Sys) (pipefd : Int × Int) : Process Unit := do
  let _ ← mockClose sys pipefd.1
  let _ ← mockClose sys pipefd.2

/-- The `for` loop of `execute_pipeline`, with `k` steps to go from step `i`; the result is `none` where it
    returns because `fork` failed. -/
def executePipelineLoop (sys : Sys) (pipeLength : Nat) :
    Nat → Nat → Pipeline → Int × Int → List Int → Process (Option (List Int × Pipeline))
  | 0, _, apipe, _, idChildren => pure (some (idChildren, apipe))
  | k + 1, i, apipe, before, idChildren => do
    let here ← openPipe sys pipeLength i
    let newProc ← mockFork sys
    onlyIf (newProc = 0) (runChild sys pipeLength i apipe before here)
    if newProc < 0 then do
      print .stderr "Error fork"
      pure none
    else do
      onlyIf (i ≠ 0) (closeBoth sys before)
      let apipe ← orHalt .abort apipe.popFront
      executePipelineLoop sys pipeLength k (i + 1) apipe here (idChildren ++ [newProc])

def waitAll : List Int → Process Unit
  | [] => pure ()
  | pid :: rest => do
    mockWaitpid pid
    waitAll rest

/-- `execute_pipeline` with a single command, which is external. -/
def executeSingle (sys : Sys) (apipe : Pipeline) : Process Unit := do
  let newProc ← mockFork sys
  onlyIf (newProc = 0) (do
    let sc ← orHalt .abort apipe.front
    executeScommand sys sc
    childFailed)
  if apipe.getWait then mockWaitpid newProc else ignoreChildren

/-- `execute_pipeline` with several commands. -/
def executeSeveral (sys : Sys) (apipe : Pipeline) : Process Unit := do
  match ← executePipelineLoop sys apipe.length apipe.length 0 apipe (0, 0) [] with
  | none => pure ()
  | some (idChildren, apipe) => if apipe.getWait then waitAll idChildren else ignoreChildren

def executePipeline (sys : Sys) (apipe : Pipeline) : Process Unit :=
  if apipe.isEmpty then pure ()
  else do
    let alone ← orHalt .abort (builtinAlone apipe)
    if alone then do
      let sc ← orHalt .abort apipe.front
      builtinRun sys sc
    else if apipe.length = 1 then executeSingle sys apipe
    else executeSeveral sys apipe

end LabSO.Shell
