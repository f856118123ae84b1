import LabSO.Shell.ExecuteParent

/-! `execute_pipeline` in a child: from its fork it plugs the pipe of its step and of the step before into its
    standard output and input, redirects both as its command says, and calls `execvp`. No other descriptor is
    left changed. -/

namespace LabSO.Shell
open Program

variable {sys : Sys} {w w₁ : World} {fds : Table} {base n i k : Nat} {before here : Int × Int} {sc : Scommand}
  {apipe : Pipeline}

/-! ### Plugging pipes -/

theorem free_update_open {fd : Nat} (file : MockFile) (hopen : fds fd ≠ none) :
    free sys (Function.update fds fd (some file)) = free sys fds := by
  unfold free
  refine List.countP_congr fun j _ => ?_
  unfold isFree
  by_cases hj : j = fd
  · subst hj
    rw [Function.update_self]
    simp [hopen]
  · rw [Function.update_of_ne hj]

theorem plugPipe_returns {other mine fd : Nat} (hother : other < sys.tableSize) (hmine : mine < sys.tableSize)
    (hfd : fd < sys.tableSize) (hne : other ≠ mine) (hfdne : fd ≠ mine) (hopen : w.fds other ≠ none)
    (hopen' : w.fds mine ≠ none) :
    Returns (plugPipe sys other mine fd) w ()
      { fds := Function.update (Function.update (Function.update w.fds other none) fd (w.fds mine)) mine none
        log := w.log ++ [.close other 0, .dup2 mine fd fd, .close mine 0] } := by
  set u := (w.setFd other none).push (.close other 0) with hu
  have hmine₁ : u.fds mine = w.fds mine := Function.update_of_ne hne.symm _ _
  have hdup := mockDup2_returns (w := u) hmine (by rwa [hmine₁]) hfd hfdne
  set v := (u.setFd fd (u.fds mine)).push (.dup2 mine fd fd) with hv
  have hmine₂ : v.fds mine = w.fds mine := (Function.update_of_ne hfdne.symm _ _).trans hmine₁
  have hclose := mockClose_returns (w := v) hmine (by rwa [hmine₂])
  refine (mockClose_returns hother hopen).bind (hdup.bind (hclose.bind ?_))
  simp [Returns, hu, hv, World.push, World.setFd, pure, Function.update_of_ne hne.symm]

/-- The calls since `w` opened no file and called no `execvp`. -/
def SameCounts (w w' : World) : Prop := w'.opens = w.opens ∧ w'.execs = w.execs

theorem SameCounts.trans {w' w'' : World} (h : SameCounts w w') (h' : SameCounts w' w'') : SameCounts w w'' :=
  ⟨h'.1.trans h.1, h'.2.trans h.2⟩

theorem sameCounts_of_log {w' : World} {calls : List Call} (hlog : w'.log = w.log ++ calls)
    (hopens : calls.countP Call.isOpen = 0) (hexecs : calls.countP Call.isExec = 0) : SameCounts w w' := by
  unfold SameCounts World.opens World.execs
  rw [hlog, List.countP_append, List.countP_append, hopens, hexecs]
  exact ⟨rfl, rfl⟩

theorem PipeAt.ne_open {r e fd : Nat} (hat : PipeAt sys fds r e) (hopen : fds fd ≠ none) : fd ≠ r ∧ fd ≠ e := by
  constructor
  · rintro rfl
    exact hopen hat.read_free
  · rintro rfl
    exact hopen hat.write_free

/-- Two descriptors that were free are so again, and the file of one is at `fd`. -/
theorem plugged_eq {current : Table} {other mine fd : Nat} {file : Option MockFile} (hother : fds other = none)
    (hmine : fds mine = none) (hfd : fd ≠ mine) (hsame : ∀ j, j ≠ other → j ≠ mine → current j = fds j) :
    Function.update (Function.update (Function.update current other none) fd file) mine none =
      Function.update fds fd file := by
  funext j
  by_cases hjm : j = mine
  · subst hjm
    rw [Function.update_self, Function.update_of_ne hfd.symm, hmine]
  · rw [Function.update_of_ne hjm]
    by_cases hjf : j = fd
    · subst hjf
      rw [Function.update_self, Function.update_self]
    · rw [Function.update_of_ne hjf, Function.update_of_ne hjf]
      by_cases hjo : j = other
      · subst hjo
        rw [Function.update_self, hother]
      · rw [Function.update_of_ne hjo, hsame j hjo hjm]

theorem plugWrite_returns {r e fd : Nat} (hat : PipeAt sys fds r e) (hfd : fd < sys.tableSize) (hopen : fds fd ≠ none)
    (hw : w.fds = withPipe fds r e k) :
    ∃ w', Returns (plugPipe sys r e fd) w () w' ∧ w'.fds = Function.update fds fd (some (writeEnd k)) ∧
      SameCounts w w' := by
  obtain ⟨-, he⟩ := hat.ne_open hopen
  have hread : w.fds r = some (readEnd k) := by rw [hw, withPipe_read hat.ne]
  have hwrite : w.fds e = some (writeEnd k) := by rw [hw, withPipe_write]
  refine ⟨_, plugPipe_returns hat.read_lt hat.write_lt hfd hat.ne he (by simp [hread]) (by simp [hwrite]), ?_,
    sameCounts_of_log rfl rfl rfl⟩
  simp only [hwrite]
  exact plugged_eq hat.read_free hat.write_free he fun j hr he => by rw [hw, withPipe_of_ne hr he]

theorem plugRead_returns {r e fd : Nat} (hat : PipeAt sys fds r e) (hfd : fd < sys.tableSize) (hopen : fds fd ≠ none)
    (hw : w.fds = withPipe fds r e k) :
    ∃ w', Returns (plugPipe sys e r fd) w () w' ∧ w'.fds = Function.update fds fd (some (readEnd k)) ∧
      SameCounts w w' := by
  obtain ⟨hr, -⟩ := hat.ne_open hopen
  have hread : w.fds r = some (readEnd k) := by rw [hw, withPipe_read hat.ne]
  have hwrite : w.fds e = some (writeEnd k) := by rw [hw, withPipe_write]
  refine ⟨_, plugPipe_returns hat.write_lt hat.read_lt hfd hat.ne.symm hr (by simp [hwrite]) (by simp [hread]), ?_,
    sameCounts_of_log rfl rfl rfl⟩
  simp only [hread]
  exact plugged_eq hat.write_free hat.read_free hr fun j he hr => by rw [hw, withPipe_of_ne hr he]

/-- The descriptors of the child of step `i` after it plugged its pipes; `fds` are those at entry. -/
def childFds (fds : Table) (base n i : Nat) : Table :=
  let out := if i + 1 < n then Function.update fds 1 (some (writeEnd (base + i))) else fds
  if i = 0 then out else Function.update out 0 (some (readEnd (base + (i - 1))))

theorem withPipe_update {r e fd : Nat} {file : Option MockFile} (hr : fd ≠ r) (he : fd ≠ e) :
    withPipe (Function.update fds fd file) r e k = Function.update (withPipe fds r e k) fd file := by
  unfold withPipe
  rw [Function.update_comm hr, Function.update_comm he]

theorem PipeAt.update {r e fd : Nat} {file : Option MockFile} (hat : PipeAt sys fds r e) (hr : fd ≠ r) (he : fd ≠ e) :
    PipeAt sys (Function.update fds fd file) r e where
  ne := hat.ne
  read_lt := hat.read_lt
  write_lt := hat.write_lt
  read_free := by rw [Function.update_of_ne hr.symm, hat.read_free]
  write_free := by rw [Function.update_of_ne he.symm, hat.write_free]

/-- The child plugs the pipe of its step, and then that of the step before. -/
theorem plugs_return {current : Table} (hw : Window sys fds base n i before current)
    (ho : Opened sys current (base + i) n i here w.fds) (hi : i < n) (hn : 2 ≤ n) (hin : fds 0 ≠ none)
    (hout : fds 1 ≠ none) (hsize : 1 < sys.tableSize) :
    ∃ w' w'', Returns (onlyIf (i ≠ n - 1) (plugPipe sys here.1 here.2 1)) w () w' ∧
      Returns (onlyIf (i ≠ 0) (plugPipe sys before.2 before.1 0)) w' () w'' ∧
      w''.fds = childFds fds base n i ∧ SameCounts w w'' := by
  generalize hfds : w.fds = opened at ho
  cases hw with
  | first =>
    cases ho with
    | made pipe more =>
      obtain ⟨w', hwrite, hfds', hsame⟩ := plugWrite_returns pipe hsize hout hfds
      refine ⟨w', w', hwrite.onlyIf (by omega), Returns.onlyIf_not (by omega), ?_, hsame⟩
      rw [hfds', childFds, if_pos more, if_pos rfl]
    | last last => omega
  | last => omega
  | @middle i r e older more =>
    obtain ⟨hr, he⟩ := older.ne_open hout
    cases ho with
    | made pipe more' =>
      have hout' : withPipe fds r e (base + i) 1 ≠ none := by rwa [withPipe_of_ne hr he]
      obtain ⟨w', hwrite, hfds', hsame⟩ := plugWrite_returns pipe hsize hout' hfds
      rw [← withPipe_update hr he] at hfds'
      have hin' : Function.update fds 1 (some (writeEnd (base + (i + 1)))) 0 ≠ none := by
        rwa [Function.update_of_ne (by decide)]
      obtain ⟨w'', hread, hfds'', hsame'⟩ := plugRead_returns (older.update hr he) (by omega) hin' hfds'
      refine ⟨w', w'', hwrite.onlyIf (by omega), hread.onlyIf (by omega), ?_, hsame.trans hsame'⟩
      rw [hfds'', childFds, if_pos more', if_neg (by omega), Nat.add_sub_cancel]
    | last last' =>
      obtain ⟨w', hread, hfds', hsame⟩ := plugRead_returns older (by omega) hin hfds
      refine ⟨w, w', Returns.onlyIf_not (by omega), hread.onlyIf (by omega), ?_, hsame⟩
      rw [hfds', childFds, if_neg (by omega), if_neg (by omega), Nat.add_sub_cancel]

/-! ### Redirections and `execvp` -/

/-- The file that `open` puts at a descriptor. -/
def openedFile (pathname : Text) (flags : OpenFlags) : MockFile :=
  { kind := .opened, name := pathname, readable := flags.mode != .wronly, writable := flags.mode != .rdonly }

theorem mockOpen_returns {fd : Nat} {pathname : Text} {flags : OpenFlags} (hok : sys.openFails w.opens = false)
    (hlookup : mockFdLookup sys w.fds = some fd) : Returns (mockOpen sys pathname flags) w fd
      ((w.setFd fd (some (openedFile pathname flags))).push (Call.open pathname flags fd)) := by
  simp only [Returns, mockOpen, liftState, hok, hlookup, Bool.false_eq_true, if_false]
  rfl

/-- A file that comes to a free descriptor, is copied to `fd` and closed again. -/
theorem redirected_eq {fd file : Nat} {opened : Option MockFile} (hfree : fds file = none) (hne : fd ≠ file) :
    Function.update (Function.update (Function.update (Function.update fds file opened) fd none) fd opened) file none =
      Function.update fds fd opened := by
  funext j
  by_cases hj : j = file
  · subst hj
    rw [Function.update_self, Function.update_of_ne hne.symm, hfree]
  · rw [Function.update_of_ne hj]
    by_cases hjf : j = fd
    · subst hjf
      rw [Function.update_self, Function.update_self]
    · rw [Function.update_of_ne hjf, Function.update_of_ne hjf, Function.update_of_ne hj, Function.update_of_ne hjf]

theorem redirect_returns {fd : Nat} (filename : Text) (flags : OpenFlags) (hok : sys.openFails w.opens = false)
    (hfree : 0 < free sys w.fds) (hfd : fd < sys.tableSize) (hopen : w.fds fd ≠ none) :
    ∃ w', Returns (redirect sys filename flags fd) w () w' ∧
      w'.fds = Function.update w.fds fd (some (openedFile filename flags)) ∧ w'.opens = w.opens + 1 ∧
      w'.execs = w.execs := by
  obtain ⟨file, hlookup⟩ := exists_lookup hfree
  obtain ⟨hlt, hnone⟩ := mockFdLookup_some hlookup
  have hne : fd ≠ file := by
    rintro rfl
    exact hopen hnone
  set opened := openedFile filename flags
  set u := (w.setFd file (some opened)).push (Call.open filename flags file) with hu
  have hufd : u.fds fd ≠ none := by
    show Function.update w.fds file (some opened) fd ≠ none
    rwa [Function.update_of_ne hne]
  set v := (u.setFd fd none).push (.close fd 0) with hv
  have hvfile : v.fds file = some opened := by
    show Function.update (Function.update w.fds file (some opened)) fd none file = some opened
    rw [Function.update_of_ne hne.symm, Function.update_self]
  set x := (v.setFd fd (v.fds file)).push (.dup2 file fd fd) with hx
  have hxfile : x.fds file ≠ none := by
    show Function.update v.fds fd (v.fds file) file ≠ none
    rw [Function.update_of_ne hne.symm, hvfile]
    simp
  have hvopen : v.fds file ≠ none := by
    rw [hvfile]
    exact Option.some_ne_none _
  have hlog : ((x.setFd file none).push (.close file 0)).log =
      w.log ++ [Call.open filename flags file, .close fd 0, .dup2 file fd fd, .close file 0] := by
    simp [hx, hv, hu, World.push, World.setFd]
  refine ⟨(x.setFd file none).push (.close file 0), ?_, ?_, ?_, ?_⟩
  · exact (mockOpen_returns hok hlookup).bind ((mockClose_returns hfd hufd).bind
      ((mockDup2_returns hlt hvopen hfd hne).bind ((mockClose_returns hlt hxfile).bind .pure)))
  · show Function.update (Function.update v.fds fd (v.fds file)) file none = _
    rw [hvfile]
    exact redirected_eq hnone hne
  · rw [World.opens, hlog, List.countP_append]
    rfl
  · rw [World.execs, hlog, List.countP_append]
    rfl

/-- The descriptors after the redirection of `fd`, if there is one. -/
def redirected (filename : Option Text) (flags : OpenFlags) (fds : Table) (fd : Nat) : Table :=
  match filename with
  | some filename => Function.update fds fd (some (openedFile filename flags))
  | none => fds

theorem redirected_of_ne {filename : Option Text} {flags : OpenFlags} {fd j : Nat} (hj : j ≠ fd) :
    redirected filename flags fds fd j = fds j := by
  cases filename with
  | none => rfl
  | some filename => exact Function.update_of_ne hj _ _

theorem redirected_self (filename : Option Text) (flags : OpenFlags) (fds : Table) (fd : Nat) :
    redirected filename flags fds fd fd = filename.elim (fds fd) fun filename => some (openedFile filename flags) := by
  cases filename with
  | none => rfl
  | some filename => exact Function.update_self ..

theorem redirectIf_returns {fd : Nat} (filename : Option Text) (flags : OpenFlags)
    (hok : sys.openFails w.opens = false) (hfree : 0 < free sys w.fds) (hfd : fd < sys.tableSize)
    (hopen : w.fds fd ≠ none) :
    ∃ w', Returns (redirectIf sys filename flags fd) w () w' ∧ w'.fds = redirected filename flags w.fds fd ∧
      free sys w'.fds = free sys w.fds ∧ (w'.opens = w.opens ∨ w'.opens = w.opens + 1) ∧ w'.execs = w.execs := by
  cases filename with
  | none => exact ⟨w, .pure, rfl, rfl, Or.inl rfl, rfl⟩
  | some filename =>
    obtain ⟨w', hreturns, hfds, hopens, hexecs⟩ := redirect_returns filename flags hok hfree hfd hopen
    refine ⟨w', hreturns, hfds, ?_, Or.inr hopens, hexecs⟩
    rw [hfds, free_update_open _ hopen]

theorem takeStrings_eq (sc : Scommand) : takeStrings sc.length sc = some (sc.command, { sc with command := [] }) := by
  obtain ⟨command, out, inp⟩ := sc
  show takeStrings command.length _ = _
  induction command with
  | nil => rfl
  | cons string command ih =>
    show (takeStrings command.length ⟨command, out, inp⟩).bind _ = _
    rw [ih]
    rfl

/-- The arguments of `execvp` for a command. -/
def Scommand.argv (sc : Scommand) : List (Option Text) := sc.command.map some ++ [none]

theorem executeScommand_halts (sc : Scommand) (hopens : ∀ k < 2, sys.openFails (w.opens + k) = false)
    (hexec : sys.execFails w.execs = false) (hfree : 0 < free sys w.fds) (hsize : 1 < sys.tableSize)
    (hin : w.fds 0 ≠ none) (hout : w.fds 1 ≠ none) :
    ∃ w', Halts (executeScommand sys sc) w (.exec sc.argv) w' ∧
      w'.fds = redirected sc.redirOut oCreatWronly (redirected sc.redirIn oRdonly w.fds 0) 1 := by
  obtain ⟨u, hinput, hufds, hufree, huopens, huexecs⟩ :=
    redirectIf_returns sc.redirIn oRdonly (hopens 0 (by omega)) hfree (by omega : 0 < sys.tableSize) hin
  have huout : u.fds 1 ≠ none := by
    rw [hufds, redirected_of_ne (by decide)]
    exact hout
  have hopen : sys.openFails u.opens = false := by
    rcases huopens with heq | heq
    · rw [heq]
      exact hopens 0 (by omega)
    · rw [heq]
      exact hopens 1 (by omega)
  obtain ⟨v, houtput, hvfds, -, -, hvexecs⟩ :=
    redirectIf_returns sc.redirOut oCreatWronly hopen (by omega) hsize huout
  refine ⟨v.push (.execvp sc.argv), ?_, ?_⟩
  · have hexecvp : Halts (mockExecvp sys sc.argv) v (.exec sc.argv) (v.push (.execvp sc.argv)) := by
      rw [Halts, mockExecvp, hvexecs, huexecs, hexec, if_neg Bool.false_ne_true]
    exact (Returns.orHalt (takeStrings_eq sc)).bind_halts (hinput.bind_halts (houtput.bind_halts hexecvp))
  · show v.fds = _
    rw [hvfds, hufds]

/-! ### `execute_pipeline` in the child of step `i` -/

theorem childFds_zero : childFds fds base n i 0 = if i = 0 then fds 0 else some (readEnd (base + (i - 1))) := by
  by_cases hi : i = 0
  · rw [childFds, if_pos hi, if_pos hi]
    split
    · exact Function.update_of_ne (by decide) _ _
    · rfl
  · rw [childFds, if_neg hi, if_neg hi, Function.update_self]

theorem childFds_one (hi : i < n) :
    childFds fds base n i 1 = if i + 1 = n then fds 1 else some (writeEnd (base + i)) := by
  have hplugged : (if i + 1 < n then Function.update fds 1 (some (writeEnd (base + i))) else fds) 1 =
      if i + 1 = n then fds 1 else some (writeEnd (base + i)) := by
    by_cases hlast : i + 1 = n
    · rw [if_neg (by omega), if_pos hlast]
    · rw [if_pos (by omega), if_neg hlast, Function.update_self]
  show (if i = 0 then _ else _ : Table) 1 = _
  split
  · exact hplugged
  · rw [Function.update_of_ne (by decide), hplugged]

theorem childFds_of_ne {fd : Nat} (hin : fd ≠ 0) (hout : fd ≠ 1) : childFds fds base n i fd = fds fd := by
  have hplugged : (if i + 1 < n then Function.update fds 1 (some (writeEnd (base + i))) else fds) fd = fds fd := by
    split
    · exact Function.update_of_ne hout _ _
    · rfl
  show (if i = 0 then _ else _ : Table) fd = fds fd
  split
  · exact hplugged
  · rw [Function.update_of_ne hin, hplugged]

/-- The plugs leave the two descriptors open, and no other one. -/
theorem childFds_open (hin : fds 0 ≠ none) (hout : fds 1 ≠ none) :
    childFds fds base n i 0 ≠ none ∧ childFds fds base n i 1 ≠ none ∧
      free sys (childFds fds base n i) = free sys fds := by
  set out := if i + 1 < n then Function.update fds 1 (some (writeEnd (base + i))) else fds with hset
  have hplugged : out 0 ≠ none ∧ out 1 ≠ none ∧ free sys out = free sys fds := by
    rw [hset]
    split
    · exact ⟨by rwa [Function.update_of_ne (by decide)], by simp, free_update_open _ hout⟩
    · exact ⟨hin, hout, rfl⟩
  obtain ⟨hin', hout', hfree⟩ := hplugged
  have heq : childFds fds base n i = if i = 0 then out else Function.update out 0 (some (readEnd (base + (i - 1)))) :=
    rfl
  rw [heq]
  split
  · exact ⟨hin', hout', hfree⟩
  · refine ⟨by simp, by rwa [Function.update_of_ne (by decide)], ?_⟩
    rw [free_update_open _ hin', hfree]

/-- What the child of step `i` needs of the calls from the entry on, its own and those of the shell before. -/
structure ChildSucceeds (sys : Sys) (n i : Nat) (w : World) : Prop where
  forks : ∀ k < i, 0 < sys.fork (w.forks + k)
  child : sys.fork (w.forks + i) = 0
  pipes : ∀ k ≤ i, k + 1 < n → sys.pipeFails (w.pipes + k) = false
  room : 2 * min (min (i + 1) (n - 1)) 2 ≤ free sys w.fds
  opens : ∀ k < 2, sys.openFails (w.opens + k) = false
  exec : sys.execFails w.execs = false

/-- The loop in the shell up to step `i`. -/
theorem loop_reaches (before : Int × Int) (hn : 2 ≤ n) (hi : i < n) (hlen : apipe.scommands.length = n)
    (hforks : ∀ k < i, 0 < sys.fork (w.forks + k)) (hpipes : ∀ k < i, sys.pipeFails (w.pipes + k) = false)
    (hroom : 2 * min i 2 ≤ free sys w.fds) :
    ∃ before' w' calls ids, executePipelineLoop sys n n 0 apipe before [] w =
        executePipelineLoop sys n (n - i) i { apipe with scommands := apipe.scommands.drop i } before' ids w' ∧
      Window sys w.fds w.pipes n i before' w'.fds ∧ w'.log = w.log ++ calls ∧ LoopCalls calls ids i ∧
      ids.length = i := by
  induction i with
  | zero => exact ⟨before, w, [], [], rfl, .first, (List.append_nil _).symm, .nil, rfl⟩
  | succ i ih =>
    obtain ⟨before', w', calls, ids, heq, hw', hlog, hcalls, hids⟩ :=
      ih (by omega) (fun k hk => hforks k (by omega)) (fun k hk => hpipes k (by omega)) (by omega)
    obtain ⟨hcount, hpiped⟩ := forks_of_log hcalls hlog
    rw [hids] at hcount
    have hfree : 2 ≤ free sys w'.fds := by
      cases i with
      | zero =>
        rw [hw'.eq_first]
        omega
      | succ i =>
        have := hw'.free_eq (by omega)
        omega
    have hpop : Pipeline.popFront { apipe with scommands := apipe.scommands.drop i } =
        some { apipe with scommands := apipe.scommands.drop (i + 1) } := by
      rw [List.drop_eq_getElem_cons (by omega)]
      rfl
    obtain ⟨here, w'', calls', hstep, hw'', hlog', hcalls'⟩ := loop_step hn hw' (by omega) hpiped
      (fun _ => ⟨by rw [hpiped]; exact hpipes i (by omega), hfree⟩) (by rw [hcount]; exact hforks i (by omega)) hpop
    refine ⟨here, w'', calls ++ calls', ids ++ [sys.fork w'.forks], ?_, hw'', ?_, ?_, ?_⟩
    · rw [heq, show n - i = n - (i + 1) + 1 by omega]
      exact hstep _ _
    · rw [hlog', hlog, List.append_assoc]
    · have hboth := hcalls.append hcalls'
      rwa [if_pos hi] at hboth
    · rw [List.length_append, hids]
      rfl

/-- The child of step `i` runs its command. -/
theorem runChild_halts {current : Table} (hw : Window sys fds base n i before current)
    (ho : Opened sys current (base + i) n i here w.fds) (hi : i < n) (hn : 2 ≤ n) (hin : fds 0 ≠ none)
    (hout : fds 1 ≠ none) (hsize : 1 < sys.tableSize) (hfree : 0 < free sys fds)
    (hopens : ∀ k < 2, sys.openFails (w.opens + k) = false) (hexec : sys.execFails w.execs = false)
    (hfront : apipe.front = some sc) (htext : sc.toString ≠ []) :
    ∃ w', Halts (runChild sys n i apipe before here) w (.exec sc.argv) w' ∧
      w'.fds = redirected sc.redirOut oCreatWronly (redirected sc.redirIn oRdonly (childFds fds base n i) 0) 1 := by
  obtain ⟨u, v, hwrite, hread, hfds, hopens', hexecs'⟩ := plugs_return hw ho hi hn hin hout hsize
  obtain ⟨hin', hout', hfree'⟩ : childFds fds base n i 0 ≠ none ∧ childFds fds base n i 1 ≠ none ∧
    free sys (childFds fds base n i) = free sys fds := childFds_open hin hout
  rw [← hfds] at hin' hout' hfree' ⊢
  rw [← hopens'] at hopens
  rw [← hexecs'] at hexec
  obtain ⟨w', hhalts, hfds'⟩ := executeScommand_halts sc hopens hexec (by omega) hsize hin' hout'
  refine ⟨w', ?_, hfds'⟩
  exact (Returns.orHalt hfront).bind_halts ((Returns.orHalt sc.toStringChecked_eq).bind_halts
    ((Returns.onlyIf_not htext).bind_halts (hwrite.bind_halts (hread.bind_halts hhalts.bind))))

/-- The standard input of the child of step `i`; `w` is the state at entry. -/
def childStdin (sc : Scommand) (w : World) (i : Nat) : Option MockFile :=
  match sc.redirIn with
  | some filename => some (openedFile filename oRdonly)
  | none => if i = 0 then w.fds 0 else some (readEnd (w.pipes + (i - 1)))

/-- The standard output of the child of step `i` of `n`. -/
def childStdout (sc : Scommand) (w : World) (n i : Nat) : Option MockFile :=
  match sc.redirOut with
  | some filename => some (openedFile filename oCreatWronly)
  | none => if i + 1 = n then w.fds 1 else some (writeEnd (w.pipes + i))

theorem redirected_childFds (sc : Scommand) (w : World) (hi : i < n) :
    let fds := redirected sc.redirOut oCreatWronly (redirected sc.redirIn oRdonly (childFds w.fds w.pipes n i) 0) 1
    fds 0 = childStdin sc w i ∧ fds 1 = childStdout sc w n i ∧ ∀ fd, fd ≠ 0 → fd ≠ 1 → fds fd = w.fds fd := by
  refine ⟨?_, ?_, fun fd hin hout => ?_⟩
  · rw [redirected_of_ne (by decide), redirected_self, childFds_zero, childStdin]
    cases sc.redirIn <;> rfl
  · rw [redirected_self, redirected_of_ne (by decide), childFds_one hi, childStdout]
    cases sc.redirOut <;> rfl
  · rw [redirected_of_ne hout, redirected_of_ne hin, childFds_of_ne hin hout]

/-- The child of step `i` comes to `runChild`, with the descriptors of its step, and ends as that does. -/
theorem child_reaches (hn : 2 ≤ apipe.length) (hi : i < apipe.length) (hok : ChildSucceeds sys apipe.length i w) :
    ∃ before here w₁ current, Window sys w.fds w.pipes apipe.length i before current ∧
      Opened sys current (w.pipes + i) apipe.length i here w₁.fds ∧ SameCounts w w₁ ∧
      ∀ ending w', Halts (runChild sys apipe.length i { apipe with scommands := apipe.scommands.drop i } before here)
        w₁ ending w' → Halts (executePipeline sys apipe) w ending w' := by
  have hne : apipe.isEmpty = false := by
    cases hscommands : apipe.scommands with
    | nil => simp [Pipeline.length, hscommands] at hn
    | cons first rest => simp [Pipeline.isEmpty, hscommands]
  have hroom := hok.room
  set n := apipe.length with hlen
  obtain ⟨before, w₁, calls, ids, heq, hw₁, hlog, hcalls, hids⟩ := loop_reaches (0, 0) hn hi hlen.symm hok.forks
    (fun k hk => hok.pipes k (by omega) (by omega)) (by omega)
  obtain ⟨hforks, hpipes⟩ := forks_of_log hcalls hlog
  rw [hids] at hforks
  have hpipe : i + 1 < n → sys.pipeFails w₁.pipes = false ∧ 2 ≤ free sys w₁.fds := by
    intro hmore
    refine ⟨by rw [hpipes]; exact hok.pipes i (le_refl i) hmore, ?_⟩
    cases i with
    | zero =>
      rw [hw₁.eq_first]
      omega
    | succ i =>
      have := hw₁.free_eq hi
      omega
  obtain ⟨here, w₂, calls', hreturns, ho, hlog', hcalls'⟩ := openPipe_returns hi hpipe
  have hchild : Returns (mockFork sys) w₂ 0 (w₂.push (.fork 0)) := by
    have hzero : sys.fork w₂.forks = 0 := by
      rw [(forks_of_log hcalls' hlog').1, hforks]
      exact hok.child
    simp [Returns, mockFork, liftState, hzero]
  rw [hpipes] at ho
  have hcounts : SameCounts w (w₂.push (.fork 0)) := by
    have hall : (w₂.push (.fork 0)).log = w.log ++ (calls ++ calls' ++ [.fork 0]) := by
      rw [World.push, hlog', hlog]
      simp
    refine sameCounts_of_log hall ?_ ?_
    · rw [List.countP_append, List.countP_append, hcalls.opens, hcalls'.opens]
      rfl
    · rw [List.countP_append, List.countP_append, hcalls.execs, hcalls'.execs]
      rfl
  refine ⟨before, here, w₂.push (.fork 0), w₁.fds, hw₁, ho, hcounts, fun ending w' hrun => ?_⟩
  rw [Halts, executePipeline_several hne (by omega)]
  refine Halts.bind ?_
  rw [Halts, heq, show n - i = n - (i + 1) + 1 by omega, executePipelineLoop, hreturns.bind_eq, hchild.bind_eq]
  exact (hrun.onlyIf rfl).bind

/-- The child of step `i` calls `execvp` with the strings of its command, its two ends of the pipes or its
    redirections in place, and no other descriptor changed; a command that is all blank it does not run. -/
theorem executePipeline_child (hn : 2 ≤ apipe.length) (hsc : apipe.scommands[i]? = some sc)
    (hsize : 2 < sys.tableSize) (hopen : ∀ fd < 3, w.fds fd ≠ none) (hok : ChildSucceeds sys apipe.length i w) :
    (sc.toString ≠ [] → ∃ w', Halts (executePipeline sys apipe) w (.exec (sc.command.map some ++ [none])) w' ∧
      w'.fds 0 = childStdin sc w i ∧ w'.fds 1 = childStdout sc w apipe.length i ∧
      ∀ fd, fd ≠ 0 → fd ≠ 1 → w'.fds fd = w.fds fd) ∧
    (sc.toString = [] → ∃ w', Halts (executePipeline sys apipe) w (.exit 1) w') := by
  have hi : i < apipe.length := (List.getElem?_eq_some_iff.mp hsc).1
  have hfront : Pipeline.front { apipe with scommands := apipe.scommands.drop i } = some sc := by
    show (apipe.scommands.drop i).head? = some sc
    rw [List.head?_drop, hsc]
  obtain ⟨before, here, w₁, current, hw, ho, hcounts, hhalts⟩ := child_reaches hn hi hok
  refine ⟨fun htext => ?_, fun htext => ?_⟩
  · have hroom := hok.room
    obtain ⟨w', hrun, hfds⟩ := runChild_halts hw ho hi hn (hopen 0 (by omega)) (hopen 1 (by omega)) (by omega)
      (by omega) (by rw [hcounts.1]; exact hok.opens) (by rw [hcounts.2]; exact hok.exec) hfront htext
    refine ⟨w', hhalts _ _ hrun, ?_⟩
    rw [hfds]
    exact redirected_childFds sc w hi
  · have hprint : Returns (print .stdout "Error, es necesario otro comando.\n") w₁ ()
        (w₁.push (.print .stdout "Error, es necesario otro comando.\n".toList)) := rfl
    have hexit : Halts (do
          print .stdout "Error, es necesario otro comando.\n"
          orHalt .abort (Pipeline.destroy { apipe with scommands := apipe.scommands.drop i })
          mockExit 1 : Process Unit) w₁ (.exit 1) _ :=
      hprint.bind_halts ((Returns.orHalt (Pipeline.destroy_eq _)).bind_halts .halt)
    exact ⟨_, hhalts _ _ ((Returns.orHalt hfront).bind_halts ((Returns.orHalt sc.toStringChecked_eq).bind_halts
      (hexit.onlyIf htext).bind))⟩

/-- `cat < in | grep a | wc > out`. -/
def filtered : Pipeline :=
  { scommands := [⟨["cat".toList], none, some "in".toList⟩, ⟨["grep".toList, "a".toList], none, none⟩,
      ⟨["wc".toList], some "out".toList, none⟩], wait := true }

/-- The process of the second child. -/
def secondChild : Sys := { workingSys with fork := fun k => if k = 1 then 0 else 100 + k }

theorem executePipeline_child_second : ∃ w', Halts (executePipeline secondChild filtered) mockResetAll
      (.exec [some "grep".toList, some "a".toList, none]) w' ∧
    w'.fds 0 = some (readEnd 0) ∧ w'.fds 1 = some (writeEnd 1) ∧
    ∀ fd, fd ≠ 0 → fd ≠ 1 → w'.fds fd = mockResetAll.fds fd := by
  have hok : ChildSucceeds secondChild filtered.length 1 mockResetAll := by
    refine ⟨fun k hk => ?_, rfl, fun _ _ _ => rfl, by decide, fun _ _ => rfl, rfl⟩
    obtain rfl : k = 0 := by omega
    decide
  exact (executePipeline_child (by decide) rfl (by decide) (by decide) hok).1 (by decide)

end LabSO.Shell
