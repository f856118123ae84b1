import LabSO.Shell.Execute

/-! `execute_pipeline` in the shell process. Before each step of its loop the table of descriptors is the one at
    entry, but for the two ends of the pipe that the step before left to the next child (`Window`). -/

namespace LabSO.Shell
open Program

variable {sys : Sys} {w w₁ w₂ : World} {fds : Table} {base n i k : Nat} {before here : Int × Int} {ids : List Int}
  {apipe rest : Pipeline}

/-! ### The calls of the loop -/

/-- The calls of steps of the loop that created the children `pids` and made `pipes` pipes. -/
structure LoopCalls (calls : List Call) (pids : List Int) (pipes : Nat) : Prop where
  forks : calls.countP Call.isFork = pids.length
  pipes : calls.countP Call.isPipe = pipes
  opens : calls.countP Call.isOpen = 0
  execs : calls.countP Call.isExec = 0
  children : calls.filterMap Call.child? = pids
  waited : calls.filterMap Call.waited? = []

theorem LoopCalls.nil : LoopCalls [] [] 0 := ⟨rfl, rfl, rfl, rfl, rfl, rfl⟩

theorem LoopCalls.append {calls calls' : List Call} {pids pids' : List Int} {pipes pipes' : Nat}
    (h : LoopCalls calls pids pipes) (h' : LoopCalls calls' pids' pipes') :
    LoopCalls (calls ++ calls') (pids ++ pids') (pipes + pipes') where
  forks := by rw [List.countP_append, h.forks, h'.forks, List.length_append]
  pipes := by rw [List.countP_append, h.pipes, h'.pipes]
  opens := by rw [List.countP_append, h.opens, h'.opens]
  execs := by rw [List.countP_append, h.execs, h'.execs]
  children := by rw [List.filterMap_append, h.children, h'.children]
  waited := by rw [List.filterMap_append, h.waited, h'.waited, List.append_nil]

theorem LoopCalls.fork {pid : Int} (h : 0 < pid) : LoopCalls [.fork pid] [pid] 0 :=
  ⟨rfl, rfl, rfl, rfl, by simp [Call.child?, h], rfl⟩

theorem LoopCalls.pipe (ends : Option (Int × Int)) : LoopCalls [.pipe ends] [] 1 := ⟨rfl, rfl, rfl, rfl, rfl, rfl⟩

theorem LoopCalls.close (r e : Nat) : LoopCalls [.close r 0, .close e 0] [] 0 :=
  ⟨rfl, rfl, rfl, rfl, rfl, rfl⟩

/-! ### One step -/

/-- The descriptors before step `i`: as at entry, with the pipe of the step before if a child is to read it. -/
inductive Window (sys : Sys) (fds : Table) (base n : Nat) : Nat → Int × Int → Table → Prop
  | first {before : Int × Int} : Window sys fds base n 0 before fds
  | last {before : Int × Int} : Window sys fds base n n before fds
  | middle {i r e : Nat} (pipe : PipeAt sys fds r e) (more : i + 1 < n) :
    Window sys fds base n (i + 1) (r, e) (withPipe fds r e (base + i))

/-- The descriptors after the pipe of step `i`, the call number `number`. -/
inductive Opened (sys : Sys) (fds : Table) (number n i : Nat) : Int × Int → Table → Prop
  | made {r e : Nat} (pipe : PipeAt sys fds r e) (more : i + 1 < n) :
    Opened sys fds number n i (r, e) (withPipe fds r e number)
  | last {here : Int × Int} (last : i + 1 = n) : Opened sys fds number n i here fds

theorem openPipe_returns (hi : i < n) (hok : i + 1 < n → sys.pipeFails w.pipes = false ∧ 2 ≤ free sys w.fds) :
    ∃ here w₁ calls, Returns (openPipe sys n i) w here w₁ ∧ Opened sys w.fds w.pipes n i here w₁.fds ∧
      w₁.log = w.log ++ calls ∧ LoopCalls calls [] (if i + 1 < n then 1 else 0) := by
  by_cases hmore : i + 1 < n
  · obtain ⟨hpipe, hfree⟩ := hok hmore
    obtain ⟨r, e, hat, hreturns⟩ := mockPipe_returns hpipe hfree
    refine ⟨(r, e), { fds := withPipe w.fds r e w.pipes, log := w.log ++ [.pipe (some (r, e))] },
      [.pipe (some (r, e))], ?_, .made hat hmore, rfl, ?_⟩
    · rw [openPipe, if_pos (by omega)]
      exact hreturns.bind .pure
    · rw [if_pos hmore]
      exact .pipe _
  · refine ⟨(0, 0), w, [], ?_, .last (by omega), (List.append_nil _).symm, ?_⟩
    · rw [openPipe, if_neg (by omega)]
      exact .pure
    · rw [if_neg hmore]
      exact .nil

theorem openPipe_halts (hmore : i + 1 < n) (hfails : sys.pipeFails w.pipes = true ∨ free sys w.fds < 2) :
    Halts (openPipe sys n i) w (.exit 1) (w.push (.pipe none)) := by
  rw [openPipe, if_pos (by omega)]
  exact (mockPipe_fails hfails).bind_halts .halt

theorem closeBoth_returns {r e : Nat} (hr : r < sys.tableSize) (he : e < sys.tableSize) (hne : r ≠ e)
    (hread : w.fds r ≠ none) (hwrite : w.fds e ≠ none) :
    Returns (closeBoth sys (r, e)) w () { fds := closed w.fds r e, log := w.log ++ [.close r 0, .close e 0] } := by
  have hwrite' : ((w.setFd r none).push (.close r 0)).fds e ≠ none := by
    show Function.update w.fds r none e ≠ none
    rwa [Function.update_of_ne hne.symm]
  refine (mockClose_returns hr hread).bind ((mockClose_returns he hwrite').bind ?_)
  simp [Returns, World.push, World.setFd, closed, pure]

/-- The shell closes the pipe of the step before, which the child of this one has. -/
theorem close_step (w₁ : World) (hw : Window sys fds base n i before w.fds)
    (ho : Opened sys w.fds (base + i) n i here w₁.fds) (hi : i < n) (hn : 2 ≤ n) :
    ∃ w₂ calls, Returns (onlyIf (i ≠ 0) (closeBoth sys before)) w₁ () w₂ ∧
      Window sys fds base n (i + 1) here w₂.fds ∧ w₂.log = w₁.log ++ calls ∧ LoopCalls calls [] 0 := by
  generalize w.fds = current at hw ho
  generalize hfds : w₁.fds = opened at ho
  cases hw with
  | first =>
    refine ⟨w₁, [], Returns.onlyIf_not (by omega), ?_, (List.append_nil _).symm, .nil⟩
    rw [hfds]
    cases ho with
    | made pipe more => exact .middle pipe more
    | last last => omega
  | last => omega
  | @middle i r e pipe more =>
    have hopen : w₁.fds r ≠ none ∧ w₁.fds e ≠ none := by
      rw [hfds]
      cases ho with
      | made pipe' more' =>
        obtain ⟨-, hrr, hre, her, hee⟩ := pipe'.of_withPipe pipe.ne
        rw [withPipe_of_ne hrr.symm her.symm, withPipe_of_ne hre.symm hee.symm, withPipe_read pipe.ne, withPipe_write]
        simp
      | last last' =>
        rw [withPipe_read pipe.ne, withPipe_write]
        simp
    refine ⟨_, _, (closeBoth_returns pipe.read_lt pipe.write_lt pipe.ne hopen.1 hopen.2).onlyIf (by omega), ?_, rfl,
      .close r e⟩
    show Window sys fds base n (i + 1 + 1) here (closed w₁.fds r e)
    rw [hfds]
    cases ho with
    | made pipe' more' =>
      rw [pipe.closed_older pipe']
      exact .middle (pipe'.of_withPipe pipe.ne).1 more'
    | last last' =>
      rw [pipe.closed_withPipe, last']
      exact .last

theorem loop_eq (hopen : Returns (openPipe sys n i) w here w₁) (hpos : 0 < sys.fork w₁.forks)
    (hclose : Returns (onlyIf (i ≠ 0) (closeBoth sys before)) (w₁.push (.fork (sys.fork w₁.forks))) () w₂)
    (hpop : apipe.popFront = some rest) :
    executePipelineLoop sys n (k + 1) i apipe before ids w =
      executePipelineLoop sys n k (i + 1) rest here (ids ++ [sys.fork w₁.forks]) w₂ := by
  have hfork : Returns (mockFork sys) w₁ (sys.fork w₁.forks) (w₁.push (.fork (sys.fork w₁.forks))) := rfl
  rw [executePipelineLoop, hopen.bind_eq, hfork.bind_eq, (Returns.onlyIf_not (by omega)).bind_eq, if_neg (by omega),
    hclose.bind_eq, (Returns.orHalt hpop).bind_eq]

theorem forks_of_log {calls : List Call} {pids : List Int} {pipes : Nat} (h : LoopCalls calls pids pipes)
    (hlog : w₁.log = w.log ++ calls) : w₁.forks = w.forks + pids.length ∧ w₁.pipes = w.pipes + pipes := by
  unfold World.forks World.pipes
  rw [hlog, List.countP_append, List.countP_append, h.forks, h.pipes]
  exact ⟨rfl, rfl⟩

/-- A step in which the calls succeed. -/
theorem loop_step (hn : 2 ≤ n) (hw : Window sys fds base n i before w.fds) (hi : i < n) (hbase : w.pipes = base + i)
    (hok : i + 1 < n → sys.pipeFails w.pipes = false ∧ 2 ≤ free sys w.fds) (hpos : 0 < sys.fork w.forks)
    (hpop : apipe.popFront = some rest) :
    ∃ here w' calls, (∀ k ids, executePipelineLoop sys n (k + 1) i apipe before ids w =
        executePipelineLoop sys n k (i + 1) rest here (ids ++ [sys.fork w.forks]) w') ∧
      Window sys fds base n (i + 1) here w'.fds ∧ w'.log = w.log ++ calls ∧
      LoopCalls calls [sys.fork w.forks] (if i + 1 < n then 1 else 0) := by
  obtain ⟨here, w₁, calls₁, hopen, ho, hlog₁, hcalls₁⟩ := openPipe_returns hi hok
  have hforks : w₁.forks = w.forks := by simpa using (forks_of_log hcalls₁ hlog₁).1
  rw [hbase] at ho
  obtain ⟨w₂, calls₂, hclose, hw₂, hlog₂, hcalls₂⟩ :=
    close_step (w₁.push (.fork (sys.fork w₁.forks))) hw ho hi hn
  refine ⟨here, w₂, calls₁ ++ [.fork (sys.fork w.forks)] ++ calls₂, fun k ids => ?_, hw₂, ?_, ?_⟩
  · rw [← hforks] at hpos ⊢
    exact loop_eq hopen hpos hclose hpop
  · rw [hlog₂, World.push, hlog₁, hforks]
    simp
  · exact (hcalls₁.append (.fork hpos)).append hcalls₂

/-! ### The whole loop -/

/-- The calls of the loop succeed in its last `k` steps, in the descriptors of `w`; `fds` are those at entry. -/
structure LoopSucceeds (sys : Sys) (fds : Table) (k : Nat) (w : World) : Prop where
  forks : ∀ j < k, 0 < sys.fork (w.forks + j)
  pipes : ∀ j, j + 1 < k → sys.pipeFails (w.pipes + j) = false
  room : 2 ≤ k → 2 ≤ free sys w.fds
  room_next : 3 ≤ k → 4 ≤ free sys fds

theorem Window.free_eq {current : Table} (h : Window sys fds base n (i + 1) here current) (hi : i + 1 < n) :
    free sys current + 2 = free sys fds := by
  cases h with
  | last => omega
  | middle pipe more => exact pipe.free_withPipe

theorem Window.eq_first {current : Table} (h : Window sys fds base n 0 here current) : current = fds := by
  cases h <;> rfl

theorem Window.eq_last {current : Table} (h : Window sys fds base n n here current) (hn : 2 ≤ n) : current = fds := by
  cases h with
  | first => rfl
  | last => rfl
  | middle pipe more => omega

/-- The loop succeeds if its first step does and the rest does after it. -/
theorem loopSucceeds_succ (hw : Window sys fds base n (i + 1) here w₁.fds) (hik : i + (k + 1) = n)
    (hforks : w₁.forks = w.forks + 1) (hpipes : i + 1 < n → w₁.pipes = w.pipes + 1) :
    LoopSucceeds sys fds (k + 1) w ↔
      (i + 1 < n → sys.pipeFails w.pipes = false ∧ 2 ≤ free sys w.fds) ∧ 0 < sys.fork w.forks ∧
        LoopSucceeds sys fds k w₁ := by
  constructor
  · intro h
    refine ⟨fun hi => ⟨h.pipes 0 (by omega), h.room (by omega)⟩, h.forks 0 (by omega), fun j hj => ?_, fun j hj => ?_,
      fun hk => ?_, fun hk => h.room_next (by omega)⟩
    · rw [hforks, Nat.add_assoc, Nat.add_comm 1 j]
      exact h.forks (j + 1) (by omega)
    · rw [hpipes (by omega), Nat.add_assoc, Nat.add_comm 1 j]
      exact h.pipes (j + 1) (by omega)
    · have hfree := hw.free_eq (by omega)
      have hroom := h.room_next (by omega)
      omega
  · rintro ⟨hpipe, hfork, h⟩
    refine ⟨fun j hj => ?_, fun j hj => ?_, fun hk => (hpipe (by omega)).2, fun hk => ?_⟩
    · cases j with
      | zero => exact hfork
      | succ j =>
        have hrest := h.forks j (by omega)
        rwa [hforks, Nat.add_assoc, Nat.add_comm 1 j] at hrest
    · cases j with
      | zero => exact (hpipe (by omega)).1
      | succ j =>
        have hrest := h.pipes j (by omega)
        rwa [hpipes (by omega), Nat.add_assoc, Nat.add_comm 1 j] at hrest
    · have hfree := hw.free_eq (by omega)
      have hroom := h.room (by omega)
      omega

theorem popFront_of_length {p : Pipeline} (h : p.scommands.length = k + 1) :
    ∃ rest, p.popFront = some rest ∧ rest.scommands.length = k ∧ rest.wait = p.wait := by
  obtain ⟨scommands, wait⟩ := p
  cases scommands with
  | nil => cases h
  | cons sc scommands => exact ⟨⟨scommands, wait⟩, rfl, Nat.succ.inj h, rfl⟩

theorem loop_returns (before : Int × Int) (ids : List Int) (hn : 2 ≤ n) (hik : i + k = n)
    (hw : Window sys fds base n i before w.fds) (hbase : i < n → w.pipes = base + i) (hlen : apipe.scommands.length = k) (hok : LoopSucceeds sys fds k w) :
    ∃ w' calls pids left, Returns (executePipelineLoop sys n k i apipe before ids) w (some (ids ++ pids, left)) w' ∧
      left.wait = apipe.wait ∧ w'.fds = fds ∧ w'.log = w.log ++ calls ∧ pids.length = k ∧
      LoopCalls calls pids (k - 1) := by
  induction k generalizing i before apipe ids w with
  | zero =>
    obtain rfl : i = n := by omega
    exact ⟨w, [], [], apipe, by rw [List.append_nil]; exact .pure, rfl, hw.eq_last hn, (List.append_nil _).symm, rfl,
      .nil⟩
  | succ k ih =>
    obtain ⟨rest, hpop, hrest, hwait⟩ := popFront_of_length hlen
    have hstep : i + 1 < n → sys.pipeFails w.pipes = false ∧ 2 ≤ free sys w.fds := fun hi =>
      ⟨hok.pipes 0 (by omega), hok.room (by omega)⟩
    obtain ⟨here, w₁, calls₁, heq, hw₁, hlog₁, hcalls₁⟩ :=
      loop_step hn hw (by omega) (hbase (by omega)) hstep (hok.forks 0 (by omega)) hpop
    obtain ⟨hforks, hpipes⟩ := forks_of_log hcalls₁ hlog₁
    have hpipes' : i + 1 < n → w₁.pipes = w.pipes + 1 := fun hi => by rw [hpipes, if_pos hi]
    obtain ⟨-, -, hok₁⟩ := (loopSucceeds_succ hw₁ (by omega) hforks hpipes').mp hok
    obtain ⟨w', calls, pids, left, hreturns, hleft, hfds, hlog, hpids, hcalls⟩ :=
      ih here (ids ++ [sys.fork w.forks]) (by omega) hw₁
        (fun hi => by rw [hpipes' hi, hbase (by omega), Nat.add_assoc]) hrest hok₁
    refine ⟨w', calls₁ ++ calls, sys.fork w.forks :: pids, left, ?_, hleft.trans hwait, hfds, ?_, ?_, ?_⟩
    · rw [Returns, heq, List.append_cons ids _ pids]
      exact hreturns
    · rw [hlog, hlog₁, List.append_assoc]
    · rw [List.length_cons, hpids]
    · have hboth := hcalls₁.append hcalls
      have hcount : (if i + 1 < n then 1 else 0) + (k - 1) = k + 1 - 1 := by split <;> omega
      rwa [hcount] at hboth

/-- A pipe that is still open tells the descriptors from those at entry. -/
theorem opened_ne {current opened : Table} (hw : Window sys fds base n i before current)
    (ho : Opened sys current k n i here opened) (hi : i < n) (hn : 2 ≤ n) : opened ≠ fds := by
  intro heq
  cases ho with
  | @made r e pipe more =>
    have hfree : fds r = none := by
      cases hw with
      | first => exact pipe.read_free
      | last => omega
      | middle older more' => exact (pipe.of_withPipe older.ne).1.read_free
    rw [← heq, withPipe_read pipe.ne] at hfree
    cases hfree
  | last last =>
    cases hw with
    | first => omega
    | last => omega
    | middle pipe more =>
      have hfree := pipe.read_free
      rw [← heq, withPipe_read pipe.ne] at hfree
      cases hfree

/-- Where a call fails, the loop ends the shell, or returns with the ends of a pipe open. -/
theorem loop_fails (before : Int × Int) (ids : List Int) (hn : 2 ≤ n) (hik : i + k = n)
    (hw : Window sys fds base n i before w.fds) (hbase : i < n → w.pipes = base + i) (hlen : apipe.scommands.length = k) (hshell : ∀ j, sys.fork j ≠ 0)
    (hfails : ¬LoopSucceeds sys fds k w) :
    (∃ w', Halts (executePipelineLoop sys n k i apipe before ids) w (.exit 1) w') ∨
    ∃ w', Returns (executePipelineLoop sys n k i apipe before ids) w none w' ∧ w'.fds ≠ fds := by
  induction k generalizing i before apipe ids w with
  | zero => exact absurd ⟨by simp, by simp, by omega, by omega⟩ hfails
  | succ k ih =>
    by_cases hpipe : i + 1 < n → sys.pipeFails w.pipes = false ∧ 2 ≤ free sys w.fds
    · by_cases hfork : 0 < sys.fork w.forks
      · obtain ⟨rest, hpop, hrest, -⟩ := popFront_of_length hlen
        obtain ⟨here, w₁, calls₁, heq, hw₁, hlog₁, hcalls₁⟩ :=
          loop_step hn hw (by omega) (hbase (by omega)) hpipe hfork hpop
        obtain ⟨hforks, hpipes⟩ := forks_of_log hcalls₁ hlog₁
        have hpipes' : i + 1 < n → w₁.pipes = w.pipes + 1 := fun hi => by rw [hpipes, if_pos hi]
        have hfails₁ : ¬LoopSucceeds sys fds k w₁ := fun hok₁ =>
          hfails ((loopSucceeds_succ hw₁ (by omega) hforks hpipes').mpr ⟨hpipe, hfork, hok₁⟩)
        have hafter := ih here (ids ++ [sys.fork w.forks]) (by omega) hw₁
          (fun hi => by rw [hpipes' hi, hbase (by omega), Nat.add_assoc]) hrest hfails₁
        unfold Returns Halts at hafter ⊢
        rwa [heq]
      · right
        obtain ⟨here, w₁, calls, hopen, ho, hlog, hcalls⟩ := openPipe_returns (by omega) hpipe
        have hforks : w₁.forks = w.forks := by simpa using (forks_of_log hcalls hlog).1
        have hne := hshell w.forks
        have hnew : Returns (mockFork sys) w₁ (sys.fork w.forks) (w₁.push (.fork (sys.fork w.forks))) := by
          rw [← hforks]
          rfl
        refine ⟨(w₁.push (.fork (sys.fork w.forks))).push (.print .stderr "Error fork".toList), ?_,
          opened_ne hw ho (by omega) hn⟩
        rw [executePipelineLoop, Returns, hopen.bind_eq, hnew.bind_eq, (Returns.onlyIf_not hne).bind_eq,
          if_pos (by omega)]
        rfl
    · left
      obtain ⟨hmore, hno⟩ := Classical.not_imp.mp hpipe
      have hpipeFails : sys.pipeFails w.pipes = true ∨ free sys w.fds < 2 := by
        rcases not_and_or.mp hno with hflag | hroom
        · exact Or.inl (by simpa using hflag)
        · exact Or.inr (by omega)
      exact ⟨_, (openPipe_halts hmore hpipeFails).bind⟩

/-! ### `execute_pipeline` -/

theorem waitAll_returns (pids : List Int) :
    Returns (waitAll pids) w () { w with log := w.log ++ pids.map .waitpid } := by
  induction pids generalizing w with
  | nil => simp [waitAll, Returns, pure]
  | cons pid rest ih =>
    have hwait : Returns (mockWaitpid pid) w () (w.push (.waitpid pid)) := rfl
    refine hwait.bind ?_
    simpa [World.push, List.append_assoc] using ih (w := w.push (.waitpid pid))

/-- The last calls of `execute_pipeline`. -/
def endCalls (wait : Bool) (pids : List Int) : List Call := if wait then pids.map .waitpid else [.signal]

theorem endCalls_returns (wait : Bool) (pids : List Int) :
    Returns (if wait then waitAll pids else ignoreChildren) w () { w with log := w.log ++ endCalls wait pids } := by
  cases wait with
  | true => exact waitAll_returns pids
  | false => rfl

theorem executePipeline_single (hne : apipe.isEmpty = false) (halone : builtinAlone apipe = some false)
    (hone : apipe.length = 1) : executePipeline sys apipe w = executeSingle sys apipe w := by
  rw [executePipeline, if_neg (by simp [hne]), (Returns.orHalt halone).bind_eq, if_neg (by simp), if_pos hone]

theorem executePipeline_several (hne : apipe.isEmpty = false) (hmany : apipe.length ≠ 1) :
    executePipeline sys apipe w = executeSeveral sys apipe w := by
  have halone : builtinAlone apipe = some false := if_neg hmany
  rw [executePipeline, if_neg (by simp [hne]), (Returns.orHalt halone).bind_eq, if_neg (by simp), if_neg hmany]

theorem single_returns (hshell : sys.fork w.forks ≠ 0) :
    Returns (executeSingle sys apipe) w () { w with
      log := w.log ++ (.fork (sys.fork w.forks) :: endCalls apipe.getWait [sys.fork w.forks]) } := by
  have hfork : Returns (mockFork sys) w (sys.fork w.forks) (w.push (.fork (sys.fork w.forks))) := rfl
  rw [executeSingle, Returns, hfork.bind_eq, (Returns.onlyIf_not hshell).bind_eq]
  cases apipe.getWait <;> simp [endCalls, World.push, mockWaitpid, ignoreChildren, liftState]

theorem several_returns (hmany : 2 ≤ apipe.length) (hok : LoopSucceeds sys w.fds apipe.length w) :
    ∃ calls pids, Returns (executeSeveral sys apipe) w ()
        { w with log := w.log ++ calls ++ endCalls apipe.getWait pids } ∧
      pids.length = apipe.length ∧ LoopCalls calls pids (apipe.length - 1) := by
  obtain ⟨w', calls, pids, left, hloop, hwait, hfds, hlog, hpids, hcalls⟩ :=
    loop_returns (0, 0) [] hmany (Nat.zero_add _) .first (fun _ => rfl) rfl hok
  refine ⟨calls, pids, ?_, hpids, hcalls⟩
  rw [executeSeveral, Returns, hloop.bind_eq]
  show (if left.getWait then waitAll pids else ignoreChildren) w' = _
  have hend := endCalls_returns (w := w') apipe.getWait pids
  obtain ⟨fds', log'⟩ := w'
  obtain rfl : fds' = w.fds := hfds
  obtain rfl : log' = w.log ++ calls := hlog
  rw [show left.getWait = apipe.getWait from hwait]
  exact hend

/-- The forks and the pipes of `n` commands succeed: at most two pipes are open at a time. -/
structure ShellSucceeds (sys : Sys) (n : Nat) (w : World) : Prop where
  forks : ∀ k < n, 0 < sys.fork (w.forks + k)
  pipes : ∀ k, k + 1 < n → sys.pipeFails (w.pipes + k) = false
  room : 2 * min (n - 1) 2 ≤ free sys w.fds

theorem shellSucceeds_iff : ShellSucceeds sys n w ↔ LoopSucceeds sys w.fds n w := by
  constructor
  · intro h
    have hroom := h.room
    exact ⟨h.forks, h.pipes, fun _ => by omega, fun _ => by omega⟩
  · intro h
    refine ⟨h.forks, h.pipes, ?_⟩
    have hroom := h.room
    have hnext := h.room_next
    omega

/-- What the shell calls for `n` commands when all goes well. -/
structure ShellCalls (calls : List Call) (n : Nat) (wait : Bool) : Prop where
  forks : calls.countP Call.isFork = n
  pipes : calls.countP Call.isPipe = n - 1
  execs : calls.countP Call.isExec = 0
  children : (calls.filterMap Call.child?).length = n
  waited : calls.filterMap Call.waited? = if wait then calls.filterMap Call.child? else []
  order : ∀ before pid after, calls = before ++ .waitpid pid :: after → after.countP Call.isFork = 0

theorem endCalls_calls (wait : Bool) (pids : List Int) : (endCalls wait pids).countP Call.isFork = 0 ∧
    (endCalls wait pids).countP Call.isPipe = 0 ∧ (endCalls wait pids).countP Call.isExec = 0 ∧
    (endCalls wait pids).filterMap Call.child? = [] ∧
    (endCalls wait pids).filterMap Call.waited? = if wait then pids else [] := by
  cases wait with
  | false => exact ⟨rfl, rfl, rfl, rfl, rfl⟩
  | true =>
    simp only [endCalls, if_true]
    induction pids with
    | nil => exact ⟨rfl, rfl, rfl, rfl, rfl⟩
    | cons pid rest ih =>
      obtain ⟨hforks, hpipes, hexecs, hchildren, hwaited⟩ := ih
      refine ⟨hforks, hpipes, hexecs, hchildren, ?_⟩
      rw [List.map_cons, List.filterMap_cons, hwaited]
      rfl

/-- The calls of the loop followed by those of the end. -/
theorem LoopCalls.shellCalls {calls : List Call} {pids : List Int} {wait : Bool} (h : LoopCalls calls pids (n - 1))
    (hpids : pids.length = n) : ShellCalls (calls ++ endCalls wait pids) n wait := by
  obtain ⟨hforks, hpipes, hexecs, hchildren, hwaited⟩ := endCalls_calls wait pids
  have hcreated : (calls ++ endCalls wait pids).filterMap Call.child? = pids := by
    rw [List.filterMap_append, h.children, hchildren, List.append_nil]
  refine ⟨?_, ?_, ?_, by rw [hcreated, hpids], ?_, fun before pid after heq => ?_⟩
  · rw [List.countP_append, h.forks, hforks, hpids]
    rfl
  · rw [List.countP_append, h.pipes, hpipes]
    rfl
  · rw [List.countP_append, h.execs, hexecs]
  · rw [hcreated, List.filterMap_append, h.waited, hwaited]
    rfl
  · -- The loop waits for no child, so a `waitpid` is one of the last calls.
    have hlast : after <:+ endCalls wait pids := by
      rcases List.append_eq_append_iff.mp heq with ⟨between, -, hend⟩ | ⟨between, hcalls, hend⟩
      · exact ⟨between ++ [.waitpid pid], by rw [hend]; simp⟩
      · cases between with
        | nil => exact ⟨[.waitpid pid], by simpa using hend⟩
        | cons call between =>
          have hwait := h.waited
          obtain rfl : call = .waitpid pid := by simpa using (List.cons.inj hend).1.symm
          rw [hcalls, List.filterMap_append, List.append_eq_nil_iff] at hwait
          exact absurd hwait.2 (by simp [Call.waited?])
    have hle := hlast.sublist.countP_le (p := Call.isFork)
    omega

/-- In the shell, `execute_pipeline` creates one child a command, restores the descriptors and waits for the
    children in their order, or for none. -/
theorem executePipeline_shell (hne : apipe.isEmpty = false) (halone : builtinAlone apipe = some false)
    (hok : ShellSucceeds sys apipe.length w) :
    ∃ calls, Returns (executePipeline sys apipe) w () { w with log := w.log ++ calls } ∧
      ShellCalls calls apipe.length apipe.getWait := by
  by_cases hone : apipe.length = 1
  · have hpos : 0 < sys.fork w.forks := hok.forks 0 (by omega)
    refine ⟨[.fork (sys.fork w.forks)] ++ endCalls apipe.getWait [sys.fork w.forks], ?_, ?_⟩
    · rw [Returns, executePipeline_single hne halone hone]
      exact single_returns (by omega)
    · rw [hone]
      exact (LoopCalls.fork hpos).shellCalls rfl
  · have hmany : 2 ≤ apipe.length := by
      have hpos : apipe.length ≠ 0 := by simpa [Pipeline.length, Pipeline.isEmpty] using hne
      omega
    obtain ⟨calls, pids, hreturns, hpids, hcalls⟩ := several_returns hmany (shellSucceeds_iff.mp hok)
    refine ⟨calls ++ endCalls apipe.getWait pids, ?_, hcalls.shellCalls hpids⟩
    rw [Returns, executePipeline_several hne hone, ← List.append_assoc]
    exact hreturns

/-! ### Failing calls -/

/-- `execute_pipeline` leaves the shell running, with its descriptors as they were, having waited for no process
    but its children, and for all of them if it has to wait. -/
def CleansUp (sys : Sys) (apipe : Pipeline) (w : World) : Prop :=
  ∃ calls, Returns (executePipeline sys apipe) w () { w with log := w.log ++ calls } ∧
    (∀ pid ∈ calls.filterMap Call.waited?, pid ∈ calls.filterMap Call.child?) ∧
    (apipe.getWait = true → ∀ pid ∈ calls.filterMap Call.child?, pid ∈ calls.filterMap Call.waited?)

theorem cleansUp_of_succeeds (hne : apipe.isEmpty = false) (halone : builtinAlone apipe = some false)
    (hok : ShellSucceeds sys apipe.length w) : CleansUp sys apipe w := by
  obtain ⟨calls, hreturns, hcalls⟩ := executePipeline_shell hne halone hok
  refine ⟨calls, hreturns, fun pid hpid => ?_, fun hwait pid hpid => ?_⟩
  · rw [hcalls.waited] at hpid
    split at hpid
    · exact hpid
    · cases hpid
  · rw [hcalls.waited, if_pos hwait]
    exact hpid

/-- Where a fork or a pipe fails, `execute_pipeline` cleans up only after a single command that it does not wait
    for. -/
theorem cleansUp_iff (hne : apipe.isEmpty = false) (halone : builtinAlone apipe = some false)
    (hforks : ∀ k, sys.fork k = -1 ∨ 0 < sys.fork k) :
    CleansUp sys apipe w ↔ ShellSucceeds sys apipe.length w ∨ apipe.length = 1 ∧ apipe.getWait = false := by
  have hshell : ∀ k, sys.fork k ≠ 0 := fun k => by
    have := hforks k
    omega
  constructor
  · rintro ⟨calls, hreturns, hwaited, -⟩
    by_contra hnot
    obtain ⟨hfails, hwait⟩ := not_or.mp hnot
    by_cases hone : apipe.length = 1
    · -- The only call that can fail is the fork, and the shell waits for what it returned.
      have hflag : apipe.getWait = true := by simpa [hone] using hwait
      have hfork : sys.fork w.forks = -1 := by
        refine (hforks w.forks).resolve_right fun hpos => hfails ⟨fun k hk => ?_, fun k hk => by omega, by omega⟩
        obtain rfl : k = 0 := by omega
        exact hpos
      rw [Returns, executePipeline_single hne halone hone] at hreturns
      have hlog := congrArg World.log ((single_returns (hshell _)).det hreturns).2
      obtain rfl := List.append_cancel_left hlog
      have hchild := hwaited (-1) (by simp [hflag, endCalls, hfork, Call.waited?])
      simp [hflag, endCalls, hfork, Call.child?] at hchild
    · have hmany : 2 ≤ apipe.length := by
        have hpos : apipe.length ≠ 0 := by simpa [Pipeline.length, Pipeline.isEmpty] using hne
        omega
      rw [Returns, executePipeline_several hne hone] at hreturns
      rcases loop_fails (0, 0) [] hmany (Nat.zero_add _) .first (fun _ => rfl) rfl
        hshell (mt shellSucceeds_iff.mpr hfails) with ⟨w', hhalts⟩ | ⟨w', hloop, hopen⟩
      · exact hhalts.bind.not_returns hreturns
      · have hreturns' : Returns (executeSeveral sys apipe) w () w' := hloop.bind .pure
        have hsame := hreturns'.det hreturns
        exact hopen (by rw [hsame.2])
  · rintro (hok | ⟨hone, hwait⟩)
    · exact cleansUp_of_succeeds hne halone hok
    · refine ⟨_, (executePipeline_single hne halone hone).trans (single_returns (hshell _)), ?_, ?_⟩
      · simp [hwait, endCalls, Call.waited?]
      · simp [hwait]

/-- `ls -l | wc`. -/
def listAndCount : Pipeline :=
  { scommands := [⟨["ls".toList, "-l".toList], none, none⟩, ⟨["wc".toList], none, none⟩], wait := true }

/-- Every call succeeds; the children are 100, 101 and so on. -/
def workingSys : Sys where
  tableSize := 30
  fork k := 100 + k
  pipeFails _ := false
  openFails _ := false
  chdir _ := 0
  execFails _ := false

theorem workingSys_succeeds : ShellSucceeds workingSys listAndCount.length mockResetAll where
  forks k _ := by
    show (0 : Int) < 100 + _
    omega
  pipes _ _ := rfl
  room := by decide

theorem executePipeline_shell_two : ∃ calls,
    Returns (executePipeline workingSys listAndCount) mockResetAll ()
      { mockResetAll with log := mockResetAll.log ++ calls } ∧ ShellCalls calls 2 true :=
  executePipeline_shell rfl rfl workingSys_succeeds

theorem cleansUp_iff_two : CleansUp workingSys listAndCount mockResetAll ↔
    ShellSucceeds workingSys 2 mockResetAll ∨ 2 = 1 ∧ true = false :=
  cleansUp_iff rfl rfl fun k => Or.inr (by show (0 : Int) < 100 + k; omega)

/-- No process can be created. -/
def failingFork : Sys := { workingSys with fork := fun _ => -1 }

theorem not_cleansUp_fork : ¬∀ (sys : Sys) (apipe : Pipeline) (w : World), apipe.isEmpty = false →
    builtinAlone apipe = some false → (∀ k, sys.fork k = -1 ∨ 0 < sys.fork k) → CleansUp sys apipe w := by
  intro h
  obtain ⟨calls, hreturns, -⟩ := h failingFork listAndCount mockResetAll rfl rfl fun _ => Or.inl rfl
  have hleak : ((executePipeline failingFork listAndCount mockResetAll).2.fds 3).isSome = true := by decide
  rw [hreturns] at hleak
  cases hleak

end LabSO.Shell
