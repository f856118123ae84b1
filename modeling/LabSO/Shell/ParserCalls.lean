import LabSO.Shell.ExecuteParent
import LabSO.Shell.ParsingGivenUp

/-! The loop of `main`, and the calls that it and `parse_pipeline` make to the parser. `parser.h` and `parsing.h` require
    that no call is made at the end of the input. -/

namespace LabSO.Shell
open Program

variable {σ : Type}

/-- The functions that may not be called at the end of the input. -/
inductive ParserCall
  | parsePipeline
  | nextArgument
  | skipBlanks
  | opPipe
  | opBackground
  | garbage
deriving DecidableEq, Repr

/-- The calls made so far, each with the parser at its start. -/
abbrev Record (σ : Type) := List (ParserCall × σ)

/-- The parser `L` that records the calls made to it. -/
def ParserLib.recorded (L : ParserLib σ) : ParserLib (σ × Record σ) where
  nextArgument s := ((L.nextArgument s.1).1, (L.nextArgument s.1).2.1, (L.nextArgument s.1).2.2,
    s.2 ++ [(.nextArgument, s.1)])
  opBackground s := ((L.opBackground s.1).1, (L.opBackground s.1).2, s.2 ++ [(.opBackground, s.1)])
  skipBlanks s := (L.skipBlanks s.1, s.2 ++ [(.skipBlanks, s.1)])
  opPipe s := ((L.opPipe s.1).1, (L.opPipe s.1).2, s.2 ++ [(.opPipe, s.1)])
  garbage s := ((L.garbage s.1).1, (L.garbage s.1).2, s.2 ++ [(.garbage, s.1)])
  atEof s := L.atEof s.1

/-- The calls of the first `rounds` rounds of the loop of `main`, where the world is `w`. The loop ends with the input,
    or with the process if `execute_pipeline` or an assertion ends it. -/
def mainCalls (L : ParserLib σ) (sys : Sys) (fuel : Nat) : Nat → σ → World → Record σ
  | 0, _, _ => []
  | rounds + 1, p, w => (.parsePipeline, p) ::
    match parsePipeline L.recorded fuel (p, []) with
    | .error _ => []
    | .ok (none, _, p, calls) => calls ++ if L.atEof p then [] else mainCalls L sys fuel rounds p w
    | .ok (some apipe, _, p, calls) => calls ++
      match executePipeline sys apipe w with
      | (.error _, _) => []
      | (.ok (), w) => if L.atEof p then [] else mainCalls L sys fuel rounds p w

/-- No call is made at the end of the input. -/
def AllMet (L : ParserLib σ) (calls : Record σ) : Prop := ∀ call ∈ calls, L.atEof call.2 = false

/-- The shell keeps to what `parser.h` and `parsing.h` require, whatever the system does. -/
def MeetsRequires (L : ParserLib σ) (fuel : Nat) (p : σ) : Prop :=
  ∀ sys w rounds, AllMet L (mainCalls L sys fuel rounds p w)

/-- The input ends with the commands of the line, or with the `&` after them. -/
def Ends (word : Char → Bool) (txt : Text) : Prop :=
  ∃ cmds t, PipelineText word cmds t ∧ (txt = t ∨ txt = t ++ ['&'])

/-- The line is the command `exit`, with arguments or without. -/
def ExitLine (word : Char → Bool) (txt : Text) : Prop :=
  ∃ items background rest, LineText word [items] background txt rest ∧ (commandOf items).front = some "exit".toList

/-- The loop of `main` reads a line at `r` when the input is `txt`, unless the system ends it. -/
inductive Begins (word : Char → Bool) (txt : Text) : Text → Prop
  | start : Begins word txt txt
  | next {r rest : Text} (hr : Begins word txt r) (hleaves : Leaves word r rest) (hne : rest ≠ [])
    (hexit : ¬ExitLine word r) : Begins word txt rest

/-! ### The calls for one line -/

section
variable {L : ParserLib σ} {unread : σ → Text} {word : Char → Bool}

theorem atEof_false_iff (heof : ∀ p, L.atEof p = true ↔ unread p = []) (p : σ) : L.atEof p = false ↔ unread p ≠ [] := by
  rw [← Bool.not_eq_true, heof]

theorem AllMet.nil : AllMet L [] := nofun

theorem allMet_append {calls calls' : Record σ} : AllMet L (calls ++ calls') ↔ AllMet L calls ∧ AllMet L calls' :=
  List.forall_mem_append

theorem allMet_cons {call : ParserCall} {p : σ} {calls : Record σ} :
    AllMet L ((call, p) :: calls) ↔ L.atEof p = false ∧ AllMet L calls :=
  List.forall_mem_cons

theorem recorded_documented (h : L.Documented unread word) : L.recorded.Documented (fun s => unread s.1) word where
  word_plain := h.word_plain
  atEof s := h.atEof s.1
  nextArgument s := h.nextArgument s.1
  skipBlanks s := h.skipBlanks s.1
  opPipe s := h.opPipe s.1
  opBackground s := h.opBackground s.1
  garbage s := h.garbage s.1

/-- The loop of `parse_scommand` asks for the end of the input before each call. -/
theorem parseScommandLoop_calls {fuel : Nat} {s t : σ × Record σ} {scom : Scommand} {r : Option Scommand}
    (hrun : parseScommandLoop L.recorded fuel s scom = .ok (r, t)) : ∃ calls, t.2 = s.2 ++ calls ∧ AllMet L calls := by
  induction fuel generalizing s scom with
  | zero => cases hrun
  | succ fuel ih =>
    rw [parseScommandLoop] at hrun
    by_cases heof : L.recorded.atEof s = true
    · rw [if_pos heof] at hrun
      cases hrun
      exact ⟨[], (List.append_nil _).symm, .nil⟩
    · rw [if_neg heof] at hrun
      rcases hcall : L.recorded.nextArgument s with ⟨arg, kind, s'⟩
      have hs' : s'.2 = s.2 ++ [(.nextArgument, s.1)] := (congrArg (fun r => r.2.2.2) hcall).symm
      have hmet : AllMet L [(.nextArgument, s.1)] := allMet_cons.mpr ⟨by rwa [Bool.not_eq_true] at heof, .nil⟩
      have next : ∀ {scom}, parseScommandLoop L.recorded fuel s' scom = .ok (r, t) →
          ∃ calls, t.2 = s.2 ++ calls ∧ AllMet L calls := by
        intro scom hrun'
        obtain ⟨calls, ht, hcalls⟩ := ih hrun'
        exact ⟨_, ht.trans (by rw [hs', List.append_assoc]), allMet_append.mpr ⟨hmet, hcalls⟩⟩
      rw [hcall] at hrun
      cases arg with
      | none =>
        cases kind <;> cases hrun <;> exact ⟨_, hs', hmet⟩
      | some par =>
        cases kind with
        | normal => exact next hrun
        | input => exact next hrun
        | output => exact next hrun

/-- The loop of `parse_pipeline` calls the parser at the end of the input exactly if it ends there with a pipeline. -/
theorem parsePipelineLoop_calls (h : L.Documented unread word) (heof : ∀ p, L.atEof p = true ↔ unread p = [])
    {fuel rounds : Nat} {s t : σ × Record σ} {result : Pipeline} {r : Option Pipeline}
    (hrun : parsePipelineLoop L.recorded fuel rounds s result = .ok (r, t)) :
    ∃ calls, t.2 = s.2 ++ calls ∧ (AllMet L calls ↔ r = none ∨ unread t.1 ≠ []) := by
  have hmet := atEof_false_iff heof
  induction rounds generalizing s result with
  | zero => cases hrun
  | succ rounds ih =>
    rw [parsePipelineLoop] at hrun
    rcases hcmd : parseScommand L.recorded fuel s with stop | ⟨r', s₁⟩ <;> rw [hcmd] at hrun
    · cases hrun
    obtain ⟨calls₁, hs₁, hcalls₁⟩ := parseScommandLoop_calls hcmd
    rcases r' with _ | cmd
    · cases hrun
      exact ⟨calls₁, hs₁, iff_of_true hcalls₁ (Or.inl rfl)⟩
    have hskip : unread (L.skipBlanks s₁.1) = (unread s₁.1).dropWhile isBlank := h.skipBlanks s₁.1
    have hop := h.opPipe (L.skipBlanks s₁.1) (by rw [hskip]; exact head?_dropWhile)
    -- The two calls that follow each command.
    have htwo : AllMet L (calls₁ ++ [(.skipBlanks, s₁.1), (.opPipe, L.skipBlanks s₁.1)]) ↔
        unread (L.skipBlanks s₁.1) ≠ [] := by
      rw [allMet_append, allMet_cons, allMet_cons, hmet, hmet]
      refine ⟨fun hall => hall.2.2.1, fun hne => ⟨hcalls₁, ?_, hne, .nil⟩⟩
      intro hnil
      rw [hskip, hnil] at hne
      exact hne rfl
    have hrecord : ∀ s₂, (L.recorded.opPipe (L.recorded.skipBlanks s₁)).2 = s₂ →
        s₂.1 = (L.opPipe (L.skipBlanks s₁.1)).2 ∧
          s₂.2 = s.2 ++ (calls₁ ++ [(.skipBlanks, s₁.1), (.opPipe, L.skipBlanks s₁.1)]) := by
      rintro _ rfl
      refine ⟨rfl, ?_⟩
      show s₁.2 ++ [(.skipBlanks, s₁.1)] ++ [(.opPipe, L.skipBlanks s₁.1)] = _
      rw [hs₁, List.append_assoc, List.append_assoc]
      rfl
    rcases hcall : L.recorded.opPipe (L.recorded.skipBlanks s₁) with ⟨piped, s₂⟩
    obtain ⟨hp₂, hs₂⟩ := hrecord s₂ (congrArg Prod.snd hcall)
    have hpiped : (L.opPipe (L.skipBlanks s₁.1)).1 = piped := congrArg Prod.fst hcall
    rw [hpiped, ← hp₂, readOperator] at hop
    dsimp only at hrun
    rw [hcall] at hrun
    by_cases hpipe : (unread (L.skipBlanks s₁.1)).head? = some '|'
    · rw [if_pos hpipe, Prod.mk.injEq] at hop
      obtain ⟨rfl, -⟩ := hop
      obtain ⟨calls, ht, hcalls⟩ := ih hrun
      refine ⟨_, ht.trans (by rw [hs₂, List.append_assoc]), ?_⟩
      rw [allMet_append, htwo, hcalls]
      refine and_iff_right ?_
      intro hnil
      simp [hnil] at hpipe
    · rw [if_neg hpipe, Prod.mk.injEq] at hop
      obtain ⟨rfl, hp₂'⟩ := hop
      cases hrun
      refine ⟨_, hs₂, ?_⟩
      rw [htwo, hp₂']
      simp

/-- After the loop, the input ends with the commands or with the `&` if nothing else is left. -/
theorem ends_iff (h : L.Documented unread word) {fuel : Nat} {p q : σ} {r : Option Pipeline}
    (hfuel : (unread p).length < fuel) (hloop : parsePipelineLoop L fuel fuel p Pipeline.new = .ok (r, q)) :
    Ends word (unread p) ↔ r ≠ none ∧ (unread q = [] ∨ unread q = ['&']) := by
  have hstops : ∀ rest, rest = [] ∨ rest = ['&'] → LineStops word rest := by
    rintro _ (rfl | rfl)
    · exact ⟨nofun, nofun⟩
    · exact ⟨stops_special h.word_plain (by decide) (by decide) (by decide), by decide⟩
  have hforward : ∀ {cmds t rest}, PipelineText word cmds t → unread p = t ++ rest → (rest = [] ∨ rest = ['&']) →
      r ≠ none ∧ unread q = rest := by
    intro cmds t rest hcmds hp hrest
    obtain ⟨q', hrun, hq'⟩ := parsePipelineLoop_text h hcmds (hstops rest hrest) fuel fuel p Pipeline.new hp hfuel hfuel
    rw [hloop] at hrun
    cases hrun
    exact ⟨nofun, hq'⟩
  constructor
  · rintro ⟨cmds, t, hcmds, hp | hp⟩
    · obtain ⟨hr, hq⟩ := hforward hcmds (by rw [hp, List.append_nil]) (Or.inl rfl)
      exact ⟨hr, Or.inl hq⟩
    · obtain ⟨hr, hq⟩ := hforward hcmds hp (Or.inr rfl)
      exact ⟨hr, Or.inr hq⟩
  · rintro ⟨hr, hq⟩
    obtain ⟨r, rfl⟩ := Option.ne_none_iff_exists'.mp hr
    obtain ⟨cmds, t, _, hcmds, hp, rfl, -⟩ := parsePipelineLoop_inv h fuel fuel hloop
    rcases hq with hq | hq
    · exact ⟨cmds, t, hcmds, Or.inl (by rw [hp, hq, List.append_nil])⟩
    · exact ⟨cmds, t, hcmds, Or.inr (by rw [hp, hq])⟩

/-- The calls of one `parse_pipeline`. -/
theorem parsePipeline_calls (h : L.Documented unread word) (heof : ∀ p, L.atEof p = true ↔ unread p = []) {fuel : Nat}
    {p : σ} (hp : unread p ≠ []) (hfuel : (unread p).length < fuel) :
    ∃ r printed q calls, parsePipeline L.recorded fuel (p, []) = .ok (r, printed, q, calls) ∧
      (AllMet L calls ↔ ¬Ends word (unread p)) := by
  have hmet := atEof_false_iff heof
  have hrec := recorded_documented h
  obtain ⟨r', s, hloop, -, hend⟩ := parsePipelineLoop_read hrec fuel fuel (p, []) Pipeline.new hfuel hfuel
  obtain ⟨calls, hs, hcalls⟩ := parsePipelineLoop_calls h heof hloop
  have hends := ends_iff hrec hfuel hloop
  rw [parsePipeline, if_neg (show ¬L.recorded.atEof (p, []) = true from fun hnil => hp ((heof p).mp hnil)), hloop]
  rw [List.nil_append] at hs
  cases r' with
  | none => exact ⟨none, _, s.1, s.2, rfl, by rw [hs, hcalls, hends]; simp⟩
  | some result =>
    have hop := congrArg Prod.snd (h.opBackground s.1 (hend rfl).2)
    dsimp only at hop
    -- The two calls after the loop.
    have htwo : AllMet L (s.2 ++ [(.opBackground, s.1)] ++ [(.garbage, (L.opBackground s.1).2)]) ↔
        ¬Ends word (unread p) := by
      rw [allMet_append, allMet_append, allMet_cons, allMet_cons, hmet, hmet, hs, hcalls, hends, hop, readOperator]
      by_cases hamp : (unread s.1).head? = some '&'
      · obtain ⟨rest, hrest⟩ := List.head?_eq_some_iff.mp hamp
        simp [hrest, AllMet.nil]
      · have hne : unread s.1 ≠ ['&'] := fun heq => hamp (by rw [heq]; rfl)
        simp [if_neg hamp, hne, AllMet.nil]
    simp only
    split
    · exact ⟨_, _, _, _, rfl, htwo⟩
    · split
      · exact ⟨_, _, _, _, rfl, htwo⟩
      · exact ⟨_, _, _, _, rfl, htwo⟩

/-! ### What the pipelines do to the shell -/

/-- `exit` ends the process. -/
theorem executePipeline_exit {items : List Item} {background : Bool}
    (hfront : (commandOf items).front = some "exit".toList) (sys : Sys) (w : World) :
    Halts (executePipeline sys (pipelineOf [items] background)) w (.exit 0) w := by
  have hinternal : builtinIsInternal (commandOf items) = some true := by
    rw [builtinIsInternal, hfront]
    rfl
  have halone : builtinAlone (pipelineOf [items] background) = some true := by
    rw [builtinAlone, if_pos (show (pipelineOf [items] background).length = 1 from rfl)]
    exact hinternal
  rw [executePipeline, if_neg (show ¬(pipelineOf [items] background).isEmpty = true from by rintro ⟨⟩)]
  refine (Returns.orHalt halone).bind_halts ?_
  rw [if_pos rfl]
  refine (Returns.orHalt (a := commandOf items) rfl).bind_halts ?_
  rw [builtinRun, hinternal, hfront]
  exact .halt

/-- A line `exit` is read, and ends the process. -/
theorem ExitLine.run (h : L.Documented unread word) {fuel : Nat} {p q : σ} {r : Option Pipeline} {printed : String}
    (hexit : ExitLine word (unread p)) (hfuel : (unread p).length < fuel)
    (hrun : parsePipeline L fuel p = .ok (r, printed, q)) :
    ∃ apipe, r = some apipe ∧ ∀ sys w, Halts (executePipeline sys apipe) w (.exit 0) w := by
  obtain ⟨items, background, rest, hline, hfront⟩ := hexit
  have hword : HasWord items := by
    by_contra hnone
    have hlen := (commandOf_length_eq_zero_iff items).mpr hnone
    rw [Scommand.front, List.length_eq_zero_iff.mp hlen] at hfront
    cases hfront
  obtain ⟨q', hrun', -⟩ := parsePipeline_of_line h hline (by simpa using hword) hfuel
  rw [hrun] at hrun'
  cases hrun'
  exact ⟨_, rfl, executePipeline_exit hfront⟩

/-- `cd` and `help` return, with the descriptors as they were. -/
theorem builtinRun_works (sys : Sys) (cmd : Scommand) {first : Text} (hfront : cmd.front = some first)
    (hinternal : internCommand.contains first = true) (hexit : first ≠ "exit".toList) (w : World) :
    Wp (fun _ => False) (builtinRun sys cmd) (fun _ t => t.fds = w.fds) w := by
  obtain ⟨command, redirOut, redirIn⟩ := cmd
  obtain ⟨args, rfl⟩ := List.head?_eq_some_iff.mp hfront
  have hcd : Wp (fun _ => False) (builtinCd sys ⟨first :: args, redirOut, redirIn⟩) (fun _ t => t.fds = w.fds) w := by
    rw [builtinCd]
    refine Wp.ite (fun _ => Wp.liftState rfl) fun hlen => ?_
    cases args with
    | nil => exact absurd rfl hlen
    | cons route args =>
      refine Wp.seq (Wp.of_returns (Returns.orHalt rfl) ?_)
      refine Wp.seq (Wp.of_returns (Returns.orHalt rfl) ?_)
      refine Wp.liftState_bind ?_
      exact Wp.onlyIf (fun _ => Wp.liftState rfl) fun _ => rfl
  rw [builtinRun, builtinIsInternal, hfront, Option.map_some, hinternal]
  have hmem : first = "cd".toList ∨ first = "help".toList ∨ first = "exit".toList := by
    simpa [internCommand] using hinternal
  rcases hmem with rfl | rfl | rfl
  · exact hcd
  · exact Wp.liftState rfl
  · exact absurd rfl hexit

/-- Where every system call succeeds, the shell goes on after a pipeline, with its descriptors as they were. -/
theorem executePipeline_works {apipe : Pipeline} {w : World} (hne : apipe.isEmpty = false)
    (honly : onlyEmpty apipe = false) (hexit : apipe.length = 1 → apipe.front.bind Scommand.front ≠ some "exit".toList)
    (hw : w.fds = mockResetAll.fds) :
    ∃ w', Returns (executePipeline workingSys apipe) w () w' ∧ w'.fds = mockResetAll.fds := by
  have hok : ShellSucceeds workingSys apipe.length w := by
    refine ⟨fun k _ => ?_, fun _ _ => rfl, ?_⟩
    · show (0 : Int) < 100 + _
      omega
    · rw [hw]
      have hroom : 4 ≤ free workingSys mockResetAll.fds := by decide
      omega
  have hexternal : builtinAlone apipe = some false → ∃ w', Returns (executePipeline workingSys apipe) w () w' ∧
      w'.fds = mockResetAll.fds := by
    intro halone
    obtain ⟨calls, hreturns, -⟩ := executePipeline_shell hne halone hok
    exact ⟨_, hreturns, hw⟩
  by_cases hone : apipe.length = 1
  · obtain ⟨scommands, wait⟩ := apipe
    obtain ⟨sc, rfl⟩ := List.length_eq_one_iff.mp hone
    obtain ⟨command, redirOut, redirIn⟩ := sc
    cases command with
    | nil => cases honly
    | cons first args =>
      have halone : builtinAlone ⟨[⟨first :: args, redirOut, redirIn⟩], wait⟩ = some (internCommand.contains first) := rfl
      cases hinternal : internCommand.contains first with
      | false => exact hexternal (by rw [halone, hinternal])
      | true =>
        have hfirst : first ≠ "exit".toList := fun heq => hexit hone (by rw [heq]; rfl)
        have hrun := builtinRun_works workingSys ⟨first :: args, redirOut, redirIn⟩ rfl hinternal hfirst w
        obtain ⟨_, w', hreturns, hfds⟩ := hrun.returns fun _ => id
        refine ⟨w', ?_, hfds.trans hw⟩
        rw [executePipeline, if_neg (by simp [Pipeline.isEmpty]), halone, hinternal]
        exact hreturns
  · exact hexternal (by rw [builtinAlone, if_neg hone])

/-! ### The loop of `main` -/

theorem Leaves.length_le {txt rest : Text} (h : Leaves word txt rest) : rest.length ≤ txt.length := by
  rcases h with h | ⟨-, rfl⟩
  · exact h.length_lt.le
  · have hle : (txt.dropWhile (· != '\n')).length ≤ txt.length := (List.dropWhile_sublist _).length_le
    rw [afterLine, List.length_tail]
    omega

theorem Leaves.ne_nil {txt rest : Text} (h : Leaves word txt rest) (hrest : rest ≠ []) : txt ≠ [] := by
  rintro rfl
  have hle := h.length_le
  exact hrest (List.length_eq_zero_iff.mp (Nat.le_zero.mp hle))

theorem ends_nil : Ends word [] := ⟨[[]], [], .last (.done (by simp [Blanks])), Or.inl rfl⟩

/-- While no line that begins ends the input, the shell keeps to what is required. -/
theorem mainCalls_met (h : L.Documented unread word) (heof : ∀ p, L.atEof p = true ↔ unread p = []) {sys : Sys}
    {txt : Text} (hok : ∀ r, Begins word txt r → ¬Ends word r) {fuel : Nat} (rounds : Nat) {p : σ} (w : World)
    (hp : Begins word txt (unread p)) (hfuel : (unread p).length < fuel) :
    AllMet L (mainCalls L sys fuel rounds p w) := by
  have hmet := atEof_false_iff heof
  have hrec := recorded_documented h
  induction rounds generalizing p w with
  | zero => exact .nil
  | succ rounds ih =>
    have hne : unread p ≠ [] := by
      intro hnil
      rw [hnil] at hp
      exact hok _ hp ends_nil
    obtain ⟨r, printed, q, calls, hrun, hcalls⟩ := parsePipeline_calls h heof hne hfuel
    have hleaves := (leaves_iff hrec hrun hfuel _).mpr rfl
    have hlen : (unread q).length ≤ (unread p).length := hleaves.length_le
    -- The shell goes on only if the line was not `exit`, and some input is left.
    have next : ¬ExitLine word (unread p) → ∀ w,
        AllMet L (if L.atEof q = true then [] else mainCalls L sys fuel rounds q w) := by
      intro hexit w
      by_cases hq : L.atEof q = true
      · rw [if_pos hq]
        exact .nil
      · rw [if_neg hq]
        refine ih w (.next hp hleaves ?_ hexit) (by omega)
        exact fun hnil => hq ((heof q).mpr hnil)
    rw [mainCalls, hrun]
    refine allMet_cons.mpr ⟨(hmet p).mpr hne, ?_⟩
    cases r with
    | none =>
      refine allMet_append.mpr ⟨hcalls.mpr (hok _ hp), next ?_ w⟩
      intro hexit
      obtain ⟨apipe, hnone, -⟩ := ExitLine.run hrec hexit hfuel hrun
      cases hnone
    | some apipe =>
      refine allMet_append.mpr ⟨hcalls.mpr (hok _ hp), ?_⟩
      rcases hexec : executePipeline sys apipe w with ⟨e | _, w'⟩
      · exact .nil
      · refine next ?_ w'
        intro hexit
        obtain ⟨apipe', heq, hhalts⟩ := ExitLine.run hrec hexit hfuel hrun
        cases heq
        exact (hhalts sys w).not_returns hexec

/-- On a system where every call succeeds, the shell comes to each line that begins. -/
theorem mainCalls_reach (h : L.Documented unread word) (heof : ∀ p, L.atEof p = true ↔ unread p = []) {fuel : Nat} {p : σ}
    (hfuel : (unread p).length < fuel) {r : Text} (hr : Begins word (unread p) r) :
    ∃ rounds q w, unread q = r ∧ w.fds = mockResetAll.fds ∧ (unread q).length < fuel ∧
      ∀ k, mainCalls L workingSys fuel k q w ⊆ mainCalls L workingSys fuel (k + rounds) p mockResetAll := by
  have hrec := recorded_documented h
  induction hr with
  | start => exact ⟨0, p, mockResetAll, rfl, rfl, hfuel, fun _ => List.Subset.refl _⟩
  | @next r rest hr hleaves hne hexit ih =>
    obtain ⟨rounds, q, w, rfl, hw, hq, hsub⟩ := ih
    obtain ⟨res, printed, q', calls, hrun, -⟩ := parsePipeline_calls h heof (hleaves.ne_nil hne) hq
    have hrest : unread q' = rest := (leaves_iff hrec hrun hq rest).mp hleaves
    have hmore : ¬L.atEof q' = true := fun hnil => hne (hrest.symm.trans ((heof q').mp hnil))
    have hlen := hleaves.length_le
    -- One more round leads to the next line.
    have hround : ∃ w', w'.fds = mockResetAll.fds ∧
        ∀ k, mainCalls L workingSys fuel k q' w' ⊆ mainCalls L workingSys fuel (k + 1) q w := by
      cases res with
      | none =>
        refine ⟨w, hw, fun k => ?_⟩
        rw [mainCalls, hrun]
        dsimp only
        rw [if_neg hmore]
        exact List.Subset.trans (List.subset_append_right _ _) (List.subset_cons_self _ _)
      | some apipe =>
        obtain ⟨cmds, background, hline, rfl, honly⟩ := parsePipeline_inv hrec hrun
        have hempty : (pipelineOf cmds background).isEmpty = false := by
          simpa [Pipeline.isEmpty, pipelineOf] using hline.cmds_ne_nil
        obtain ⟨w', hreturns, hw'⟩ := executePipeline_works hempty honly (fun hone hfront => by
          obtain ⟨items, rfl⟩ := List.length_eq_one_iff.mp ((List.length_map _).symm.trans hone)
          exact hexit ⟨items, background, _, hline, hfront⟩) hw
        refine ⟨w', hw', fun k => ?_⟩
        rw [mainCalls, hrun]
        dsimp only
        rw [hreturns]
        dsimp only
        rw [if_neg hmore]
        exact List.Subset.trans (List.subset_append_right _ _) (List.subset_cons_self _ _)
    obtain ⟨w', hw', hround⟩ := hround
    refine ⟨rounds + 1, q', w', hrest, hw', by rw [hrest]; omega, fun k => List.Subset.trans (hround k) ?_⟩
    have hsub' := hsub (k + 1)
    rwa [Nat.add_right_comm, Nat.add_assoc] at hsub'

/-- The shell keeps to the requirements if and only if no line at which it begins to read ends with the input right after
    its commands or their `&`. -/
theorem meetsRequires_iff (h : L.Documented unread word) (heof : ∀ p, L.atEof p = true ↔ unread p = []) (fuel : Nat)
    (p : σ) (hfuel : (unread p).length < fuel) :
    MeetsRequires L fuel p ↔ ∀ r, Begins word (unread p) r → ¬Ends word r := by
  constructor
  · intro hall r hr hends
    obtain ⟨rounds, q, w, rfl, -, hq, hsub⟩ := mainCalls_reach h heof hfuel hr
    have hfirst : AllMet L (mainCalls L workingSys fuel 1 q w) := fun call hcall =>
      hall workingSys mockResetAll (1 + rounds) call (hsub 1 hcall)
    rw [mainCalls, allMet_cons] at hfirst
    obtain ⟨hq', hrest⟩ := hfirst
    have hne : unread q ≠ [] := by
      intro hnil
      rw [(heof q).mpr hnil] at hq'
      cases hq'
    obtain ⟨r, printed, q', calls, hrun, hcalls⟩ := parsePipeline_calls h heof hne hq
    rw [hrun] at hrest
    refine hcalls.mp ?_ hends
    cases r with
    | none => exact (allMet_append.mp hrest).1
    | some apipe => exact (allMet_append.mp hrest).1
  · intro hok sys w rounds
    exact mainCalls_met h heof hok rounds w .start hfuel

/-! ### Inputs whose last line is ended -/

theorem blanks_newline {b : Text} (hb : Blanks b) : '\n' ∉ b := by
  intro hmem
  cases hb _ hmem

theorem word_newline (hplain : ∀ c, word c = true → isBlank c = false ∧ isSpecial c = false) {w : Text}
    (hw : IsWord word w) : '\n' ∉ w := by
  intro hmem
  cases (hplain _ (hw.2 _ hmem)).2

theorem ItemsText.newline_notMem (hplain : ∀ c, word c = true → isBlank c = false ∧ isSpecial c = false) {glued : Bool}
    {items : List Item} {t : Text} (h : ItemsText word glued items t) : '\n' ∉ t := by
  induction h with
  | done hb => exact blanks_newline hb
  | item hb hsep hitem hrest ih =>
    simp only [List.mem_append, not_or]
    refine ⟨⟨blanks_newline hb, ?_⟩, ih⟩
    cases hitem with
    | normal hw => exact word_newline hplain hw
    | input hb hw => simp [blanks_newline hb, word_newline hplain hw]
    | output hb hw => simp [blanks_newline hb, word_newline hplain hw]

theorem PipelineText.newline_notMem (hplain : ∀ c, word c = true → isBlank c = false ∧ isSpecial c = false)
    {cmds : List (List Item)} {t : Text} (h : PipelineText word cmds t) : '\n' ∉ t := by
  induction h with
  | last hitems => exact hitems.newline_notMem hplain
  | pipe hitems hcmds ih => simp [hitems.newline_notMem hplain, ih]

theorem Leaves.suffix {txt rest : Text} (h : Leaves word txt rest) : rest <:+ txt := by
  rcases h with ⟨cmds, t, tail, -, rfl, c, b, rfl, -⟩ | ⟨-, rfl⟩
  · exact ⟨t ++ c :: b, by simp⟩
  · exact (List.tail_suffix _).trans (List.dropWhile_suffix _)

theorem Begins.getLast? {txt r : Text} (h : Begins word txt r) (htxt : txt.getLast? = some '\n') :
    r.getLast? = some '\n' := by
  induction h with
  | start => exact htxt
  | next hr hleaves hne hexit ih =>
    obtain ⟨u, rfl⟩ := hleaves.suffix
    rwa [List.getLast?_append_of_ne_nil _ hne] at ih

/-- An input that ends with a newline never ends within a line. -/
theorem meetsRequires_of_newline (h : L.Documented unread word) (heof : ∀ p, L.atEof p = true ↔ unread p = []) {fuel : Nat}
    {p : σ} (hfuel : (unread p).length < fuel) (hlast : (unread p).getLast? = some '\n') : MeetsRequires L fuel p := by
  refine (meetsRequires_iff h heof fuel p hfuel).mpr ?_
  rintro r hr ⟨cmds, t, hcmds, hends⟩
  have hmem : '\n' ∈ r := List.mem_of_getLast? (hr.getLast? hlast)
  have ht := hcmds.newline_notMem h.word_plain
  rcases hends with rfl | rfl
  · exact ht hmem
  · simp [ht] at hmem

end

theorem meetsRequires_iff_lines : MeetsRequires (textParser plainWord) 40 "ls | wc &\ncd\nls > \nexit\n".toList ↔
    ∀ r, Begins plainWord "ls | wc &\ncd\nls > \nexit\n".toList r → ¬Ends plainWord r :=
  meetsRequires_iff (textParser_documented plainWord_plain) (fun _ => List.isEmpty_iff) 40
    "ls | wc &\ncd\nls > \nexit\n".toList (by decide)

/-- On the input `ls` without a newline, `parse_pipeline` skips blanks at the end of the input. -/
theorem not_meetsRequires_unended : ¬∀ (p : Text) (fuel : Nat), p.length < fuel →
    MeetsRequires (textParser plainWord) fuel p := by
  intro hall
  have hbad : (ParserCall.skipBlanks, []) ∈ mainCalls (textParser plainWord) workingSys 5 1 "ls".toList mockResetAll := by
    decide
  cases hall "ls".toList 5 (by decide) workingSys mockResetAll 1 _ hbad

end LabSO.Shell
