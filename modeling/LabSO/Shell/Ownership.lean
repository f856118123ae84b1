import LabSO.Lib.Handles
import LabSO.Shell.ParsingGivenUp
import Mathlib.Algebra.Order.Group.Multiset

/-! `parse_pipeline` on a heap with a handle for each string of `parser_next_argument`, each `scommand` and each
    `pipeline`. The parser hands strings over to a command and commands over to the pipeline, and frees what a later
    redirection replaces. -/

namespace LabSO.Shell.Owned

open Program Handles

/-- Why a call does not return. -/
inductive Fault
  | doubleFree
  | assertion
  | fuel
deriving DecidableEq, Repr

/-- A string on the heap. -/
structure Str where
  handle : Nat
  text : Text
deriving DecidableEq, Repr

/-- `struct scommand_s` on the heap. -/
structure Scommand where
  handle : Nat
  command : List Str
  redirOut : Option Str
  redirIn : Option Str
deriving DecidableEq, Repr

/-- `struct pipeline_s` on the heap. -/
structure Pipeline where
  handle : Nat
  scommands : List Scommand
  wait : Bool
deriving DecidableEq, Repr

abbrev Run (α : Type) : Type := Prog Heap Fault α

/-! ### `command.c` -/

namespace Scommand

/-- The command without its handles. -/
def erase (self : Scommand) : Shell.Scommand where
  command := self.command.map Str.text
  redirOut := self.redirOut.map Str.text
  redirIn := self.redirIn.map Str.text

/-- The command and the strings stored in it. -/
def handles (self : Scommand) : Multiset Nat :=
  Multiset.ofList (self.command.map Str.handle) + (Multiset.ofList (self.redirOut.map Str.handle).toList +
    (Multiset.ofList (self.redirIn.map Str.handle).toList + {self.handle}))

def new : Run Scommand := do
  let handle ← malloc
  pure ⟨handle, [], none, none⟩

def destroy (self : Scommand) : Run Unit := do
  forEach (free .doubleFree) (self.command.map Str.handle)
  freeOption .doubleFree (self.redirOut.map Str.handle)
  freeOption .doubleFree (self.redirIn.map Str.handle)
  free .doubleFree self.handle

def pushBack (self : Scommand) (argument : Str) : Scommand :=
  { self with command := self.command ++ [argument] }

def setRedirIn (self : Scommand) (filename : Option Str) : Run Scommand := do
  freeOption .doubleFree (self.redirIn.map Str.handle)
  pure { self with redirIn := filename }

def setRedirOut (self : Scommand) (filename : Option Str) : Run Scommand := do
  freeOption .doubleFree (self.redirOut.map Str.handle)
  pure { self with redirOut := filename }

end Scommand

namespace Pipeline

/-- The pipeline without its handles. -/
def erase (self : Pipeline) : Shell.Pipeline where
  scommands := self.scommands.map Scommand.erase
  wait := self.wait

/-- The pipeline, its commands, and the strings stored in them. -/
def handles (self : Pipeline) : Multiset Nat := {self.handle} + (self.scommands.map Scommand.handles).sum

def new : Run Pipeline := do
  let handle ← malloc
  pure ⟨handle, [], true⟩

def pushBack (self : Pipeline) (sc : Scommand) : Pipeline :=
  { self with scommands := self.scommands ++ [sc] }

def popFront (self : Pipeline) : Run Pipeline :=
  match self.scommands with
  | [] => halt .assertion
  | sc :: rest => do
    sc.destroy
    pure { self with scommands := rest }

def setWait (self : Pipeline) (w : Bool) : Pipeline := { self with wait := w }

/-- The loop of `pipeline_destroy`, for `k` commands at most. -/
def destroyLoop : Nat → Pipeline → Run Pipeline
  | 0, self => if self.scommands.isEmpty then pure self else halt .fuel
  | k + 1, self =>
    if self.scommands.isEmpty then pure self
    else do
      let self ← self.popFront
      destroyLoop k self

def destroy (self : Pipeline) : Run Unit := do
  let self ← destroyLoop self.scommands.length self
  free .doubleFree self.handle

end Pipeline

/-! ### `parsing.c` -/

variable {σ : Type}

/-- `parser_next_argument`: a string that is returned is a new one. -/
def nextArgument (L : ParserLib σ) (p : σ) : Run (Option Str × ArgKind × σ) :=
  match L.nextArgument p with
  | (some text, kind, p) => do
    let handle ← malloc
    pure (some ⟨handle, text⟩, kind, p)
  | (none, kind, p) => pure (none, kind, p)

/-- The `while` loop of `parse_scommand`. Where it returns NULL, nothing holds `scom` any more. -/
def parseScommandLoop (L : ParserLib σ) : Nat → σ → Scommand → Run (Option Scommand × σ)
  | 0, _, _ => halt .fuel
  | fuel + 1, p, scom =>
    if L.atEof p then pure (some scom, p)
    else do
      match ← nextArgument L p with
      | (some par, .normal, p) => parseScommandLoop L fuel p (scom.pushBack par)
      | (some par, .input, p) =>
        let scom ← scom.setRedirIn (some par)
        parseScommandLoop L fuel p scom
      | (some par, .output, p) =>
        let scom ← scom.setRedirOut (some par)
        parseScommandLoop L fuel p scom
      | (none, .input, p) => pure (none, p)
      | (none, .output, p) => pure (none, p)
      | (none, .normal, p) => pure (some scom, p)

def parseScommand (L : ParserLib σ) (fuel : Nat) (p : σ) : Run (Option Scommand × σ) := do
  let scom ← Scommand.new
  parseScommandLoop L fuel p scom

/-- The `while (another_pipe)` loop of `parse_pipeline`, which destroys the pipeline where it returns NULL. -/
def parsePipelineLoop (L : ParserLib σ) (fuel : Nat) : Nat → σ → Pipeline → Run (Option Pipeline × σ)
  | 0, _, _ => halt .fuel
  | rounds + 1, p, result => do
    match ← parseScommand L fuel p with
    | (none, p) =>
      result.destroy
      pure (none, p)
    | (some cmd, p) =>
      let p := L.skipBlanks p
      let result := result.pushBack cmd
      match L.opPipe p with
      | (true, p) => parsePipelineLoop L fuel rounds p result
      | (false, p) => pure (some result, p)

/-- `parse_pipeline`: the pipeline (`none` for NULL), what was printed, and the parser afterwards. -/
def parsePipeline (L : ParserLib σ) (fuel : Nat) (p : σ) : Run (Option Pipeline × String × σ) :=
  if L.atEof p then halt .assertion
  else do
    let result ← Pipeline.new
    match ← parsePipelineLoop L fuel fuel p result with
    | (none, p) => pure (none, "error cmd\n", p)
    | (some result, p) =>
      let (wait, p) := L.opBackground p
      let result := result.setWait !wait
      let (gar, p) := L.garbage p
      if onlyEmpty result.erase then do
        result.destroy
        pure (none, "", p)
      else if gar then do
        result.destroy
        pure (none, "Error: invalid command.\n", p)
      else pure (some result, "", p)

/-! ### What the functions of `command.c` own -/

/-- No fault is allowed. -/
def Never (_ : Fault) : Prop := False

section
variable {s₀ s : Heap} {mine rest : Multiset Nat}

theorem Scommand.new_wp (hs : Owns s₀ mine s) :
    Wp Never Scommand.new (fun sc t => sc.erase = Shell.Scommand.new ∧ Owns s₀ (sc.handles + mine) t) s := by
  refine (malloc_wp hs).bind fun h t ht => Wp.pure ⟨rfl, ?_⟩
  simpa [Scommand.handles] using ht

theorem Scommand.destroy_wp {self : Scommand} (hs : Owns s₀ (self.handles + rest) s) :
    Wp Never self.destroy (fun _ t => Owns s₀ rest t) s := by
  rw [Scommand.handles, add_assoc, add_assoc, add_assoc] at hs
  refine (forEach_free_wp hs).bind fun _ t ht => ?_
  refine (freeOption_wp ht).bind fun _ t ht => ?_
  refine (freeOption_wp ht).bind fun _ t ht => ?_
  exact free_wp (by rwa [Multiset.singleton_add] at ht)

theorem Scommand.pushBack_handles (self : Scommand) (argument : Str) :
    (self.pushBack argument).handles = argument.handle ::ₘ self.handles := by
  simp [Scommand.handles, Scommand.pushBack, ← Multiset.coe_add, ← Multiset.singleton_add, add_assoc, add_left_comm]

theorem Scommand.setRedirIn_wp {self : Scommand} {filename : Str}
    (hs : Owns s₀ (filename.handle ::ₘ (self.handles + rest)) s) :
    Wp Never (self.setRedirIn (some filename)) (fun sc t =>
      sc.erase = self.erase.setRedirIn (some filename.text) ∧ Owns s₀ (sc.handles + rest) t) s := by
  have hold : filename.handle ::ₘ (self.handles + rest) = Multiset.ofList (self.redirIn.map Str.handle).toList +
      (({ self with redirIn := some filename } : Scommand).handles + rest) := by
    simp [Scommand.handles, ← Multiset.singleton_add, add_assoc, add_left_comm]
  rw [hold] at hs
  exact (freeOption_wp hs).bind fun _ t ht => Wp.pure ⟨rfl, ht⟩

theorem Scommand.setRedirOut_wp {self : Scommand} {filename : Str}
    (hs : Owns s₀ (filename.handle ::ₘ (self.handles + rest)) s) :
    Wp Never (self.setRedirOut (some filename)) (fun sc t =>
      sc.erase = self.erase.setRedirOut (some filename.text) ∧ Owns s₀ (sc.handles + rest) t) s := by
  have hold : filename.handle ::ₘ (self.handles + rest) = Multiset.ofList (self.redirOut.map Str.handle).toList +
      (({ self with redirOut := some filename } : Scommand).handles + rest) := by
    simp [Scommand.handles, ← Multiset.singleton_add, add_assoc, add_left_comm]
  rw [hold] at hs
  exact (freeOption_wp hs).bind fun _ t ht => Wp.pure ⟨rfl, ht⟩

theorem Pipeline.new_wp (hs : Owns s₀ mine s) :
    Wp Never Pipeline.new (fun r t => r.erase = Shell.Pipeline.new ∧ Owns s₀ (r.handles + mine) t) s := by
  refine (malloc_wp hs).bind fun h t ht => Wp.pure ⟨rfl, ?_⟩
  simpa [Pipeline.handles] using ht

theorem Pipeline.pushBack_handles (self : Pipeline) (sc : Scommand) :
    (self.pushBack sc).handles = sc.handles + self.handles := by
  simp only [Pipeline.handles, Pipeline.pushBack, List.map_append, List.map_cons, List.map_nil, List.sum_append,
    List.sum_cons, List.sum_nil, add_zero]
  rw [add_comm sc.handles, add_assoc]

theorem Pipeline.pushBack_erase (self : Pipeline) (sc : Scommand) :
    (self.pushBack sc).erase = self.erase.pushBack sc.erase := by
  simp [Pipeline.erase, Pipeline.pushBack, Shell.Pipeline.pushBack]

theorem Scommand.pushBack_erase (self : Scommand) (argument : Str) :
    (self.pushBack argument).erase = self.erase.pushBack argument.text := by
  simp [Scommand.erase, Scommand.pushBack, Shell.Scommand.pushBack]

theorem Pipeline.destroyLoop_wp {k : Nat} {self : Pipeline} (hk : self.scommands.length ≤ k)
    (hs : Owns s₀ ((self.scommands.map Scommand.handles).sum + rest) s) :
    Wp Never (Pipeline.destroyLoop k self) (fun r t => r.handle = self.handle ∧ Owns s₀ rest t) s := by
  obtain ⟨handle, scommands, wait⟩ := self
  induction k generalizing scommands s with
  | zero =>
    obtain rfl : scommands = [] := List.length_eq_zero_iff.mp (Nat.le_zero.mp hk)
    exact Wp.pure ⟨rfl, by simpa using hs⟩
  | succ k ih =>
    cases scommands with
    | nil => exact Wp.pure ⟨rfl, by simpa using hs⟩
    | cons sc rest' =>
      simp only [List.map_cons, List.sum_cons, add_assoc] at hs
      have hpop : Wp Never (Pipeline.popFront ⟨handle, sc :: rest', wait⟩)
          (fun r t => r = ⟨handle, rest', wait⟩ ∧ Owns s₀ ((rest'.map Scommand.handles).sum + rest) t) s :=
        (Scommand.destroy_wp hs).bind fun _ t ht => Wp.pure ⟨rfl, ht⟩
      refine hpop.bind ?_
      rintro _ t ⟨rfl, ht⟩
      exact ih rest' (Nat.le_of_succ_le_succ hk) ht

theorem Pipeline.destroy_wp {self : Pipeline} (hs : Owns s₀ (self.handles + rest) s) :
    Wp Never self.destroy (fun _ t => Owns s₀ rest t) s := by
  rw [Pipeline.handles, add_assoc, add_left_comm] at hs
  refine (Pipeline.destroyLoop_wp (Nat.le_refl _) hs).bind ?_
  rintro r t ⟨hr, ht⟩
  exact free_wp (by rwa [hr, ← Multiset.singleton_add])

/-! ### What the parser owns -/

variable {L : ParserLib σ}

/-- The loop of `parse_scommand` gives the command that its model without handles gives. What it owns at the end is a
    command, the one that it returns unless it returns NULL. -/
theorem parseScommandLoop_wp {fuel : Nat} {p q : σ} {scom : Scommand} {r : Option Shell.Scommand}
    (hrun : Shell.parseScommandLoop L fuel p scom.erase = .ok (r, q)) (hs : Owns s₀ (scom.handles + rest) s) :
    Wp Never (parseScommandLoop L fuel p scom) (fun res t => ∃ x sc, res = (x, q) ∧ x.map Scommand.erase = r ∧
      Owns s₀ (sc.handles + rest) t ∧ ∀ y ∈ x, y = sc) s := by
  induction fuel generalizing p scom s with
  | zero => cases hrun
  | succ fuel ih =>
    rw [Shell.parseScommandLoop] at hrun
    rw [parseScommandLoop]
    by_cases heof : L.atEof p = true
    · rw [if_pos heof] at hrun ⊢
      cases hrun
      exact Wp.pure ⟨_, scom, rfl, rfl, hs, fun x hx => (Option.some.inj hx).symm⟩
    · rw [if_neg heof] at hrun ⊢
      rcases hcall : L.nextArgument p with ⟨_ | text, kind, p'⟩ <;> rw [hcall] at hrun
      · have hnext : Returns (nextArgument L p) s (none, kind, p') s := by
          rw [nextArgument, hcall]
          exact .pure
        refine Wp.seq (Wp.of_returns hnext ?_)
        cases kind with
        | normal =>
          cases hrun
          exact Wp.pure ⟨_, scom, rfl, rfl, hs, fun x hx => (Option.some.inj hx).symm⟩
        | input =>
          cases hrun
          exact Wp.pure ⟨_, scom, rfl, rfl, hs, by rintro _ ⟨⟩⟩
        | output =>
          cases hrun
          exact Wp.pure ⟨_, scom, rfl, rfl, hs, by rintro _ ⟨⟩⟩
      · -- The new string goes to the command, which owns it from then on.
        have hnext : Wp Never (nextArgument L p) (fun res t => ∃ par : Str, par.text = text ∧
            res = (some par, kind, p') ∧ Owns s₀ (par.handle ::ₘ (scom.handles + rest)) t) s := by
          rw [nextArgument, hcall]
          exact (malloc_wp hs).bind fun h t ht => Wp.pure ⟨⟨h, text⟩, rfl, rfl, ht⟩
        refine hnext.bind ?_
        rintro _ t ⟨par, rfl, rfl, ht⟩
        cases kind with
        | normal =>
          refine ih (by rw [Scommand.pushBack_erase]; exact hrun) ?_
          rwa [Scommand.pushBack_handles, Multiset.cons_add]
        | input =>
          refine (Scommand.setRedirIn_wp ht).bind ?_
          rintro sc t ⟨hsc, ht⟩
          exact ih (by rw [hsc]; exact hrun) ht
        | output =>
          refine (Scommand.setRedirOut_wp ht).bind ?_
          rintro sc t ⟨hsc, ht⟩
          exact ih (by rw [hsc]; exact hrun) ht

theorem parseScommand_wp {fuel : Nat} {p q : σ} {r : Option Shell.Scommand}
    (hrun : Shell.parseScommand L fuel p = .ok (r, q)) (hs : Owns s₀ rest s) :
    Wp Never (parseScommand L fuel p) (fun res t => ∃ x sc, res = (x, q) ∧ x.map Scommand.erase = r ∧
      Owns s₀ (sc.handles + rest) t ∧ ∀ y ∈ x, y = sc) s := by
  refine (Scommand.new_wp hs).bind ?_
  rintro sc t ⟨hsc, ht⟩
  exact parseScommandLoop_wp (by rw [hsc]; exact hrun) ht

/-- What is owned where the loop of `parse_pipeline` ends: the pipeline, or, where it gives NULL, the command that was
    being read. -/
def LoopOwns (s₀ : Heap) (x : Option Pipeline) (s : Heap) : Prop :=
  match x with
  | some r => Owns s₀ r.handles s
  | none => ∃ sc : Scommand, Owns s₀ sc.handles s

theorem parsePipelineLoop_wp {fuel rounds : Nat} {p q : σ} {result : Pipeline} {r : Option Shell.Pipeline}
    (hrun : Shell.parsePipelineLoop L fuel rounds p result.erase = .ok (r, q)) (hs : Owns s₀ result.handles s) :
    Wp Never (parsePipelineLoop L fuel rounds p result) (fun res t => ∃ x, res = (x, q) ∧
      x.map Pipeline.erase = r ∧ LoopOwns s₀ x t) s := by
  induction rounds generalizing p result s with
  | zero => cases hrun
  | succ rounds ih =>
    rw [Shell.parsePipelineLoop] at hrun
    rw [parsePipelineLoop]
    rcases hcmd : Shell.parseScommand L fuel p with stop | ⟨r', p'⟩ <;> rw [hcmd] at hrun
    · cases hrun
    · refine (parseScommand_wp hcmd hs).bind ?_
      rintro _ t ⟨_ | cmd, sc, rfl, rfl, ht, hsc⟩
      · -- The pipeline is destroyed, and the command that was being read is not.
        cases hrun
        rw [add_comm] at ht
        exact (Pipeline.destroy_wp ht).bind fun _ t ht => Wp.pure ⟨none, rfl, rfl, sc, ht⟩
      · obtain rfl := hsc cmd rfl
        rw [← Pipeline.pushBack_handles] at ht
        dsimp only [Option.map_some] at hrun ⊢
        rw [← Pipeline.pushBack_erase] at hrun
        rcases hop : L.opPipe (L.skipBlanks p') with ⟨piped, p''⟩
        rw [hop] at hrun
        cases piped with
        | true => exact ih hrun ht
        | false =>
          cases hrun
          exact Wp.pure ⟨some _, rfl, rfl, ht⟩

/-- What is owned after `parse_pipeline`, by what its loop gave. -/
def CallOwns (s₀ : Heap) (x : Option Pipeline) (s : Heap) : Option Shell.Pipeline → Prop
  | some _ => Owns s₀ (x.elim 0 Pipeline.handles) s
  | none => x = none ∧ ∃ sc : Scommand, Owns s₀ sc.handles s

/-- `parse_pipeline` returns what its model without handles returns, and leaves a command behind where its loop gave
    NULL. -/
theorem parsePipeline_wp {fuel : Nat} {p q q' : σ} {r r' : Option Shell.Pipeline} {printed : String} (s : Heap)
    (hloop : Shell.parsePipelineLoop L fuel fuel p Shell.Pipeline.new = .ok (r', q'))
    (hrun : Shell.parsePipeline L fuel p = .ok (r, printed, q)) :
    Wp Never (parsePipeline L fuel p) (fun res t => ∃ x, res = (x, printed, q) ∧ x.map Pipeline.erase = r ∧
      CallOwns s x t r') s := by
  rw [Shell.parsePipeline, hloop] at hrun
  rw [parsePipeline]
  by_cases heof : L.atEof p = true
  · rw [if_pos heof] at hrun
    cases hrun
  · rw [if_neg heof] at hrun ⊢
    refine (Pipeline.new_wp (Owns.refl s)).bind ?_
    rintro result t ⟨hnew, ht⟩
    rw [add_zero] at ht
    rw [← hnew] at hloop
    refine (parsePipelineLoop_wp hloop ht).bind ?_
    rintro _ t ⟨_ | res, rfl, rfl, ht⟩
    · cases hrun
      exact Wp.pure ⟨none, rfl, rfl, rfl, ht⟩
    · have hdestroy : ∀ w, Wp Never (res.setWait w).destroy (fun _ t => Owns s 0 t) t := fun w =>
        Pipeline.destroy_wp (by rwa [add_zero])
      dsimp only [Option.map_some] at hrun ⊢
      by_cases honly : onlyEmpty (res.setWait !(L.opBackground q').1).erase = true
      · rw [if_pos honly]
        rw [if_pos (show onlyEmpty (res.erase.setWait !(L.opBackground q').1) = true from honly)] at hrun
        cases hrun
        exact (hdestroy _).bind fun _ t ht => Wp.pure ⟨none, rfl, rfl, ht⟩
      · rw [if_neg honly]
        rw [if_neg (show ¬onlyEmpty (res.erase.setWait !(L.opBackground q').1) = true from honly)] at hrun
        by_cases hgar : (L.garbage (L.opBackground q').2).1 = true
        · rw [if_pos hgar] at hrun ⊢
          cases hrun
          exact (hdestroy _).bind fun _ t ht => Wp.pure ⟨none, rfl, rfl, ht⟩
        · rw [if_neg hgar] at hrun ⊢
          cases hrun
          exact Wp.pure ⟨some _, rfl, rfl, ht⟩

end

/-! ### Ownership -/

variable {L : ParserLib σ} {unread : σ → Text} {word : Char → Bool}

/-- A call returns without freeing a handle twice, and the handles that it created and that are still live are those of
    the pipeline that it returns. -/
def Balanced (L : ParserLib σ) (fuel : Nat) (p : σ) (s : Heap) : Prop :=
  ∃ r printed q t, Returns (parsePipeline L fuel p) s (r, printed, q) t ∧
    created s t = (r : Option Pipeline).elim 0 Pipeline.handles

/-- The call frees what it does not return if and only if the line is not given up: a command that has a redirection
    without file name stays on the heap. -/
theorem balanced_iff (h : L.Documented unread word) (fuel : Nat) (p : σ) (s : Heap) (heof : L.atEof p = false)
    (hfuel : (unread p).length < fuel) : Balanced L fuel p s ↔ ¬∃ rest, GivenUp word (unread p) rest := by
  obtain ⟨r, printed, q, hrun, -⟩ := parsePipeline_read h heof hfuel
  rcases parsePipelineLoop_cases h hfuel with ⟨q', hloop, hgiven⟩ | ⟨cmds, -, q', hloop, -⟩
  · obtain ⟨_, t, hreturns, x, rfl, -, rfl, sc, ht⟩ := (parsePipeline_wp s hloop hrun).returns fun _ => id
    refine iff_of_false ?_ (not_not_intro ⟨_, hgiven⟩)
    rintro ⟨r', printed', q'', t', hreturns', hcreated⟩
    obtain ⟨heq, rfl⟩ := hreturns'.det hreturns
    cases heq
    have hmem : sc.handle ∈ created s t' := by
      rw [ht.created_eq, Scommand.handles]
      simp
    simp [hcreated] at hmem
  · obtain ⟨_, t, hreturns, x, rfl, -, ht⟩ := (parsePipeline_wp s hloop hrun).returns fun _ => id
    refine iff_of_true ⟨x, printed, q, t, hreturns, ht.created_eq⟩ ?_
    rintro ⟨rest, hgiven⟩
    exact PipelineText.not_givenUp h hloop hfuel rest hgiven

theorem balanced_iff_redirections : Balanced (textParser plainWord) 30 "ls > f > g | wc < h < h &
".toList Heap.empty ↔
    ¬∃ rest, GivenUp plainWord "ls > f > g | wc < h < h &
".toList rest :=
  balanced_iff (textParser_documented plainWord_plain) 30 "ls > f > g | wc < h < h &
".toList Heap.empty (by decide)
    (by decide)

/-- After `ls <` the command and its string `ls` are never freed. -/
theorem not_balanced_redirection : ¬∀ (p : Text) (fuel : Nat) (s : Heap), (textParser plainWord).atEof p = false →
    p.length < fuel → Balanced (textParser plainWord) fuel p s := by
  intro hall
  obtain ⟨r, printed, q, t, hreturns, hcreated⟩ := hall "ls <
".toList 10 Heap.empty (by decide) (by decide)
  have hrun : ∃ t, Returns (parsePipeline (textParser plainWord) 10 "ls <
".toList) Heap.empty
      (none, "error cmd
", "
".toList) t ∧ t.live = {1, 2} := ⟨_, rfl, by decide⟩
  obtain ⟨t', hreturns', hlive⟩ := hrun
  obtain ⟨heq, rfl⟩ := hreturns.det hreturns'
  cases heq
  have hmem : 1 ∈ created Heap.empty t := by simp [created, hlive, Heap.empty]
  rw [hcreated] at hmem
  cases hmem

end LabSO.Shell.Owned
