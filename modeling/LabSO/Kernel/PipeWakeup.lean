import LabSO.Kernel.PipeData

/-! Who sleeps on a pipe. A writer that puts bytes into the buffer wakes the readers before it gives up the lock, except
    where it returns because it was killed. -/

namespace LabSO.Pipes
open Monitor Transition

variable {n : Nat} {b b' : Data n} {P : Request n → Prop} {p q : Fin n} {c : Chan} {k k' : Point}

/-- Who sleeps on the channel has something to do. -/
def Due : Chan → Data n → Prop
  | .nread, b => ¬b.pipe.Empty ∨ b.pipe.writeopen = false
  | .nwrite, b => ¬b.pipe.Full ∨ b.pipe.readopen = false

/-- The channel on which a process at a place still wakes all; at `writeFail` it does not. -/
def Point.owed? : Point → Option Chan
  | .writeLoop .. | .writeOpen .. | .writeKilled .. | .writeFail .. | .writeBody .. | .writeDone .. => some .nread
  | .readCopy .. | .readDone .. => some .nwrite
  | .closeWakeup side => some side.wakes
  | _ => none

def Owes (_ : Thread n Empty) (k : Point) (c : Chan) : Prop := k.owed? = some c

theorem owes_set {a : Thread n Empty} (hop : op p b k = .set b' k') (hdue : Due c b') (h : Due c b → Owes a k c) :
    Owes a k' c := by
  cases k with
  | writeLoop w i =>
    cases hop
    split <;> exact h hdue
  | writeOpen w i =>
    cases hop
    split <;> exact h hdue
  | writeBody w i =>
    rw [op] at hop
    split at hop
    · cases hop
    · next hfull =>
      split at hop
      · cases hop
        exact h hdue
      · cases hop
        cases c with
        | nread => rfl
        | nwrite => exact absurd (h (Or.inl hfull)) (by rintro ⟨⟩)
  | readLoop r =>
    cases hop
    exact absurd (h hdue) (by rintro ⟨⟩)
  | readCopy r i =>
    rw [op] at hop
    split at hop
    · next hcond =>
      have hnwrite : c = .nwrite := by
        cases c with
        | nwrite => rfl
        | nread => exact absurd (h (Or.inl hcond.2)) (by rintro ⟨⟩)
      rw [hnwrite]
      split at hop <;> cases hop <;> rfl
    · cases hop
      exact h hdue
  | closeBody side =>
    cases hop
    cases c <;> cases side <;> first | rfl | exact absurd (h hdue) (by rintro ⟨⟩)
  | _ => cases hop

theorem signals (P : Request n → Prop) : Signals (code n) (notes P) Due Owes where
  set {a k b b' k' c} _ _ hop hdue h := by
    obtain p | a := a
    · exact owes_set hop hdue h
    · cases a
  wakeup {a k b c k' c'} _ _ hop hne _ howes := by
    obtain p | a := a
    · rcases op_wakeup hop with ⟨w, i, rfl, -, rfl, -⟩ | ⟨w, i, rfl, rfl, -⟩ | ⟨r, i, rfl, rfl, -⟩ | ⟨side, rfl, rfl, -⟩ <;>
        exact absurd (Option.some.inj howes).symm hne
    · cases a
  sleep {a k b c k'} _ hin hop := by
    obtain p | a := a
    · rcases op_sleep hop with ⟨w, i, rfl, rfl, -⟩ | ⟨r, rfl, rfl, -⟩
      · obtain ⟨-, hopen, hfull⟩ : _ ∧ b.pipe.readopen = true ∧ b.pipe.Full := hin
        exact ⟨by simp [Due, hopen, hfull], nofun⟩
      · obtain ⟨-, hempty, hopen⟩ : _ ∧ b.pipe.Empty ∧ b.pipe.writeopen = true := hin
        exact ⟨by simp [Due, hopen, hempty], nofun⟩
    · cases a
  killed {a k b yes no c} _ _ hop _ howes := by
    obtain p | a := a
    · rcases op_killed hop with ⟨w, i, rfl, rfl, rfl⟩ | ⟨r, rfl, -, -⟩
      · exact ⟨howes, howes⟩
      · cases howes
    · cases a
  enter {a x b b' o c} _ h hdue := by
    obtain p | a := a
    · have hpipe := (frame_enter h).pipe
      cases c <;> simpa only [Due, hpipe] using hdue
    · cases a
  env {e} := nomatch e

/-- A writer gives up the lock without a wakeup, as one that was killed does, with bytes in the buffer, while a reader
    sleeps or has given up the lock to sleep. -/
def LeavesUnwoken (s : PipeState n) (l : Action n Empty (Request n) Empty × Event n Empty Result) : Prop :=
  ∃ p w i q, l.1 = .step (.inl p) ∧ s.pcs (.inl p) = .at (.writeFail w i) ∧ ¬s.data.pipe.Empty ∧ Drowsy s q .nread

/-- With the lock of the pipe free, no reader sleeps that has something to read or nothing more to wait for, and no writer
    sleeps that has room to write or nobody to write for. -/
def Unstranded (s : PipeState n) : Prop :=
  s.lock = none → ∀ p, (s.slots p).status = .sleeping →
    ((s.slots p).chan = some .nread → s.data.pipe.Empty ∧ s.data.pipe.writeopen = true) ∧
    ((s.slots p).chan = some .nwrite → s.data.pipe.Full ∧ s.data.pipe.readopen = true)

theorem leavesUnwoken_of_strands {s : PipeState n} {l : Action n Empty (Request n) Empty × Event n Empty Result}
    (ho : Outlined (notes P) s) (h : Strands (code n) Due Owes s l) : LeavesUnwoken s l := by
  obtain ⟨p | a, k, result, c, q, hl, hpc, hop, howes, hdue, hq⟩ := h
  · rcases op_release hop with ⟨w, i, rfl, -⟩ | ⟨w, i, rfl, -⟩ | ⟨r, rfl, -⟩ | ⟨r, i, rfl, -⟩ | ⟨side, freed, rfl, -⟩
    case inl =>
      obtain rfl : Chan.nread = c := Option.some.inj howes
      have hin : Inside P p s.data (.writeFail w i) :=
        ho.inside (a := .inl p) (k := Point.writeFail w i) (by rw [hpc]; rfl)
      refine ⟨p, w, i, q, hl, hpc, ?_, hq⟩
      rcases hdue with hdue | hdue
      · exact hdue
      · rw [hin.1.open ho.data] at hdue
        cases hdue
    all_goals cases howes
  · cases a

theorem unstranded_of_signalled {s : PipeState n} (hl : Locked s) (h : Signalled Due Owes s) : Unstranded s := by
  intro hfree p hsleep
  refine ⟨fun hchan => ?_, fun hchan => ?_⟩
  · have hdue := h.not_due hl hfree hsleep hchan
    simpa [Due] using hdue
  · have hdue := h.not_due hl hfree hsleep hchan
    simpa [Due] using hdue

/-- As long as no writer leaves without a wakeup while a reader sleeps on bytes that it put in, no process is stranded. -/
theorem pipe_strands_none {s : PipeState n} {ls : List (Action n Empty (Request n) Empty × Event n Empty Result)}
    (hboot : Boot s) (hfresh : Fresh s.data) (hall : AllSteps (Step (code n)) s ls fun u l => ¬LeavesUnwoken u l) :
    AllStates (Step (code n)) s ls Unstranded := by
  have hok : ∀ l ∈ ls, CallOk (fun _ : Request n => True) l := fun l _ => callOk_true l
  have houtline := (outline fun _ => True).allStates hboot (outlined_boot hboot hfresh) hok
  intro ms t hms hrun
  refine unstranded_of_signalled (houtline ms t hms hrun).1 ?_
  refine (signals fun _ => True).run (outline _) hboot (outlined_boot hboot hfresh) (fun l hl => hok l (hms.subset hl)) ?_ hrun
  intro ns l u hns hu hstrands
  have hns' := hns.trans hms
  exact hall ns l u hns' hu (leavesUnwoken_of_strands (houtline ns u ((List.prefix_append ns [l]).trans hns') hu).2 hstrands)

attribute [local instance] Transition.neZero_two

/-- Process 1 sleeps to read from a pipe to which both have all references; process 0 writes one byte of `len`. -/
def sleepThenWrite (len : Int) : List (Action 2 Empty (Request 2) Empty) :=
  [.call (.inl 0) (.share .read 1), .call (.inl 0) (.share .write 1), .call (.inl 1) (.read 1 none)] ++
    List.replicate 8 (.step (.inl 1)) ++ [.call (.inl 0) (.write len (fun _ => 7) none)] ++ List.replicate 5 (.step (.inl 0))

/-- The write is done, and wakes process 1. -/
def wholeWrite : List (Action 2 Empty (Request 2) Empty) := sleepThenWrite 1 ++ List.replicate 6 (.step (.inl 0))

theorem wholeWrite_runs : (exec (step (code 2)) (boot 2 Empty Chan (fresh 0)) wholeWrite).isSome := by decide

theorem pipe_strands_none_wholeWrite :
    Unstranded ((exec (step (code 2)) (boot 2 Empty Chan (fresh 0)) wholeWrite).get wholeWrite_runs).2 := by
  have hnone : ∀ x ∈ steps (step (code 2)) (boot 2 Empty Chan (fresh 0)) wholeWrite, ∀ p : Fin 2,
      (match x.1.pcs (.inl p) with | .at (.writeFail ..) => false | _ => true) = true := by decide
  refine pipe_strands_none (boot_boot _) fresh_fresh (allSteps_exec wholeWrite_runs fun x hx => ?_) _ _ (List.prefix_refl _)
    (run_exec wholeWrite_runs)
  rintro ⟨p, w, i, q, -, hpc, -⟩
  have hp := hnone x hx p
  rw [hpc] at hp
  cases hp

/-- Process 0 is killed before it puts in its second byte, and returns. -/
def killedWriter : List (Action 2 Empty (Request 2) Empty) :=
  sleepThenWrite 2 ++ [.kill 0] ++ List.replicate 4 (.step (.inl 0))

theorem killedWriter_runs : (exec (step (code 2)) (boot 2 Empty Chan (fresh 0)) killedWriter).isSome := by decide

/-- Process 1 then sleeps although there is a byte to read, and the write side stays open. -/
theorem not_pipe_strands_none : ¬∀ (s : PipeState 2) (ls : List (Action 2 Empty (Request 2) Empty × Event 2 Empty Result)),
    Boot s → Fresh s.data → AllStates (Step (code 2)) s ls Unstranded := by
  intro h
  have hlast := h _ _ (boot_boot (fresh 0)) fresh_fresh _ _ (List.prefix_refl _) (run_exec killedWriter_runs)
  have hempty := ((hlast (by decide) 1 (by decide)).1 (by decide)).1
  exact absurd hempty (by decide)

end LabSO.Pipes
