import LabSO.Kernel.VirtioOutline

/-! The disk along a run: no descriptor is lost, no request is mixed up with another one, and no caller sleeps for ever. -/

namespace LabSO.Virtio
open Monitor Transition

variable {n m k : Nat} {d d' : Data n m} {p : Fin n} {b : Fin m} {w : Call m} {idx : Idx} {i : Nat} {point point' : Point m}

/-! ### Wakeups -/

/-- Who sleeps on the channel has something to do. -/
def Due : Chan m → Data n m → Prop
  | .free, d => 3 ≤ d.disk.freeCount
  | .buf b, d => d.bdisk b ≠ 1

/-- What a thread at a place still wakes. -/
def Point.owed? : Point m → Option (Chan m)
  | .chainWakeup .. => some .free
  | .intrWakeup b => some (.buf b)
  | _ => none

def Owes (_ : Thread n (Fin k)) (point : Point m) (c : Chan m) : Prop := point.owed? = some c

theorem freeCount_mono {disk disk' : Disk m} (h : ∀ i, disk'.free i = true → disk.free i = true) :
    disk'.freeCount ≤ disk.freeCount := by
  refine Finset.card_le_card fun i hi => ?_
  obtain ⟨hmem, hfree⟩ := Finset.mem_filter.mp hi
  exact Finset.mem_filter.mpr ⟨hmem, h i hfree⟩

/-- A step that frees nothing and marks no buffer as done gives nobody anything to do. -/
theorem Due.of {c : Chan m} (h : Due c d') (hfree : d'.disk.freeCount ≤ d.disk.freeCount)
    (hbdisk : ∀ b, d.bdisk b = 1 → d'.bdisk b = 1) : Due c d := by
  cases c with
  | free => exact Nat.le_trans h hfree
  | buf b => exact fun hb => h (hbdisk b hb)

theorem owes_rw {c : Chan m} (hin : RwInside p d point) (hop : rwOp p d point = .set d' point') (hdue : Due c d')
    (h : Due c d → point.owed? = some c) : point'.owed? = some c := by
  have hnone : Due c d → point.owed? = none → False := fun hd hnone => by
    rw [h hd] at hnone
    cases hnone
  cases point with
  | alloc w idx =>
    refine (hnone (hdue.of (freeCount_mono fun i hi => ?_) fun b hb => ?_) rfl).elim <;> rw [rwOp] at hop <;>
      split at hop
    · cases hop
      exact hi
    · next hsome =>
      obtain ⟨-, -, rfl⟩ := allocDesc_some hsome
      cases hop
      have hi' : Function.update d.disk.free _ false i = true := hi
      rw [Function.update_apply] at hi'
      split at hi'
      · cases hi'
      · exact hi'
    · cases hop
      exact hb
    · cases hop
      exact hb
  | undo w idx =>
    -- As many descriptors are free as were before the attempt, too few for another one.
    have hin' : RwInside p d' point' := (kept_set hin hop).inside
    obtain ⟨hinv, -, -⟩ := hin
    cases idx with
    | nil => cases hop
    | cons i idx =>
      rw [rwOp, (hinv.freeDesc (.undoWakeup w idx)).1] at hop
      cases hop
      obtain ⟨-, -, hcount⟩ := hin'
      cases c with
      | free =>
        have hle : 3 ≤ _ := hdue
        omega
      | buf b => exact (hnone hdue rfl).elim
  | record w idx =>
    refine (hnone ?_ rfl).elim
    cases hop
    refine hdue.of (Nat.le_refl _) fun b hb => ?_
    show Function.update d.bdisk w.b 1 b = 1
    rw [Function.update_apply]
    split
    · rfl
    · exact hb
  | waitLoop w idx =>
    rw [rwOp] at hop
    split at hop
    · cases hop
    · cases hop
      exact (hnone (hdue.of (Nat.le_refl _) fun _ hb => hb) rfl).elim
  | chain w i =>
    obtain ⟨l, hinv, -, hlinks⟩ := hin
    rw [rwOp, (hinv.freeDesc _).1] at hop
    cases hop
    cases c with
    | free => rfl
    | buf b => exact (hnone hdue rfl).elim
  | undoWakeup | chainWakeup | «return» => cases hop
  | formatHead | formatMid | formatTail | offer | advance | notify | finish =>
    cases hop
    exact (hnone (hdue.of (Nat.le_refl _) fun _ hb => hb) rfl).elim
  | intrLoop | intrTake | intrWakeup | intrNext | panic => cases hin

theorem owes_intr {c : Chan m} (hin : IntrInside d point) (hop : intrOp d point = .set d' point') (hdue : Due c d')
    (h : Due c d → point.owed? = some c) : point'.owed? = some c := by
  have hnone : Due c d → point.owed? = none → False := fun hd hnone => by
    rw [h hd] at hnone
    cases hnone
  cases point with
  | intrLoop =>
    rw [intrOp] at hop
    split at hop
    · cases hop
      exact (hnone hdue rfl).elim
    · cases hop
  | intrTake id =>
    obtain ⟨hinv, hfirst⟩ := hin
    obtain ⟨b, hb, hstatus, -⟩ := hinv.mark hfirst
    rw [intrOp, if_neg (by simp [hstatus]), hb] at hop
    cases hop
    cases c with
    | free => exact (hnone hdue rfl).elim
    | buf b' =>
      by_cases hbb : b' = b
      · rw [hbb]
        rfl
      · have hdue' : Function.update d.bdisk b 0 b' ≠ 1 := hdue
        rw [Function.update_of_ne hbb] at hdue'
        exact (hnone hdue' rfl).elim
  | intrNext =>
    cases hop
    exact (hnone (hdue.of (Nat.le_refl _) fun _ hb => hb) rfl).elim
  | intrWakeup => cases hop
  | _ => cases hin

theorem signals (n k m : Nat) : Signals (code n k m) (notes n k m) Due Owes where
  set {a point d d' point' c} _ hin hop hdue h := by
    obtain p | a := a
    · exact owes_rw hin hop hdue h
    · exact owes_intr hin hop hdue h
  wakeup {a point d c point' c'} _ _ hop hne _ howes := by
    obtain p | a := a
    · have hcase := rwOp_case p d point
      rw [show rwOp p d point = _ from hop] at hcase
      cases hcase with
      | undoWakeup w idx => cases howes
      | chainWakeup w next => exact absurd (Option.some.inj howes).symm hne
    · have hcase := intrOp_case d point
      rw [show intrOp d point = _ from hop] at hcase
      cases hcase
      exact absurd (Option.some.inj howes).symm hne
  sleep {a point d c point'} _ hin hop := by
    obtain p | a := a
    · have hcase := rwOp_case p d point
      rw [show rwOp p d point = _ from hop] at hcase
      cases hcase with
      | allocSleep w =>
        obtain ⟨-, -, hcount⟩ := hin
        exact ⟨Nat.not_le.mpr (Nat.lt_succ_of_le hcount), nofun⟩
      | waitSleep w idx bdisk => exact ⟨not_not.mpr bdisk, nofun⟩
    · have hcase := intrOp_case d point
      rw [show intrOp d point = _ from hop] at hcase
      cases hcase
  killed {a point d yes no c} _ _ hop := by
    obtain p | a := a
    · have hcase := rwOp_case p d point
      rw [show rwOp p d point = _ from hop] at hcase
      cases hcase
    · have hcase := intrOp_case d point
      rw [show intrOp d point = _ from hop] at hcase
      cases hcase
  enter {a r d d' o c} _ h hdue := by
    cases r with
    | rw b write blockno =>
      obtain p | a := a
      · obtain ⟨-, heq⟩ := Option.ite_none_right_eq_some.mp h
        cases heq
        exact hdue.of (Nat.le_refl _) fun _ hb => hb
      · cases h
    | intr =>
      obtain p | a := a
      · cases h
      · cases h
        exact hdue
  env {e d d' c} hinv h hdue := by
    obtain ⟨hold, busy, hinv⟩ := hinv
    obtain ⟨-, ha⟩ := hinv.deviceStep h
    exact hdue.of (Nat.le_of_eq (freeCount_aside ha)) fun b hb => ha.bdisk ▸ hb

/-- Nobody gives up the lock with a wakeup owed. -/
theorem not_strands {s : DiskState n k m} {l : Action n (Fin k) (Request m) DeviceStep × Event n (Fin k) (Result m)} :
    ¬Strands (code n k m) Due Owes s l := by
  rintro ⟨p | a, point, r, c, q, -, -, hop, howes, -, -⟩
  · have hcase := rwOp_case p s.data point
    rw [show rwOp p s.data point = _ from hop] at hcase
    cases hcase
    cases howes
  · have hcase := intrOp_case s.data point
    rw [show intrOp s.data point = _ from hop] at hcase
    cases hcase
    cases howes

/-! ### The disk in a state -/

/-- The chain with which a process waits at a place, from its offer to the device on. -/
def Point.inFlight? : Point m → Option (Call m × Idx)
  | .notify w idx | .waitLoop w idx => some (w, idx)
  | _ => none

/-- A process has a chain in flight for a call. -/
def InFlight (s : DiskState n k m) (p : Fin n) (w : Call m) (idx : Idx) : Prop :=
  ∃ point, ((s.pcs (.inl p)).inside? = some point ∨ (s.pcs (.inl p)).waiting? = some point) ∧ point.inFlight? = some (w, idx)

structure DiskOk (s : DiskState n k m) : Prop where
  /-- With the lock free, a descriptor is free or belongs to exactly one chain in flight. -/
  parts : s.lock = none → ∀ i, i < NUM →
    s.data.disk.free i = true ∧ (∀ p w idx, InFlight s p w idx → i ∉ idx.list) ∨
    s.data.disk.free i = false ∧ ∃! x : Fin n × Call m × Idx, InFlight s x.1 x.2.1 x.2.2 ∧ i ∈ x.2.2.list
  /-- A chain in flight has three descriptors. -/
  three : ∀ p w idx, InFlight s p w idx → idx.list.Nodup
  /-- An id that the device reports is the head of a chain in flight, and the buffer recorded with it is its caller's. -/
  reported : ∀ i, i ∈ s.data.disk.reported →
    ∃ p w idx, InFlight s p w idx ∧ idx.head = i ∧ (s.data.disk.info i).b = some w.b
  /-- Nobody panics. -/
  calm : ∀ a text, s.pcs a ≠ .at (.panic text)
  /-- With the lock free, nobody sleeps on a buffer that is done, nor for descriptors while there are enough. -/
  awake : s.lock = none → ∀ p, (s.slots p).status = .sleeping →
    (∀ b, (s.slots p).chan = some (.buf b) → s.data.bdisk b = 1) ∧
    ((s.slots p).chan = some .free → s.data.disk.freeCount < 3)

theorem sent_of_inFlight {s : DiskState n k m} (ho : Outlined (notes n k m) s) (h : InFlight s p w idx) : Sent p w idx s.data := by
  obtain ⟨point, hpc | hpc, hpoint⟩ := h
  · have hin : RwInside p s.data point := ho.inside hpc
    cases point with
    | notify w' idx' | waitLoop w' idx' =>
      cases hpoint
      exact hin.2
    | _ => cases hpoint
  · have hwaiting : Waiting (.inl p : Thread n (Fin k)) point s.data := ho.waiting hpc
    cases point with
    | notify w' idx' => cases hwaiting
    | waitLoop w' idx' =>
      cases hpoint
      exact hwaiting
    | _ => cases hpoint

/-- A chain that the device may still work on belongs to its caller, who waits. -/
theorem inFlight_of_chain {s : DiskState n k m} {c : Chain n m} (ho : Outlined (notes n k m) s)
    (hc : s.data.chains b = some c) : InFlight s c.caller c.call c.idx ∧ c.Ok b s.data := by
  obtain ⟨hold, busy, hinv⟩ := ho.data
  have hok := hinv.chain b c hc
  refine ⟨?_, hok⟩
  have hmatch : ∀ {w x ts}, Calling c.caller w x ts s.data → x = some c := fun h => by
    obtain rfl := (h.calls b).mp hok.caller
    exact h.chain.symm.trans hc
  have hat := ho.thread (.inl c.caller)
  have hinside : ∀ point, RwInside c.caller s.data point → point.inFlight? = some (c.call, c.idx) := fun point hin => by
    cases point with
    | notify w idx | waitLoop w idx =>
      exact congrArg (Option.map fun c : Chain n m => (c.call, c.idx)) (hmatch hin.2)
    | chain | chainWakeup =>
      obtain ⟨l, -, hserved, -⟩ := hin
      cases hmatch hserved
    | formatHead | finish => cases hmatch hin.2
    | alloc | undo | undoWakeup | formatMid | formatTail | record | offer | advance => cases hmatch hin.2.1
    | «return» w => exact absurd hok.caller (hin.2.1 b)
    | intrLoop | intrTake | intrWakeup | intrNext | panic => cases hin
  cases hpc : s.pcs (.inl c.caller) with
  | out => exact absurd hok.caller (hat.idle hpc b)
  | «at» point => exact ⟨point, Or.inl (by rw [hpc]; rfl), hinside point (hat.inside point (by rw [hpc]; rfl))⟩
  | wakeup _ _ point => exact ⟨point, Or.inl (by rw [hpc]; rfl), hinside point (hat.inside point (by rw [hpc]; rfl))⟩
  | acquire point | sleepAcquire _ point | sleepRelease _ point | sleepMark _ point | sleepSwitch _ point | asleep _ point =>
    have hwaiting : Waiting (.inl c.caller : Thread n (Fin k)) point s.data := hat.waiting point (by rw [hpc]; rfl)
    refine ⟨point, Or.inr (by rw [hpc]; rfl), ?_⟩
    cases point with
    | alloc w idx =>
      cases idx with
      | nil => cases hmatch hwaiting
      | cons i idx => cases hwaiting
    | waitLoop w idx =>
      exact congrArg (Option.map fun c : Chain n m => (c.call, c.idx)) (hmatch hwaiting)
    | _ => cases hwaiting

theorem diskOk_of {s : DiskState n k m} (hl : Locked s) (ho : Outlined (notes n k m) s) (hs : Signalled Due Owes s) :
    DiskOk s where
  parts hfree i hi := by
    have hrest : Inv [] none s.data := ho.rest (hl.inside_none hfree)
    have hnot : ∀ p w idx, InFlight s p w idx → i ∈ idx.list → s.data.disk.free i = false := fun p w idx hfl hmem =>
      (hrest.parts.chain_taken w.b _ (sent_of_inFlight ho hfl).chain i hmem).2.1
    cases hfr : s.data.disk.free i with
    | true =>
      refine Or.inl ⟨rfl, fun p w idx hfl hmem => ?_⟩
      rw [hnot p w idx hfl hmem] at hfr
      cases hfr
    | false =>
      obtain hmem | ⟨b, c, hc, hmem⟩ := hrest.parts.cover i hi hfr
      · cases hmem
      · obtain ⟨hfl, -⟩ := inFlight_of_chain ho hc
        refine Or.inr ⟨rfl, (c.caller, c.call, c.idx), ⟨hfl, hmem⟩, ?_⟩
        rintro ⟨p, w, idx⟩ ⟨hfl', hmem'⟩
        have hc' := (sent_of_inFlight ho hfl').chain
        obtain rfl := hrest.parts.disjoint b c w.b _ i hc hc' hmem hmem'
        obtain rfl := Option.some.inj (hc.symm.trans hc')
        rfl
  three p w idx hfl := by
    obtain ⟨hold, busy, hinv⟩ := ho.data
    exact hinv.parts.chain_nodup w.b _ (sent_of_inFlight ho hfl).chain
  reported i hi := by
    obtain ⟨hold, busy, hinv⟩ := ho.data
    obtain ⟨b, c, hc, rfl⟩ := hinv.flight.chain i (hinv.reported hi)
    obtain ⟨hfl, hok⟩ := inFlight_of_chain ho hc
    exact ⟨c.caller, c.call, c.idx, hfl, rfl, hok.buffer ▸ hok.info⟩
  calm a text hpc := by
    have hin := ho.inside (a := a) (k := Point.panic text) (by rw [hpc]; rfl)
    obtain p | a := a
    · exact hin
    · exact hin
  awake hfree p hsleep := by
    refine ⟨fun b hchan => ?_, fun hchan => ?_⟩
    · exact not_not.mp (hs.not_due hl hfree hsleep hchan)
    · exact Nat.not_le.mp (hs.not_due hl hfree hsleep hchan)

/-! ### Along a run -/

/-- A call of `virtio_disk_rw` that returns had its request served by the device, once. -/
def ReturnOk (d : Data n m) : Event n (Fin k) (Result m) → Prop
  | .returned _ (.rw w) => d.transfers w.b = w.start ++ [w.transfer]
  | _ => True

theorem returnOk_step {s t : DiskState n k m} {l : Action n (Fin k) (Request m) DeviceStep × Event n (Fin k) (Result m)}
    (ho : Outlined (notes n k m) s) (hstep : Step (code n k m) s l t) : ReturnOk s.data l.2 := by
  cases step_inv hstep with
  | @release a point r pc op =>
    have hin := ho.inside (a := a) (k := point) (by rw [pc]; rfl)
    obtain p | a := a
    · have hcase := rwOp_case p s.data point
      rw [show rwOp p s.data point = _ from op] at hcase
      cases hcase with
      | «return» w => exact hin.2.2.2
    · have hcase := intrOp_case s.data point
      rw [show intrOp s.data point = _ from op] at hcase
      cases hcase
      trivial
  | _ => trivial

theorem outlined_boot {s : DiskState n k m} (hboot : Boot s) (hfresh : Fresh s.data) : Outlined (notes n k m) s := by
  refine .boot hboot ⟨_, _, Inv.fresh hfresh⟩ (Inv.fresh hfresh) fun a => ?_
  obtain p | a := a
  · intro b hb
    rw [hfresh.calls b] at hb
    cases hb
  · trivial

/-- In every state of every run, whatever the order of callers, interrupts and completions, the disk is in order, and calls
    return only after their requests were served. -/
theorem disk_run {s t : DiskState n k m}
    {ls : List (Action n (Fin k) (Request m) DeviceStep × Event n (Fin k) (Result m))} (hboot : Boot s)
    (hfresh : Fresh s.data) (hrun : Run (Step (code n k m)) s ls t) :
    DiskOk t ∧ AllSteps (Step (code n k m)) s ls fun u l => ReturnOk u.data l.2 := by
  have hout := outlined_boot hboot hfresh
  have hok : ∀ l ∈ ls, CallOk (fun _ : Request m => True) l := fun l _ => callOk_true l
  have houtline := (outline n k m).allStates hboot hout hok
  constructor
  · obtain ⟨hl, ho⟩ := houtline ls t (List.prefix_refl _) hrun
    exact diskOk_of hl ho ((signals n k m).run (outline n k m) hboot hout hok (fun _ _ _ _ _ => not_strands) hrun)
  · exact houtline.allSteps (fun _ _ _ _ => ofStep_det) (fun _ _ _ hu _ => returnOk_step hu.2) hrun

attribute [local instance] Transition.neZero_one

/-- A process writes a block, the device serves it and interrupts, and the call returns. -/
def writeBlock : List (Action 1 (Fin 1) (Request 1) DeviceStep) :=
  [.call (.inl 0) (.rw 0 true 3)] ++ List.replicate 16 (.step (.inl 0)) ++
    [.env .fetch, .env (.serve 0), .env (.fill 0), .env .publish, .call (.inr 0) .intr] ++
    List.replicate 8 (.step (.inr 0)) ++ List.replicate 17 (.step (.inl 0))

theorem writeBlock_runs : (exec (step (code 1 1 1)) (boot 1 (Fin 1) (Chan 1) fresh) writeBlock).isSome := by decide

theorem disk_run_writeBlock :
    let t := ((exec (step (code 1 1 1)) (boot 1 (Fin 1) (Chan 1) fresh) writeBlock).get writeBlock_runs).2
    t.data.transfers 0 = [⟨⟨VIRTIO_BLK_T_OUT, 0, 6⟩, 1024, false⟩] ∧ DiskOk t :=
  ⟨by decide, (disk_run (boot_boot _) fresh_fresh (run_exec writeBlock_runs)).1⟩

end LabSO.Virtio
