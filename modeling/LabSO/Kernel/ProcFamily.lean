import LabSO.Kernel.ProcMachine

/-! What `fork`, `exit` and `wait` are for: the family of processes that have not been waited for yet, and how it changes. A
    process has one parent, and a new one only when its parent exits; its status is returned once, to its parent. -/

namespace LabSO.Kernel.Procs
open Transition

variable {n : Nat}

/-- A process that has not been waited for; `status` is none until it exits. -/
structure Node (n : Nat) where
  pid : Int
  parent : Option (Fin n)
  status : Option Int
deriving DecidableEq

/-- The processes by their slots. -/
abbrev Family (n : Nat) := Fin n → Option (Node n)

/-- The process in slot `p` has not exited. -/
def Family.Alive (F : Family n) (p : Fin n) : Prop := ∃ node, F p = some node ∧ node.status = none

/-- The process after `p` exits. -/
def Node.exit (node : Node n) (init p q : Fin n) (status : Int) : Node n where
  pid := node.pid
  parent := if node.parent = some p then some init else node.parent
  status := if q = p then some status else node.status

def Family.next (init : Fin n) (F : Family n) : Event n → Family n
  | .forked p np pid => Function.update F np (some ⟨pid, some p, none⟩)
  | .exited p status => fun q => (F q).map fun node => node.exit init p q status
  | .reaped _ pp _ _ => Function.update F pp none
  | _ => F

/-- Only those alive fork, exit and wait, and `wait` returns the pid and the status of a child. -/
def Family.Allows (init : Fin n) (F : Family n) : Event n → Prop
  | .forked p np _ => F.Alive p ∧ F np = none
  | .exited p _ => F.Alive p ∧ p ≠ init
  | .reaped p pp pid status => F.Alive p ∧ F pp = some ⟨pid, some p, some status⟩
  | _ => True

def Family.Step (init : Fin n) (F : Family n) (e : Event n) (G : Family n) : Prop := F.Allows init e ∧ G = F.next init e

/-- The first process. -/
def Family.boot (init : Fin n) : Family n := fun q => if q = init then some ⟨1, none, none⟩ else none

/-! ### The story of a process -/

/-- The events in the life of the process in slot `q`. -/
def Event.About (q : Fin n) : Event n → Prop
  | .forked _ np _ => np = q
  | .exited p _ => p = q
  | .reaped _ pp _ _ => pp = q
  | _ => False

def Event.Exits (p : Fin n) : Event n → Prop
  | .exited q _ => q = p
  | _ => False

/-- Every `wait` that frees a slot returns the pid of the process forked there last and the status it exited with, both
    for the first time since. It is made by the parent, or by `init` if the parent exited before. -/
def Reaps (init : Fin n) (es : List (Event n)) : Prop :=
  ∀ before after p q pid status, es = before ++ .reaped p q pid status :: after →
    ∃ par e₁ e₂ e₃, before = e₁ ++ .forked par q pid :: (e₂ ++ .exited q status :: e₃) ∧
      (∀ e ∈ e₂ ++ e₃, ¬e.About q) ∧
      (p = par ∧ (∀ e ∈ e₂ ++ e₃, ¬e.Exits par) ∨ p = init ∧ ∃ e ∈ e₂ ++ e₃, e.Exits par)

/-- Since the fork of a process `par` is its parent, or has exited, and left the process to `init`. -/
def Parentage (init par : Fin n) (parent : Option (Fin n)) (es : List (Event n)) : Prop :=
  parent = some par ∧ (∀ e ∈ es, ¬e.Exits par) ∨ parent = some init ∧ ∃ e ∈ es, e.Exits par

/-- What has happened to the process in slot `q`, forked by `par`, in the events `es` since. -/
structure Since (init par q : Fin n) (node : Node n) (es : List (Event n)) : Prop where
  apart : par ≠ q
  running : node.status = none → (∀ e ∈ es, ¬e.About q) ∧ Parentage init par node.parent es
  exited : ∀ status, node.status = some status → ∃ e₂ e₃, es = e₂ ++ .exited q status :: e₃ ∧
    (∀ e ∈ e₂ ++ e₃, ¬e.About q) ∧ Parentage init par node.parent (e₂ ++ e₃)

/-- The past of each process is that of the first one, or starts with a fork. -/
def Story (init : Fin n) (es : List (Event n)) (F : Family n) : Prop :=
  ∀ q node, F q = some node → (q = init ∧ node.status = none ∧ node.parent = none) ∨
    ∃ par e₁ e₂, es = e₁ ++ .forked par q node.pid :: e₂ ∧ Since init par q node e₂

variable {init par p q : Fin n} {node : Node n} {parent : Option (Fin n)} {es : List (Event n)} {e : Event n} {F G : Family n}

theorem Parentage.other (h : Parentage init par parent es) (he : ∀ p, ¬e.Exits p) :
    Parentage init par parent (es ++ [e]) := by
  rcases h with ⟨hpar, hnone⟩ | ⟨hinit, e', he', hexits⟩
  · refine Or.inl ⟨hpar, fun e' he' => ?_⟩
    rcases List.mem_append.mp he' with hmem | hmem
    · exact hnone e' hmem
    · rw [List.mem_singleton.mp hmem]
      exact he par
  · exact Or.inr ⟨hinit, e', List.mem_append_left _ he', hexits⟩

/-- Where the parent exits, the process goes to `init`. -/
theorem Parentage.exit {status : Int} (h : Parentage init par parent es) (hp : p ≠ init) :
    Parentage init par (if parent = some p then some init else parent) (es ++ [.exited p status]) := by
  rcases h with ⟨rfl, hnone⟩ | ⟨rfl, e', he', hexits⟩
  · by_cases hpar : par = p
    · subst hpar
      rw [if_pos rfl]
      exact Or.inr ⟨rfl, .exited par status, by simp, rfl⟩
    · rw [if_neg (by simpa using hpar)]
      refine Or.inl ⟨rfl, fun e' he' => ?_⟩
      rcases List.mem_append.mp he' with hmem | hmem
      · exact hnone e' hmem
      · rw [List.mem_singleton.mp hmem]
        exact fun heq => hpar heq.symm
  · rw [if_neg (by simpa using hp.symm)]
    exact Or.inr ⟨rfl, e', List.mem_append_left _ he', hexits⟩

theorem not_about_append (h : ∀ e ∈ es, ¬e.About q) (he : ¬e.About q) : ∀ e' ∈ es ++ [e], ¬e'.About q := by
  intro e' he'
  rcases List.mem_append.mp he' with hmem | hmem
  · exact h e' hmem
  · rwa [List.mem_singleton.mp hmem]

/-- An event about other processes, none of which exits. -/
theorem Since.other (h : Since init par q node es) (habout : ¬e.About q) (hexits : ∀ p, ¬e.Exits p) :
    Since init par q node (es ++ [e]) where
  apart := h.apart
  running hnone := by
    obtain ⟨hes, hparent⟩ := h.running hnone
    exact ⟨not_about_append hes habout, hparent.other hexits⟩
  exited status hsome := by
    obtain ⟨e₂, e₃, rfl, hes, hparent⟩ := h.exited status hsome
    refine ⟨e₂, e₃ ++ [e], by simp, ?_⟩
    rw [← List.append_assoc]
    exact ⟨not_about_append hes habout, hparent.other hexits⟩

theorem Since.exit_other {status : Int} (h : Since init par q node es) (hp : p ≠ init) (hq : q ≠ p) :
    Since init par q (node.exit init p q status) (es ++ [.exited p status]) := by
  have habout : ¬(Event.exited p status).About q := hq.symm
  refine ⟨h.apart, fun hnone => ?_, fun st hsome => ?_⟩
  · have hstatus : node.status = none := by simpa [Node.exit, hq] using hnone
    obtain ⟨hes, hparent⟩ := h.running hstatus
    exact ⟨not_about_append hes habout, hparent.exit hp⟩
  · have hstatus : node.status = some st := by simpa [Node.exit, hq] using hsome
    obtain ⟨e₂, e₃, rfl, hes, hparent⟩ := h.exited st hstatus
    refine ⟨e₂, e₃ ++ [.exited p status], by simp, ?_⟩
    rw [← List.append_assoc]
    exact ⟨not_about_append hes habout, hparent.exit hp⟩

theorem Since.exit_self {status : Int} (h : Since init par q node es) (hq : q ≠ init) (hnone : node.status = none) :
    Since init par q (node.exit init q q status) (es ++ [.exited q status]) where
  apart := h.apart
  running hstatus := by simp [Node.exit] at hstatus
  exited st hsome := by
    obtain rfl : status = st := by simpa [Node.exit] using hsome
    obtain ⟨hes, hparent⟩ := h.running hnone
    refine ⟨es, [], rfl, by simpa using hes, ?_⟩
    have hself : node.parent ≠ some q := by
      rintro hself
      rcases hparent with ⟨hpar, -⟩ | ⟨hinit, -⟩
      · exact h.apart (Option.some.inj (hpar.symm.trans hself))
      · exact hq (Option.some.inj (hinit.symm.trans hself)).symm
    simpa [Node.exit, hself] using hparent

theorem story_boot (init : Fin n) : Story init [] (Family.boot init) := by
  intro q node hq
  unfold Family.boot at hq
  split at hq
  · next hinit =>
    cases hq
    exact Or.inl ⟨hinit, rfl, rfl⟩
  · cases hq

theorem Story.other (h : Story init es F) (habout : ∀ q, ¬e.About q) (hexits : ∀ p, ¬e.Exits p) :
    Story init (es ++ [e]) F := by
  intro q node hq
  rcases h q node hq with hfirst | ⟨par, e₁, e₂, rfl, hsince⟩
  · exact Or.inl hfirst
  · exact Or.inr ⟨par, e₁, e₂ ++ [e], by simp, hsince.other (habout q) hexits⟩

theorem Story.forked {pid : Int} {np : Fin n} (h : Story init es F) (hp : F.Alive p) (hnp : F np = none) :
    Story init (es ++ [.forked p np pid]) (F.next init (.forked p np pid)) := by
  intro q node hq
  by_cases hqnp : q = np
  · subst hqnp
    rw [Family.next, Function.update_self] at hq
    cases hq
    refine Or.inr ⟨p, es, [], rfl, ?_, fun _ => ⟨by simp, Or.inl ⟨rfl, by simp⟩⟩, fun st hst => by cases hst⟩
    rintro rfl
    obtain ⟨node, hnode, -⟩ := hp
    rw [hnp] at hnode
    cases hnode
  · rw [Family.next, Function.update_of_ne hqnp] at hq
    rcases h q node hq with hfirst | ⟨par, e₁, e₂, rfl, hsince⟩
    · exact Or.inl hfirst
    · exact Or.inr ⟨par, e₁, e₂ ++ [.forked p np pid], by simp, hsince.other (e := .forked p np pid) (Ne.symm hqnp) fun _ => id⟩

theorem Story.exited {status : Int} (h : Story init es F) (hp : F.Alive p) (hinit : p ≠ init) :
    Story init (es ++ [.exited p status]) (F.next init (.exited p status)) := by
  intro q node hq
  obtain ⟨node, hnode, rfl⟩ := Option.map_eq_some_iff.mp hq
  rcases h q node hnode with ⟨rfl, hstatus, hparent⟩ | ⟨par, e₁, e₂, rfl, hsince⟩
  · exact Or.inl ⟨rfl, by simp [Node.exit, hinit.symm, hstatus], by simp [Node.exit, hparent]⟩
  · refine Or.inr ⟨par, e₁, e₂ ++ [.exited p status], by simp [Node.exit], ?_⟩
    by_cases hqp : q = p
    · subst hqp
      obtain ⟨node', hnode', hstatus⟩ := hp
      obtain rfl : node = node' := Option.some.inj (hnode.symm.trans hnode')
      exact hsince.exit_self hinit hstatus
    · exact hsince.exit_other hinit hqp

theorem Story.reaped {pp : Fin n} {pid status : Int} (h : Story init es F) :
    Story init (es ++ [.reaped p pp pid status]) (F.next init (.reaped p pp pid status)) := by
  intro q node hq
  by_cases hqpp : q = pp
  · rw [hqpp, Family.next, Function.update_self] at hq
    cases hq
  · rw [Family.next, Function.update_of_ne hqpp] at hq
    rcases h q node hq with hfirst | ⟨par, e₁, e₂, rfl, hsince⟩
    · exact Or.inl hfirst
    · exact Or.inr ⟨par, e₁, e₂ ++ [.reaped p pp pid status], by simp, hsince.other (e := .reaped p pp pid status) (Ne.symm hqpp) fun _ => id⟩

theorem story_step (h : Story init es F) (hstep : F.Step init e G) : Story init (es ++ [e]) G := by
  obtain ⟨hallows, rfl⟩ := hstep
  cases e with
  | forked p np pid => exact h.forked hallows.1 hallows.2
  | exited p status => exact h.exited hallows.1 hallows.2
  | reaped p pp pid status => exact h.reaped
  | _ => exact h.other (fun _ => id) fun _ => id

theorem story_run (h : Run (Family.Step init) (Family.boot init) es F) : Story init es F := by
  induction h with
  | refl => exact story_boot init
  | tail _ hstep ih => exact story_step ih hstep

theorem Story.reaps {pp : Fin n} {pid status : Int} (h : Story init es F) (hpp : F pp = some ⟨pid, some p, some status⟩) :
    ∃ par e₁ e₂ e₃, es = e₁ ++ .forked par pp pid :: (e₂ ++ .exited pp status :: e₃) ∧
      (∀ e ∈ e₂ ++ e₃, ¬e.About pp) ∧
      (p = par ∧ (∀ e ∈ e₂ ++ e₃, ¬e.Exits par) ∨ p = init ∧ ∃ e ∈ e₂ ++ e₃, e.Exits par) := by
  rcases h pp _ hpp with ⟨-, hstatus, -⟩ | ⟨par, e₁, e₂, rfl, hsince⟩
  · cases hstatus
  · obtain ⟨e₂, e₃, rfl, hes, hparent⟩ := hsince.exited status rfl
    refine ⟨par, e₁, e₂, e₃, rfl, hes, ?_⟩
    simpa [Parentage] using hparent

/-- In a family every status is returned once, and to the parent. -/
theorem reaps_run (h : Run (Family.Step init) (Family.boot init) es F) : Reaps init es := by
  rintro before after p q pid status rfl
  obtain ⟨G, hbefore, hrest⟩ := h.append_inv
  obtain ⟨G', hstep, -⟩ := hrest.cons_inv
  exact (story_run hbefore).reaps hstep.1.2

end LabSO.Kernel.Procs
