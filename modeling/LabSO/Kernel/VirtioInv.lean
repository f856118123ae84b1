import LabSO.Kernel.Virtio
import Mathlib.Data.List.Nodup

/-! Where the descriptors of the disk are and how far the chains have come, and what each step of the driver and of the
    device does to that. -/

namespace LabSO.Virtio
open Monitor

variable {n m : Nat} {d d' : Data n m} {hold : List Nat} {busy : Option Nat} {fr : Nat → Bool} {p : Fin n}
  {chains : Fin m → Option (Chain n m)} {b b' : Fin m} {c : Chain n m} {w : Call m} {idx : Idx} {i h : Nat}

/-! ### Descriptors -/

/-- A descriptor is free, or in the hands of the thread with the lock, or in one chain. -/
structure Parts (hold : List Nat) (free : Nat → Bool) (chains : Fin m → Option (Chain n m)) : Prop where
  hold_nodup : hold.Nodup
  hold_taken : ∀ i ∈ hold, i < NUM ∧ free i = false
  chain_nodup : ∀ b c, chains b = some c → c.idx.list.Nodup
  chain_taken : ∀ b c, chains b = some c → ∀ i ∈ c.idx.list, i < NUM ∧ free i = false ∧ i ∉ hold
  disjoint : ∀ b c b' c' i, chains b = some c → chains b' = some c' → i ∈ c.idx.list → i ∈ c'.idx.list → b = b'
  cover : ∀ i, i < NUM → free i = false → i ∈ hold ∨ ∃ b c, chains b = some c ∧ i ∈ c.idx.list

theorem Idx.head_mem : idx.head ∈ idx.list := List.mem_cons_self

theorem Parts.fresh (hfree : ∀ i, i < NUM → fr i = true) (hchains : ∀ b, chains b = none) : Parts [] fr chains where
  hold_nodup := .nil
  hold_taken := nofun
  chain_nodup b c h := by
    rw [hchains b] at h
    cases h
  chain_taken b c h := by
    rw [hchains b] at h
    cases h
  disjoint b c b' c' i h := by
    rw [hchains b] at h
    cases h
  cover i hi h := by
    rw [hfree i hi] at h
    cases h

theorem Parts.alloc (h : Parts hold fr chains) (hi : i < NUM) (hfree : fr i = true) :
    Parts (hold ++ [i]) (Function.update fr i false) chains := by
  have hold_ne : i ∉ hold := fun hmem => by
    rw [(h.hold_taken i hmem).2] at hfree
    cases hfree
  have htaken : ∀ j, fr j = false → Function.update fr i false j = false := fun j hj => by
    by_cases hji : j = i
    · rw [hji, Function.update_self]
    · rw [Function.update_of_ne hji, hj]
  refine ⟨?_, fun j hj => ?_, h.chain_nodup, fun b c hc j hj => ?_, h.disjoint, fun j hj hjfree => ?_⟩
  · exact List.nodup_append'.mpr ⟨h.hold_nodup, List.nodup_singleton i, by simpa using hold_ne⟩
  · rcases List.mem_append.mp hj with hj | hj
    · exact ⟨(h.hold_taken j hj).1, htaken j (h.hold_taken j hj).2⟩
    · obtain rfl : j = i := List.mem_singleton.mp hj
      exact ⟨hi, Function.update_self ..⟩
  · obtain ⟨hlt, hjfree, hjhold⟩ := h.chain_taken b c hc j hj
    have hji : j ≠ i := by
      rintro rfl
      rw [hjfree] at hfree
      cases hfree
    exact ⟨hlt, htaken j hjfree, by simp [hjhold, hji]⟩
  · by_cases hji : j = i
    · exact Or.inl (by simp [hji])
    · rw [Function.update_of_ne hji] at hjfree
      rcases h.cover j hj hjfree with hmem | hmem
      · exact Or.inl (List.mem_append_left _ hmem)
      · exact Or.inr hmem

theorem Parts.free (h : Parts (i :: hold) fr chains) : Parts hold (Function.update fr i true) chains := by
  obtain ⟨hnotin, hnodup⟩ := List.nodup_cons.mp h.hold_nodup
  refine ⟨hnodup, fun j hj => ?_, h.chain_nodup, fun b c hc j hj => ?_, h.disjoint, fun j hj hfree => ?_⟩
  · have hji : j ≠ i := fun heq => hnotin (heq ▸ hj)
    rw [Function.update_of_ne hji]
    exact h.hold_taken j (List.mem_cons_of_mem _ hj)
  · obtain ⟨hlt, hfree, hjhold⟩ := h.chain_taken b c hc j hj
    have hji : j ≠ i := fun heq => hjhold (heq ▸ List.mem_cons_self)
    rw [Function.update_of_ne hji]
    exact ⟨hlt, hfree, fun hmem => hjhold (List.mem_cons_of_mem _ hmem)⟩
  · have hji : j ≠ i := by
      rintro rfl
      rw [Function.update_self] at hfree
      cases hfree
    rw [Function.update_of_ne hji] at hfree
    rcases h.cover j hj hfree with hmem | hmem
    · exact Or.inl ((List.mem_cons.mp hmem).resolve_left hji)
    · exact Or.inr hmem

/-- The descriptors in hand become a chain. -/
theorem Parts.offer (h : Parts c.idx.list fr chains) (hb : chains b = none) :
    Parts [] fr (Function.update chains b (some c)) := by
  have hcases : ∀ b' c', Function.update chains b (some c) b' = some c' →
      b' = b ∧ c' = c ∨ b' ≠ b ∧ chains b' = some c' := fun b' c' hc' => by
    by_cases hbb : b' = b
    · rw [hbb, Function.update_self] at hc'
      exact Or.inl ⟨hbb, (Option.some.inj hc').symm⟩
    · rw [Function.update_of_ne hbb] at hc'
      exact Or.inr ⟨hbb, hc'⟩
  refine ⟨.nil, nofun, fun b' c' hc' => ?_, fun b' c' hc' j hj => ?_, fun b₁ c₁ b₂ c₂ j h₁ h₂ hj₁ hj₂ => ?_, fun j hj hfree => ?_⟩
  · rcases hcases b' c' hc' with ⟨-, rfl⟩ | ⟨-, hc'⟩
    · exact h.hold_nodup
    · exact h.chain_nodup b' c' hc'
  · rcases hcases b' c' hc' with ⟨-, rfl⟩ | ⟨-, hc'⟩
    · exact ⟨(h.hold_taken j hj).1, (h.hold_taken j hj).2, nofun⟩
    · exact ⟨(h.chain_taken b' c' hc' j hj).1, (h.chain_taken b' c' hc' j hj).2.1, nofun⟩
  · rcases hcases b₁ c₁ h₁ with ⟨rfl, rfl⟩ | ⟨-, h₁'⟩ <;> rcases hcases b₂ c₂ h₂ with ⟨rfl, rfl⟩ | ⟨-, h₂'⟩
    · rfl
    · exact absurd hj₁ (h.chain_taken b₂ c₂ h₂' j hj₂).2.2
    · exact absurd hj₂ (h.chain_taken b₁ c₁ h₁' j hj₁).2.2
    · exact h.disjoint b₁ c₁ b₂ c₂ j h₁' h₂' hj₁ hj₂
  · rcases h.cover j hj hfree with hmem | ⟨b', c', hc', hmem⟩
    · exact Or.inr ⟨b, c, Function.update_self .., hmem⟩
    · have hbb : b' ≠ b := by
        rintro rfl
        rw [hb] at hc'
        cases hc'
      exact Or.inr ⟨b', c', (Function.update_of_ne hbb ..).trans hc', hmem⟩

/-- A chain is taken back. -/
theorem Parts.takeBack (h : Parts [] fr chains) (hb : chains b = some c) :
    Parts c.idx.list fr (Function.update chains b none) := by
  have hcases : ∀ b' c', Function.update chains b none b' = some c' → b' ≠ b ∧ chains b' = some c' := fun b' c' hc' => by
    by_cases hbb : b' = b
    · rw [hbb, Function.update_self] at hc'
      cases hc'
    · rw [Function.update_of_ne hbb] at hc'
      exact ⟨hbb, hc'⟩
  refine ⟨h.chain_nodup b c hb, fun j hj => ?_, fun b' c' hc' => ?_, fun b' c' hc' j hj => ?_,
    fun b₁ c₁ b₂ c₂ j h₁ h₂ => ?_, fun j hj hfree => ?_⟩
  · exact ⟨(h.chain_taken b c hb j hj).1, (h.chain_taken b c hb j hj).2.1⟩
  · exact h.chain_nodup b' c' (hcases b' c' hc').2
  · obtain ⟨hbb, hc'⟩ := hcases b' c' hc'
    refine ⟨(h.chain_taken b' c' hc' j hj).1, (h.chain_taken b' c' hc' j hj).2.1, fun hmem => ?_⟩
    exact hbb (h.disjoint b' c' b c j hc' hb hj hmem)
  · exact h.disjoint b₁ c₁ b₂ c₂ j (hcases b₁ c₁ h₁).2 (hcases b₂ c₂ h₂).2
  · rcases h.cover j hj hfree with hmem | ⟨b', c', hc', hmem⟩
    · cases hmem
    · by_cases hbb : b' = b
      · subst hbb
        obtain rfl : c' = c := Option.some.inj (hc'.symm.trans hb)
        exact Or.inl hmem
      · exact Or.inr ⟨b', c', (Function.update_of_ne hbb ..).trans hc', hmem⟩

/-! ### Chains -/

/-- The descriptors of a chain are as the device expects them. -/
structure Built (disk : Disk m) (w : Call m) (idx : Idx) : Prop where
  ops : disk.ops idx.head = w.req
  head : disk.desc idx.head = Call.descHead idx
  mid : disk.desc idx.mid = w.descMid idx
  tail : disk.desc idx.tail = Call.descTail idx

structure Chain.Ok (c : Chain n m) (b : Fin m) (d : Data n m) : Prop where
  built : Built d.disk c.call c.idx
  buffer : c.call.b = b
  caller : d.calls b = some c.caller
  info : (d.disk.info c.idx.head).b = some b

theorem Built.congr {disk disk' : Disk m} (h : Built disk w idx) (hdesc : ∀ i ∈ idx.list, disk'.desc i = disk.desc i)
    (hops : disk'.ops idx.head = disk.ops idx.head) : Built disk' w idx where
  ops := hops.trans h.ops
  head := (hdesc idx.head Idx.head_mem).trans h.head
  mid := (hdesc idx.mid (by simp [Idx.list])).trans h.mid
  tail := (hdesc idx.tail (by simp [Idx.list])).trans h.tail

/-- The descriptors lead from one to the next, and the last one ends the chain. -/
def Links (disk : Disk m) : List Nat → Prop
  | [] => True
  | [i] => (disk.desc i).flags &&& VRING_DESC_F_NEXT = 0
  | i :: j :: l => (disk.desc i).flags &&& VRING_DESC_F_NEXT ≠ 0 ∧ (disk.desc i).next.toNat = j ∧ Links disk (j :: l)

theorem Links.congr {disk disk' : Disk m} : ∀ {l : List Nat}, Links disk l → (∀ i ∈ l, disk'.desc i = disk.desc i) →
    Links disk' l
  | [], _, _ => trivial
  | [i], h, hdesc => by
    unfold Links
    rwa [hdesc i List.mem_cons_self]
  | i :: j :: l, ⟨hflag, hnext, hrest⟩, hdesc => by
    have hi := hdesc i List.mem_cons_self
    exact ⟨hi ▸ hflag, hi ▸ hnext, hrest.congr fun x hx => hdesc x (List.mem_cons_of_mem _ hx)⟩

theorem toNat_ofNat_idx (h : i < NUM) : (UInt16.ofNat i).toNat = i := by
  rw [UInt16.toNat_ofNat']
  exact Nat.mod_eq_of_lt (Nat.lt_trans h (by decide))

theorem flags_next : VRING_DESC_F_NEXT &&& VRING_DESC_F_NEXT ≠ 0 := by decide

theorem flags_last : VRING_DESC_F_WRITE &&& VRING_DESC_F_NEXT = 0 := by decide

theorem Call.flags_descMid (w : Call m) : (w.descMid idx).flags &&& VRING_DESC_F_NEXT ≠ 0 := by
  show ((if w.write then 0 else VRING_DESC_F_WRITE) ||| VRING_DESC_F_NEXT) &&& VRING_DESC_F_NEXT ≠ 0
  cases w.write <;> decide

theorem Built.links {disk : Disk m} (h : Built disk w idx) (hlt : ∀ i ∈ idx.list, i < NUM) : Links disk idx.list := by
  refine ⟨?_, ?_, ?_, ?_, ?_⟩
  · rw [h.head]
    exact flags_next
  · rw [h.head]
    exact toNat_ofNat_idx (hlt idx.mid (by simp [Idx.list]))
  · rw [h.mid]
    exact w.flags_descMid
  · rw [h.mid]
    exact toNat_ofNat_idx (hlt idx.tail (by simp [Idx.list]))
  · unfold Links
    rw [h.tail]
    exact flags_last

/-- Where `free_chain` goes on. -/
theorem Links.next {disk : Disk m} {l : List Nat} (h : Links disk (i :: l)) :
    (if (disk.desc i).flags &&& VRING_DESC_F_NEXT ≠ 0 then some (disk.desc i).next.toNat else none) = l.head? := by
  cases l with
  | nil =>
    have hflag : (disk.desc i).flags &&& VRING_DESC_F_NEXT = 0 := h
    rw [if_neg (not_not.mpr hflag)]
    rfl
  | cons j l =>
    rw [if_pos h.1, h.2.1]
    rfl

theorem Links.tail {disk : Disk m} {l : List Nat} (h : Links disk (i :: l)) : Links disk l := by
  cases l with
  | nil => trivial
  | cons j l => exact h.2.2

/-! ### Chains in flight -/

namespace Data
variable (d : Data n m)

/-- The heads in the avail ring that the device has not looked at. -/
def offered : List Nat := Ring.entries NUM (fun i => (d.disk.avail.ring i).toNat) d.device.seen d.disk.avail.idx

/-- The ids in the used ring that the driver has not handled, those of which it was not told yet included. -/
def filled : List Nat := Ring.entries NUM (fun i => (d.disk.used.ring i).toNat) d.disk.usedIdx d.device.filled

/-- The heads of the chains that the device has still to serve. -/
def unserved : List Nat := d.offered ++ d.device.pending

/-- The heads of the chains served and not handled. -/
def unhandled : List Nat := d.device.served ++ d.filled

def flight : List Nat := d.unserved ++ d.unhandled

/-- The driver was told of the chain, and it is the next to be handled. -/
def First (h : Nat) : Prop := (∃ l, d.filled = h :: l) ∧ d.disk.usedIdx ≠ d.disk.used.idx

end Data

/-- `busy` is the chain that the handler of an interrupt has marked as done and not passed. -/
structure Flight (busy : Option Nat) (d : Data n m) : Prop where
  nodup : d.flight.Nodup
  chain : ∀ h ∈ d.flight, ∃ b c, d.chains b = some c ∧ c.idx.head = h
  flag : ∀ b c, d.chains b = some c → (d.bdisk b = 1 ↔ c.idx.head ∈ d.flight ∧ busy ≠ some c.idx.head)
  first : ∀ h, busy = some h → d.First h
  status : ∀ h ∈ d.unhandled, (d.disk.info h).status = 0
  transferred : ∀ b c, d.chains b = some c →
    d.transfers b = c.call.start ++ if c.idx.head ∈ d.unserved then [] else [c.call.transfer]
  published : (d.disk.used.idx - d.disk.usedIdx).toNat ≤ (d.device.filled - d.disk.usedIdx).toNat

/-- What holds of the disk, apart from where the threads stand. -/
structure Inv (hold : List Nat) (busy : Option Nat) (d : Data n m) : Prop where
  parts : Parts hold d.disk.free d.chains
  chain : ∀ b c, d.chains b = some c → c.Ok b d
  flight : Flight busy d

theorem Inv.fresh (h : Fresh d) : Inv [] none d := by
  have hoffered : d.offered = [] := by
    unfold Data.offered
    rw [h.seen, h.avail, Ring.entries_self]
  have hfilled : d.filled = [] := by
    unfold Data.filled
    rw [h.usedIdx, h.filled, Ring.entries_self]
  have hunserved : d.unserved = [] := by rw [Data.unserved, hoffered, h.pending]; rfl
  have hunhandled : d.unhandled = [] := by rw [Data.unhandled, hfilled, h.served]; rfl
  have hflight : d.flight = [] := by rw [Data.flight, hunserved, hunhandled]; rfl
  have hnone : ∀ b c, d.chains b ≠ some c := fun b c hc => by
    rw [h.chains b] at hc
    cases hc
  refine ⟨.fresh h.free h.chains, fun b c hc => absurd hc (hnone b c), ?_⟩
  refine ⟨?_, ?_, fun b c hc => absurd hc (hnone b c), nofun, ?_, fun b c hc => absurd hc (hnone b c), ?_⟩
  · rw [hflight]
    exact .nil
  · rw [hflight]
    exact nofun
  · rw [hunhandled]
    exact nofun
  · rw [h.used, h.usedIdx, h.filled]

/-- The heads in flight are descriptors of chains. -/
theorem Inv.mem_flight (h : Inv hold busy d) (hi : i ∈ d.flight) : i < NUM ∧ i ∉ hold := by
  obtain ⟨b, c, hc, rfl⟩ := h.flight.chain i hi
  obtain ⟨hlt, -, hhold⟩ := h.parts.chain_taken b c hc _ Idx.head_mem
  exact ⟨hlt, hhold⟩

theorem length_le_of_nodup {l : List Nat} (hl : l.Nodup) (hlt : ∀ i ∈ l, i < NUM) : l.length ≤ NUM := by
  have hsub : l ⊆ List.range NUM := fun i hi => List.mem_range.mpr (hlt i hi)
  simpa using (hl.subperm hsub).length_le

theorem Inv.length_flight (h : Inv hold busy d) : d.flight.length ≤ NUM :=
  length_le_of_nodup h.flight.nodup fun _ hi => (h.mem_flight hi).1

/-- There is room in the rings for a chain with a descriptor in hand. -/
theorem Inv.length_flight_lt (h : Inv hold busy d) (hi : i ∈ hold) : d.flight.length < NUM := by
  have hnodup : (i :: d.flight).Nodup :=
    List.nodup_cons.mpr ⟨fun hmem => (h.mem_flight hmem).2 hi, h.flight.nodup⟩
  refine length_le_of_nodup hnodup fun j hj => ?_
  rcases List.mem_cons.mp hj with rfl | hj
  · exact (h.parts.hold_taken j hi).1
  · exact (h.mem_flight hj).1

theorem Data.length_offered_le (d : Data n m) : (d.disk.avail.idx - d.device.seen).toNat ≤ d.flight.length := by
  have hlen : d.offered.length = _ := Ring.length_entries
  rw [← hlen, flight, unserved, List.length_append, List.length_append]
  omega

theorem Data.length_filled_le (d : Data n m) :
    (d.device.filled - d.disk.usedIdx).toNat + d.device.served.length ≤ d.flight.length := by
  have hlen : d.filled.length = _ := Ring.length_entries
  rw [← hlen, flight, unhandled, List.length_append, List.length_append]
  omega

theorem Data.mem_unserved (h : i ∈ d.unserved) : i ∈ d.flight := List.mem_append_left _ h

theorem Data.mem_unhandled (h : i ∈ d.unhandled) : i ∈ d.flight := List.mem_append_right _ h

/-- The ids of which the driver was told come first. -/
theorem Inv.reported (h : Inv hold busy d) (hi : i ∈ d.disk.reported) : i ∈ d.flight := by
  refine Data.mem_unhandled (List.mem_append_right _ ?_)
  obtain ⟨j, hj, rfl⟩ := List.mem_map.mp hi
  refine List.mem_map.mpr ⟨j, List.mem_range.mpr ?_, rfl⟩
  exact Nat.lt_of_lt_of_le (List.mem_range.mp hj) h.flight.published

/-- The chain of a head in flight is the only one with it. -/
theorem Inv.chain_eq (h : Inv hold busy d) {c' : Chain n m} (hc : d.chains b = some c) (hc' : d.chains b' = some c')
    (heq : c.idx.head = c'.idx.head) : b = b' :=
  h.parts.disjoint b c b' c' c.idx.head hc hc' Idx.head_mem (heq ▸ Idx.head_mem)

/-! ### What the driver does -/

/-- A step on the descriptors in hand. -/
structure Quiet (hold : List Nat) (d d' : Data n m) : Prop where
  avail : d'.disk.avail = d.disk.avail
  used : d'.disk.used = d.disk.used
  usedIdx : d'.disk.usedIdx = d.disk.usedIdx
  device : d'.device = d.device
  calls : d'.calls = d.calls
  chains : d'.chains = d.chains
  transfers : d'.transfers = d.transfers
  bdisk : ∀ b c, d.chains b = some c → d'.bdisk b = d.bdisk b
  desc : ∀ i, i ∉ hold → d'.disk.desc i = d.disk.desc i
  ops : ∀ i, i ∉ hold → d'.disk.ops i = d.disk.ops i
  info : ∀ i, i ∉ hold → d'.disk.info i = d.disk.info i

theorem Chain.Ok.congr (h : c.Ok b d) (hdesc : ∀ i ∈ c.idx.list, d'.disk.desc i = d.disk.desc i)
    (hops : d'.disk.ops c.idx.head = d.disk.ops c.idx.head) (hcalls : d'.calls b = d.calls b)
    (hinfo : (d'.disk.info c.idx.head).b = (d.disk.info c.idx.head).b) : c.Ok b d' :=
  ⟨h.built.congr hdesc hops, h.buffer, hcalls.trans h.caller, hinfo.trans h.info⟩

theorem Inv.quiet {hold' : List Nat} (h : Inv hold busy d) (hq : Quiet hold d d')
    (hparts : Parts hold' d'.disk.free d.chains) : Inv hold' busy d' := by
  have hoffered : d'.offered = d.offered := by rw [Data.offered, hq.avail, hq.device]; rfl
  have hfilled : d'.filled = d.filled := by rw [Data.filled, hq.used, hq.usedIdx, hq.device]; rfl
  have hunserved : d'.unserved = d.unserved := by rw [Data.unserved, hoffered, hq.device]; rfl
  have hunhandled : d'.unhandled = d.unhandled := by rw [Data.unhandled, hfilled, hq.device]; rfl
  have hflight : d'.flight = d.flight := by rw [Data.flight, hunserved, hunhandled]; rfl
  refine ⟨hq.chains ▸ hparts, fun b c hc => ?_, ?_, ?_, fun b c hc => ?_, fun i hi => ?_, fun i hi => ?_, fun b c hc => ?_, ?_⟩
  · rw [hq.chains] at hc
    have hnot : ∀ i ∈ c.idx.list, i ∉ hold := fun i hi => (h.parts.chain_taken b c hc i hi).2.2
    refine (h.chain b c hc).congr (fun i hi => hq.desc i (hnot i hi)) (hq.ops _ (hnot _ Idx.head_mem)) ?_ ?_
    · rw [hq.calls]
    · rw [hq.info _ (hnot _ Idx.head_mem)]
  · rw [hflight]
    exact h.flight.nodup
  · rw [hflight, hq.chains]
    exact h.flight.chain
  · rw [hq.chains] at hc
    rw [hflight, hq.bdisk b c hc]
    exact h.flight.flag b c hc
  · rw [Data.First, hfilled, hq.usedIdx, hq.used]
    exact h.flight.first i hi
  · rw [hunhandled] at hi
    rw [hq.info i (h.mem_flight (Data.mem_unhandled hi)).2]
    exact h.flight.status i hi
  · rw [hq.chains] at hc
    rw [hunserved, hq.transfers]
    exact h.flight.transferred b c hc
  · rw [hq.used, hq.usedIdx, hq.device]
    exact h.flight.published

/-- The chains stay where they are, up to their order among those to be served and those to be handled. -/
theorem Flight.congr (h : Flight busy d) (hunserved : d'.unserved.Perm d.unserved)
    (hunhandled : d'.unhandled.Perm d.unhandled) (hchains : d'.chains = d.chains) (hbdisk : d'.bdisk = d.bdisk)
    (hinfo : d'.disk.info = d.disk.info) (htransfers : d'.transfers = d.transfers) (hfirst : ∀ i, d.First i → d'.First i)
    (hpublished : (d'.disk.used.idx - d'.disk.usedIdx).toNat ≤ (d'.device.filled - d'.disk.usedIdx).toNat) :
    Flight busy d' := by
  have hflight : d'.flight.Perm d.flight := hunserved.append hunhandled
  refine ⟨hflight.nodup_iff.mpr h.nodup, fun i hi => ?_, fun b c hc => ?_, fun i hi => hfirst i (h.first i hi), fun i hi => ?_,
    fun b c hc => ?_, hpublished⟩
  · rw [hchains]
    exact h.chain i (hflight.mem_iff.mp hi)
  · rw [hchains] at hc
    rw [hbdisk, hflight.mem_iff]
    exact h.flag b c hc
  · rw [hinfo]
    exact h.status i (hunhandled.mem_iff.mp hi)
  · rw [hchains] at hc
    simp only [htransfers, hunserved.mem_iff]
    exact h.transferred b c hc

/-- What is said of the chains stays true when their descriptors and callers do. -/
theorem Inv.congr (h : Inv hold busy d) (hflight : Flight busy d') (hfree : d'.disk.free = d.disk.free)
    (hdesc : d'.disk.desc = d.disk.desc) (hops : d'.disk.ops = d.disk.ops)
    (hinfo : ∀ i, (d'.disk.info i).b = (d.disk.info i).b) (hchains : d'.chains = d.chains)
    (hcalls : ∀ b c, d.chains b = some c → d'.calls b = d.calls b) : Inv hold busy d' where
  parts := by
    rw [hfree, hchains]
    exact h.parts
  chain b c hc := by
    rw [hchains] at hc
    exact (h.chain b c hc).congr (fun i _ => congrFun hdesc i) (congrFun hops _) (hcalls b c hc) (hinfo _)
  flight := hflight

def Data.setRing (d : Data n m) (i : Nat) : Data n m :=
  let ring := Function.update d.disk.avail.ring (d.disk.avail.idx.toNat % NUM) (.ofNat i)
  d.setDisk { d.disk with avail := { d.disk.avail with ring } }

theorem dvd_ring : NUM ∣ 2 ^ 16 := by decide

theorem toNat_update {ring : Nat → UInt16} {j : Nat} {x : UInt16} :
    (fun i => (Function.update ring j x i).toNat) = Function.update (fun i => (ring i).toNat) j x.toNat :=
  Function.comp_update UInt16.toNat ring j x

/-- The head of a chain is put into the avail ring, where the device does not look yet. -/
theorem Inv.setRing (h : Inv hold busy d) (hi : i ∈ hold) : Inv hold busy (d.setRing i) := by
  have hroom : (d.disk.avail.idx - d.device.seen).toNat < NUM :=
    Nat.lt_of_le_of_lt d.length_offered_le (h.length_flight_lt hi)
  have hoffered : (d.setRing i).offered = d.offered := by
    show Ring.entries NUM (fun j => (Function.update d.disk.avail.ring _ _ j).toNat) _ _ = _
    rw [toNat_update]
    exact Ring.entries_update dvd_ring hroom
  have hunserved : (d.setRing i).unserved = d.unserved := by rw [Data.unserved, hoffered]; rfl
  refine h.congr ?_ rfl rfl rfl (fun _ => rfl) rfl fun _ _ _ => rfl
  exact h.flight.congr (.of_eq hunserved) (.refl _) rfl rfl rfl rfl (fun _ => id) h.flight.published

def Data.advance (d : Data n m) (p : Fin n) (w : Call m) (idx : Idx) : Data n m :=
  let avail := { d.disk.avail with idx := d.disk.avail.idx + 1 }
  (d.setDisk { d.disk with avail }).setChain w.b (some ⟨p, w, idx⟩)

theorem setChain_cases {x : Option (Chain n m)} (h : (d.setChain b x).chains b' = some c) :
    b' = b ∧ x = some c ∨ b' ≠ b ∧ d.chains b' = some c := by
  have h' : Function.update d.chains b x b' = some c := h
  by_cases hbb : b' = b
  · rw [hbb, Function.update_self] at h'
    exact Or.inl ⟨hbb, h'⟩
  · rw [Function.update_of_ne hbb] at h'
    exact Or.inr ⟨hbb, h'⟩

/-- The chain in hand is offered to the device. -/
theorem Inv.advance (h : Inv idx.list none d) (hbuilt : Built d.disk w idx) (hcalls : d.calls w.b = some p)
    (hinfo : (d.disk.info idx.head).b = some w.b) (hbdisk : d.bdisk w.b = 1) (hnone : d.chains w.b = none)
    (htransfers : d.transfers w.b = w.start)
    (hring : (d.disk.avail.ring (d.disk.avail.idx.toNat % NUM)).toNat = idx.head) : Inv [] none (d.advance p w idx) := by
  have hroom : (d.disk.avail.idx - d.device.seen).toNat < NUM :=
    Nat.lt_of_le_of_lt d.length_offered_le (h.length_flight_lt Idx.head_mem)
  have hoffered : (d.advance p w idx).offered = d.offered ++ [idx.head] := by
    show Ring.entries NUM (fun i => (d.disk.avail.ring i).toNat) d.device.seen (d.disk.avail.idx + 1) = _
    rw [Ring.entries_push dvd_ring (Nat.lt_of_lt_of_le (Nat.succ_lt_succ hroom) (by decide)), hring]
    rfl
  have hunserved : (d.advance p w idx).unserved.Perm (idx.head :: d.unserved) := by
    rw [Data.unserved, hoffered, List.append_assoc]
    exact List.perm_middle
  have hflight : (d.advance p w idx).flight.Perm (idx.head :: d.flight) := hunserved.append_right _
  have hnot : ∀ b c, d.chains b = some c → c.idx.head ≠ idx.head := fun b c hc heq => by
    exact (h.parts.chain_taken b c hc _ Idx.head_mem).2.2 (heq ▸ Idx.head_mem)
  have hothers : ∀ b, b ≠ w.b → (d.advance p w idx).chains b = d.chains b := fun b hb => Function.update_of_ne hb ..
  have hself : (d.advance p w idx).chains w.b = some ⟨p, w, idx⟩ := Function.update_self ..
  refine ⟨h.parts.offer (c := ⟨p, w, idx⟩) hnone, fun b c hc => ?_, ?_, fun i hi => ?_, fun b c hc => ?_, nofun, h.flight.status,
    fun b c hc => ?_, h.flight.published⟩
  · rcases setChain_cases hc with ⟨rfl, hx⟩ | ⟨-, hc'⟩
    · cases hx
      exact ⟨hbuilt.congr (fun _ _ => rfl) rfl, rfl, hcalls, hinfo⟩
    · exact (h.chain b c hc').congr (fun _ _ => rfl) rfl rfl rfl
  · rw [hflight.nodup_iff, List.nodup_cons]
    exact ⟨fun hmem => (h.mem_flight hmem).2 Idx.head_mem, h.flight.nodup⟩
  · rcases List.mem_cons.mp (hflight.mem_iff.mp hi) with rfl | hi
    · exact ⟨w.b, _, hself, rfl⟩
    · obtain ⟨b, c, hc, heq⟩ := h.flight.chain i hi
      have hb : b ≠ w.b := by
        rintro rfl
        rw [hnone] at hc
        cases hc
      exact ⟨b, c, (hothers b hb).trans hc, heq⟩
  · rw [hflight.mem_iff, List.mem_cons]
    rcases setChain_cases hc with ⟨rfl, hx⟩ | ⟨-, hc'⟩
    · cases hx
      exact ⟨fun _ => ⟨Or.inl rfl, nofun⟩, fun _ => hbdisk⟩
    · rw [or_iff_right (hnot b c hc')]
      exact h.flight.flag b c hc'
  · simp only [hunserved.mem_iff, List.mem_cons]
    rcases setChain_cases hc with ⟨rfl, hx⟩ | ⟨-, hc'⟩
    · cases hx
      rw [if_pos (Or.inl rfl), List.append_nil]
      exact htransfers
    · simp only [or_iff_right (hnot b c hc')]
      exact h.flight.transferred b c hc'

def Data.takeBack (d : Data n m) (w : Call m) (idx : Idx) : Data n m :=
  (d.setDisk (d.disk.setInfo idx.head { d.disk.info idx.head with b := none })).setChain w.b none

/-- A caller whose buffer is done with takes its chain back. -/
theorem Inv.takeBack (h : Inv [] none d) (hc : d.chains w.b = some ⟨p, w, idx⟩) (hbdisk : d.bdisk w.b ≠ 1) :
    Inv idx.list none (d.takeBack w idx) ∧ d.transfers w.b = w.start ++ [w.transfer] := by
  have hgone : idx.head ∉ d.flight := fun hmem => hbdisk ((h.flight.flag w.b _ hc).mpr ⟨hmem, nofun⟩)
  have hcases : ∀ b c, (d.takeBack w idx).chains b = some c → b ≠ w.b ∧ d.chains b = some c := fun b c hc' => by
    rcases setChain_cases hc' with ⟨-, hx⟩ | hx
    · cases hx
    · exact hx
  have hhead : ∀ b c, b ≠ w.b → d.chains b = some c → c.idx.head ≠ idx.head := fun b c hb hc' heq =>
    hb (h.chain_eq hc' hc heq)
  have hinfo : ∀ i, i ≠ idx.head → (d.takeBack w idx).disk.info i = d.disk.info i := fun i hi => Function.update_of_ne hi ..
  refine ⟨⟨h.parts.takeBack hc, fun b c hc' => ?_, h.flight.nodup, fun i hi => ?_, fun b c hc' => ?_, nofun, fun i hi => ?_,
    fun b c hc' => ?_, h.flight.published⟩, ?_⟩
  · obtain ⟨hb, hc'⟩ := hcases b c hc'
    refine (h.chain b c hc').congr (fun _ _ => rfl) rfl rfl ?_
    rw [hinfo _ (hhead b c hb hc')]
  · obtain ⟨b, c, hc', rfl⟩ := h.flight.chain i hi
    have hb : b ≠ w.b := by
      rintro rfl
      obtain rfl : c = ⟨p, w, idx⟩ := Option.some.inj (hc'.symm.trans hc)
      exact hgone hi
    exact ⟨b, c, (Function.update_of_ne hb ..).trans hc', rfl⟩
  · exact h.flight.flag b c (hcases b c hc').2
  · have hi' : i ∈ d.unhandled := hi
    have hne : i ≠ idx.head := by
      rintro rfl
      exact hgone (Data.mem_unhandled hi')
    rw [hinfo i hne]
    exact h.flight.status i hi'
  · exact h.flight.transferred b c (hcases b c hc').2
  · have htransfers := h.flight.transferred w.b _ hc
    rwa [if_neg fun hmem => hgone (Data.mem_unserved hmem)] at htransfers

/-- The handler of an interrupt marks the first chain as done. -/
theorem Inv.mark (h : Inv [] none d) (hfirst : d.First i) :
    ∃ b, (d.disk.info i).b = some b ∧ (d.disk.info i).status = 0 ∧ Inv [] (some i) (d.setBdisk b 0) := by
  obtain ⟨⟨l, hl⟩, hne⟩ := hfirst
  have hi : i ∈ d.unhandled := List.mem_append_right _ (hl ▸ List.mem_cons_self)
  obtain ⟨b, c, hc, rfl⟩ := h.flight.chain i (Data.mem_unhandled hi)
  refine ⟨b, (h.chain b c hc).info, h.flight.status _ hi, h.parts, fun b' c' hc' => ?_, h.flight.nodup, h.flight.chain,
    fun b' c' hc' => ?_, fun j hj => ?_, h.flight.status, h.flight.transferred, h.flight.published⟩
  · exact (h.chain b' c' hc').congr (fun _ _ => rfl) rfl rfl rfl
  · show Function.update d.bdisk b 0 b' = 1 ↔ _
    by_cases hbb : b' = b
    · subst hbb
      obtain rfl : c' = c := Option.some.inj (hc'.symm.trans hc)
      rw [Function.update_self]
      exact ⟨nofun, fun hx => absurd rfl hx.2⟩
    · rw [Function.update_of_ne hbb, h.flight.flag b' c' hc']
      have hhead : c.idx.head ≠ c'.idx.head := fun heq => hbb (h.chain_eq hc' hc heq.symm)
      simp [hhead, Data.flight, Data.unserved, Data.unhandled, Data.offered, Data.filled, Data.setBdisk]
  · cases hj
    exact ⟨⟨l, hl⟩, hne⟩

def Data.pass (d : Data n m) : Data n m := d.setDisk { d.disk with usedIdx := d.disk.usedIdx + 1 }

/-- It passes the chain. -/
theorem Inv.pass (h : Inv [] (some i) d) : Inv [] none d.pass := by
  obtain ⟨⟨l, hl⟩, hne⟩ := h.flight.first i rfl
  have hne' : d.disk.usedIdx ≠ d.device.filled := fun heq => by
    have hnil : d.filled = [] := Ring.entries_eq_nil.mpr heq
    rw [hnil] at hl
    cases hl
  have hfilled : d.filled = i :: d.pass.filled := by
    have hpop : d.filled = _ := Ring.entries_pop dvd_ring hne'
    rw [hl] at hpop
    rw [hl]
    exact congrArg₂ List.cons rfl (List.cons.inj hpop).2
  have hunhandled : d.unhandled.Perm (i :: d.pass.unhandled) := by
    rw [Data.unhandled, hfilled]
    exact List.perm_middle
  have hflight : d.flight.Perm (i :: d.pass.flight) := (hunhandled.append_left _).trans List.perm_middle
  obtain ⟨hgone, hnodup⟩ := List.nodup_cons.mp (hflight.nodup_iff.mp h.flight.nodup)
  refine ⟨h.parts, fun b c hc => ?_, hnodup, fun j hj => ?_, fun b c hc => ?_, nofun, fun j hj => ?_, h.flight.transferred, ?_⟩
  · exact (h.chain b c hc).congr (fun _ _ => rfl) rfl rfl rfl
  · exact h.flight.chain j (hflight.mem_iff.mpr (List.mem_cons_of_mem _ hj))
  · have hflag : d.bdisk b = 1 ↔ _ := h.flight.flag b c hc
    show d.bdisk b = 1 ↔ _
    rw [hflag, hflight.mem_iff, List.mem_cons]
    constructor
    · rintro ⟨heq | hmem, hi⟩
      · exact absurd (congrArg some heq.symm) hi
      · exact ⟨hmem, nofun⟩
    · rintro ⟨hmem, -⟩
      refine ⟨Or.inr hmem, fun heq => ?_⟩
      cases heq
      exact hgone hmem
  · exact h.flight.status j (hunhandled.mem_iff.mpr (List.mem_cons_of_mem _ hj))
  · have hpub := h.flight.published
    rw [Ring.distance_pred hne, Ring.distance_pred hne'] at hpub
    exact Nat.le_of_succ_le_succ hpub

theorem Inv.setCall (h : Inv hold busy d) {x : Option (Fin n)} (hnone : d.chains b = none) :
    Inv hold busy (d.setCall b x) := by
  refine h.congr ?_ rfl rfl rfl (fun _ => rfl) rfl fun b' c hc => ?_
  · exact h.flight.congr (.refl _) (.refl _) rfl rfl rfl rfl (fun _ => id) h.flight.published
  · refine Function.update_of_ne ?_ ..
    rintro rfl
    rw [hnone] at hc
    cases hc

/-! ### What the device does -/

/-- What a step of the device leaves. -/
structure Aside (d d' : Data n m) : Prop where
  free : d'.disk.free = d.disk.free
  desc : d'.disk.desc = d.disk.desc
  ops : d'.disk.ops = d.disk.ops
  avail : d'.disk.avail = d.disk.avail
  info : ∀ i, (d'.disk.info i).b = (d.disk.info i).b
  bdisk : d'.bdisk = d.bdisk
  calls : d'.calls = d.calls
  chains : d'.chains = d.chains
  transfers : ∀ b, d.chains b = none → d'.transfers b = d.transfers b
  first : ∀ i, d.First i → d'.First i

theorem Inv.fetch (h : Inv hold busy d) (hstep : deviceStep d .fetch = some d') : Inv hold busy d' ∧ Aside d d' := by
  obtain ⟨hne, heq⟩ := Option.ite_none_right_eq_some.mp hstep
  have hpop : d.offered = _ := Ring.entries_pop dvd_ring hne
  have hunserved : d'.unserved.Perm d.unserved := by
    rw [show d.unserved = _ ++ _ from rfl, hpop]
    cases heq
    exact List.perm_middle
  cases heq
  refine ⟨h.congr ?_ rfl rfl rfl (fun _ => rfl) rfl fun _ _ _ => rfl, ?_⟩
  · exact h.flight.congr hunserved (.refl _) rfl rfl rfl rfl (fun _ => id) h.flight.published
  · exact ⟨rfl, rfl, rfl, rfl, fun _ => rfl, rfl, rfl, rfl, fun _ _ => rfl, fun _ => id⟩

/-- The device serves a chain as its caller asks. -/
theorem Inv.serve_eq (h : Inv hold busy d) (hc : d.chains b = some c) :
    d.serve c.idx.head =
      { d with
        disk := d.disk.setInfo c.idx.head { d.disk.info c.idx.head with status := 0 }
        transfers := Function.update d.transfers b (d.transfers b ++ [c.call.transfer]) } := by
  have hlt : ∀ i ∈ c.idx.list, i < NUM := fun i hi => (h.parts.chain_taken b c hc i hi).1
  have hok := h.chain b c hc
  have hmid : (d.disk.desc c.idx.head).next.toNat = c.idx.mid := by
    rw [hok.built.head]
    exact toNat_ofNat_idx (hlt _ (by simp [Idx.list]))
  have htail : (d.disk.desc c.idx.mid).next.toNat = c.idx.tail := by
    rw [hok.built.mid]
    exact toNat_ofNat_idx (hlt _ (by simp [Idx.list]))
  have hwrite : (decide ((c.call.descMid c.idx).flags &&& VRING_DESC_F_WRITE ≠ 0)) = !c.call.write := by
    show decide (((if c.call.write then 0 else VRING_DESC_F_WRITE) ||| VRING_DESC_F_NEXT) &&& VRING_DESC_F_WRITE ≠ 0) = _
    cases c.call.write <;> rfl
  unfold Data.serve
  dsimp only
  rw [hmid, htail, hok.built.head, hok.built.mid, hok.built.tail, hwrite]
  simp only [Call.descHead, Call.descMid, Call.descTail, hok.buffer, hok.built.ops, Data.setDisk]
  rfl

theorem Inv.serve (h : Inv hold busy d) (hstep : deviceStep d (.serve i) = some d') : Inv hold busy d' ∧ Aside d d' := by
  obtain ⟨hmem, heq⟩ := Option.ite_none_right_eq_some.mp hstep
  have hi : i ∈ d.unserved := List.mem_append_right _ hmem
  obtain ⟨b, c, hc, rfl⟩ := h.flight.chain i (Data.mem_unserved hi)
  rw [h.serve_eq hc] at heq
  have hunserved : d.unserved.Perm (c.idx.head :: d'.unserved) := by
    cases heq
    exact ((List.perm_cons_erase hmem).append_left _).trans List.perm_middle
  have hunhandled : d'.unhandled = c.idx.head :: d.unhandled := by
    cases heq
    rfl
  have hflight : d'.flight.Perm d.flight := by
    rw [Data.flight, hunhandled]
    exact List.perm_middle.trans (hunserved.append_right _).symm
  have hnodup : (c.idx.head :: d'.unserved).Nodup := hunserved.nodup_iff.mp (List.Nodup.of_append_left h.flight.nodup)
  have htransfers : d'.transfers = Function.update d.transfers b (d.transfers b ++ [c.call.transfer]) := by
    cases heq
    rfl
  have hinfo : d'.disk.info = Function.update d.disk.info c.idx.head { d.disk.info c.idx.head with status := 0 } := by
    cases heq
    rfl
  have hstay : d'.disk.free = d.disk.free ∧ d'.disk.desc = d.disk.desc ∧ d'.disk.ops = d.disk.ops ∧
      d'.disk.avail = d.disk.avail ∧ d'.bdisk = d.bdisk ∧ d'.calls = d.calls ∧ d'.chains = d.chains ∧
      (∀ i, d.First i → d'.First i) ∧ d'.disk.used = d.disk.used ∧ d'.disk.usedIdx = d.disk.usedIdx ∧
      d'.device.filled = d.device.filled := by
    cases heq
    exact ⟨rfl, rfl, rfl, rfl, rfl, rfl, rfl, fun _ => id, rfl, rfl, rfl⟩
  clear hstep heq
  obtain ⟨hfree, hdesc, hops, havail, hbdisk, hcalls, hchains, hfirst, hused, husedIdx, hfilled⟩ := hstay
  have hinfo' : ∀ j, (d'.disk.info j).b = (d.disk.info j).b := fun j => by
    rw [hinfo]
    by_cases hj : j = c.idx.head
    · rw [hj, Function.update_self]
    · rw [Function.update_of_ne hj]
  refine ⟨h.congr ⟨?_, fun j hj => ?_, fun b' c' hc' => ?_, fun j hj => hfirst j (h.flight.first j hj), fun j hj => ?_,
    fun b' c' hc' => ?_, ?_⟩ hfree hdesc hops hinfo' hchains fun _ _ _ => by rw [hcalls], ?_⟩
  · exact hflight.nodup_iff.mpr h.flight.nodup
  · rw [hchains]
    exact h.flight.chain j (hflight.mem_iff.mp hj)
  · rw [hchains] at hc'
    rw [hbdisk, hflight.mem_iff]
    exact h.flight.flag b' c' hc'
  · rw [hunhandled] at hj
    rw [hinfo]
    by_cases heq : j = c.idx.head
    · rw [heq, Function.update_self]
    · rw [Function.update_of_ne heq]
      exact h.flight.status j ((List.mem_cons.mp hj).resolve_left heq)
  · rw [hchains] at hc'
    rw [htransfers]
    by_cases hbb : b' = b
    · subst hbb
      obtain rfl : c' = c := Option.some.inj (hc'.symm.trans hc)
      rw [Function.update_self, if_neg (List.nodup_cons.mp hnodup).1, h.flight.transferred b' c' hc, if_pos hi, List.append_nil]
    · have hhead : c'.idx.head ≠ c.idx.head := fun heq => hbb (h.chain_eq hc' hc heq)
      have hiff : c'.idx.head ∈ d'.unserved ↔ c'.idx.head ∈ d.unserved := by
        rw [hunserved.mem_iff, List.mem_cons, or_iff_right hhead]
      rw [Function.update_of_ne hbb, h.flight.transferred b' c' hc']
      simp only [hiff]
  · rw [hused, husedIdx, hfilled]
    exact h.flight.published
  · refine ⟨hfree, hdesc, hops, havail, hinfo', hbdisk, hcalls, hchains, fun b' hnone => ?_, hfirst⟩
    rw [htransfers]
    refine Function.update_of_ne ?_ ..
    rintro rfl
    rw [hnone] at hc
    cases hc

theorem Inv.fill (h : Inv hold busy d) (hstep : deviceStep d (.fill i) = some d') : Inv hold busy d' ∧ Aside d d' := by
  obtain ⟨hmem, heq⟩ := Option.ite_none_right_eq_some.mp hstep
  have hlen := d.length_filled_le
  have hpos : 0 < d.device.served.length := List.length_pos_of_mem hmem
  have hroom : (d.device.filled - d.disk.usedIdx).toNat < NUM := by
    have hle := h.length_flight
    omega
  have hlt : i < NUM := (h.mem_flight (Data.mem_unhandled (List.mem_append_left _ hmem))).1
  have hi : (UInt32.ofNat i).toNat = i := by
    rw [UInt32.toNat_ofNat']
    exact Nat.mod_eq_of_lt (Nat.lt_trans hlt (by decide))
  have hfilled : d'.filled = d.filled ++ [i] := by
    cases heq
    show Ring.entries NUM (UInt32.toNat ∘ Function.update d.disk.used.ring _ _) d.disk.usedIdx (d.device.filled + 1) = _
    rw [Function.comp_update, Ring.entries_push dvd_ring (Nat.lt_of_lt_of_le (Nat.succ_lt_succ hroom) (by decide)),
      Ring.entries_update dvd_ring hroom, Function.update_self, hi]
    rfl
  have hunhandled : d'.unhandled.Perm d.unhandled := by
    have hserved : d'.device.served = d.device.served.erase i := by
      cases heq
      rfl
    rw [Data.unhandled, hfilled, hserved, ← List.append_assoc]
    refine (List.perm_append_singleton i _).trans ?_
    exact ((List.perm_cons_erase hmem).append_right _).symm
  have hfirst : ∀ j, d.First j → d'.First j := by
    rintro j ⟨⟨l, hl⟩, hne⟩
    refine ⟨⟨l ++ [i], ?_⟩, ?_⟩
    · rw [hfilled, hl]
      rfl
    · cases heq
      exact hne
  have hpublished : (d.disk.used.idx - d.disk.usedIdx).toNat ≤ (d.device.filled + 1 - d.disk.usedIdx).toNat := by
    rw [Ring.distance_succ (Nat.lt_of_lt_of_le (Nat.succ_lt_succ hroom) (by decide))]
    exact Nat.le_succ_of_le h.flight.published
  cases heq
  refine ⟨h.congr ?_ rfl rfl rfl (fun _ => rfl) rfl fun _ _ _ => rfl, ?_⟩
  · exact h.flight.congr (.refl _) hunhandled rfl rfl rfl rfl hfirst hpublished
  · exact ⟨rfl, rfl, rfl, rfl, fun _ => rfl, rfl, rfl, rfl, fun _ _ => rfl, hfirst⟩

theorem Inv.publish (h : Inv hold busy d) (hstep : deviceStep d .publish = some d') : Inv hold busy d' ∧ Aside d d' := by
  have hfirst : ∀ j, d.First j → d'.First j := by
    rintro j ⟨⟨l, hl⟩, -⟩
    cases hstep
    refine ⟨⟨l, hl⟩, fun heq => ?_⟩
    have hnil : d.filled = [] := Ring.entries_eq_nil.mpr heq
    rw [hnil] at hl
    cases hl
  cases hstep
  refine ⟨h.congr ?_ rfl rfl rfl (fun _ => rfl) rfl fun _ _ _ => rfl, ?_⟩
  · exact h.flight.congr (.refl _) (.refl _) rfl rfl rfl rfl hfirst (Nat.le_refl _)
  · exact ⟨rfl, rfl, rfl, rfl, fun _ => rfl, rfl, rfl, rfl, fun _ _ => rfl, hfirst⟩

theorem Inv.deviceStep {e : DeviceStep} (h : Inv hold busy d) (hstep : deviceStep d e = some d') :
    Inv hold busy d' ∧ Aside d d' := by
  cases e with
  | fetch => exact h.fetch hstep
  | serve id => exact h.serve hstep
  | fill id => exact h.fill hstep
  | publish => exact h.publish hstep

end LabSO.Virtio
