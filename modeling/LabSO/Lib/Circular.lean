import Mathlib.Data.List.Chain
import Mathlib.Data.List.Nodup
import Mathlib.Logic.Function.Basic
import Mathlib.Tactic.Common

/-! Circular doubly linked lists with a head: the pointers, the surgery on them, and walks along them in both directions. -/

namespace LabSO.Circular

/-- The pointers of the nodes. -/
structure Links (N : Type*) where
  next : N → N
  prev : N → N

/-- `c` is after `a`, and `a` before `c`. -/
def Linked {N : Type*} (k : Links N) (a c : N) : Prop := k.next a = c ∧ k.prev c = a

/-- From the head `h` the pointers go through `l`, no node of which comes twice, and back to `h`. -/
structure Circle {N : Type*} (k : Links N) (h : N) (l : List N) : Prop where
  nodup : (h :: l).Nodup
  linked : (h :: (l ++ [h])).IsChain (Linked k)

/-- The same pointers, seen in the other direction. -/
def Links.flip {N : Type*} (k : Links N) : Links N := ⟨k.prev, k.next⟩

section
variable {N : Type*} {k : Links N} {h : N} {l : List N}

theorem linked_flip {a c : N} : Linked k.flip c a ↔ Linked k a c := and_comm

theorem Circle.flip (hc : Circle k h l) : Circle k.flip h l.reverse where
  nodup := by simpa using hc.nodup
  linked := by
    have hrev : (h :: (l ++ [h])).reverse.IsChain (Linked k.flip) :=
      List.isChain_reverse.mpr (hc.linked.imp fun _ _ => linked_flip.mpr)
    simpa using hrev

/-- The list that holds the head only. -/
theorem Circle.empty (hnext : k.next h = h) (hprev : k.prev h = h) : Circle k h [] where
  nodup := List.nodup_singleton h
  linked := List.isChain_pair.mpr ⟨hnext, hprev⟩

end

/-! ### Surgery -/

section
variable {N : Type*} [DecidableEq N] {k : Links N} {h a b c : N} {l l₁ l₂ : List N}

def Links.setNext (k : Links N) (a c : N) : Links N := { k with next := Function.update k.next a c }

def Links.setPrev (k : Links N) (a c : N) : Links N := { k with prev := Function.update k.prev a c }

/-- `b->next->prev = b->prev; b->prev->next = b->next`. -/
def Links.unlink (k : Links N) (b : N) : Links N :=
  let k := k.setPrev (k.next b) (k.prev b)
  k.setNext (k.prev b) (k.next b)

/-- `b->next = h->next; b->prev = h; h->next->prev = b; h->next = b`. -/
def Links.pushFront (k : Links N) (h b : N) : Links N :=
  let k := k.setNext b (k.next h)
  let k := k.setPrev b h
  let k := k.setPrev (k.next h) b
  k.setNext h b

theorem Links.unlink_next (hb : k.next b ≠ b) : (k.unlink b).next = Function.update k.next (k.prev b) (k.next b) := by
  simp [unlink, setNext, setPrev, Function.update_of_ne hb.symm]

theorem Links.unlink_prev : (k.unlink b).prev = Function.update k.prev (k.next b) (k.prev b) := rfl

theorem Linked.unlink (hac : Linked k a c) (hp : Linked k (k.prev b) b) (hn : Linked k b (k.next b)) (ha : a ≠ b)
    (hcb : c ≠ b) (hb : k.next b ≠ b) : Linked (k.unlink b) a c := by
  have hnext : a ≠ k.prev b := by
    rintro rfl
    exact hcb (hac.1.symm.trans hp.1)
  have hprev : c ≠ k.next b := by
    rintro rfl
    exact ha (hac.2.symm.trans hn.2)
  exact ⟨by rw [Links.unlink_next hb, Function.update_of_ne hnext, hac.1],
    by rw [Links.unlink_prev, Function.update_of_ne hprev, hac.2]⟩

theorem Circle.unlink (hc : Circle k h (l₁ ++ b :: l₂)) : Circle (k.unlink b) h (l₁ ++ l₂) := by
  have hnodup := hc.nodup
  rw [← List.cons_append, List.nodup_middle, List.nodup_cons] at hnodup
  obtain ⟨hb, hrest⟩ := hnodup
  have hmem₁ : ∀ x ∈ h :: l₁, x ≠ b := fun x hx hxb => hb (hxb ▸ List.mem_append_left _ hx)
  have hmem₂ : ∀ x ∈ l₂ ++ [h], x ≠ b := by
    intro x hx hxb
    rcases List.mem_append.mp hx with hx | hx
    · exact hb (hxb ▸ List.mem_append_right _ hx)
    · exact hmem₁ h List.mem_cons_self (List.mem_singleton.mp hx ▸ hxb)
  have hlinked := hc.linked
  rw [List.append_assoc, List.cons_append, ← List.cons_append, List.isChain_append] at hlinked
  obtain ⟨hfst, hsnd, hlast⟩ := hlinked
  obtain ⟨hhead, hsnd⟩ := List.isChain_cons.mp hsnd
  -- the neighbours of `b`
  obtain ⟨x, hx⟩ : ∃ x, x ∈ (h :: l₁).getLast? := ⟨_, List.getLast?_eq_some_getLast (List.cons_ne_nil _ _)⟩
  obtain ⟨y, hy⟩ : ∃ y, y ∈ (l₂ ++ [h]).head? := ⟨_, List.head?_eq_some_head (by simp)⟩
  have hxb : Linked k x b := hlast x hx b rfl
  have hby : Linked k b y := hhead y hy
  obtain rfl : k.prev b = x := hxb.2
  obtain rfl : k.next b = y := hby.1
  have hne : k.next b ≠ b := hmem₂ _ (List.mem_of_mem_head? hy)
  refine ⟨hrest, ?_⟩
  rw [List.append_assoc, ← List.cons_append, List.isChain_append]
  refine ⟨hfst.imp_of_mem_imp fun a c ha hc hac => hac.unlink hxb hby (hmem₁ a ha) (hmem₁ c hc) hne,
    hsnd.imp_of_mem_imp fun a c ha hc hac => hac.unlink hxb hby (hmem₂ a ha) (hmem₂ c hc) hne, ?_⟩
  intro x' hx' y' hy'
  obtain rfl : k.prev b = x' := Option.some.inj (hx.symm.trans hx')
  obtain rfl : k.next b = y' := Option.some.inj (hy.symm.trans hy')
  exact ⟨by rw [Links.unlink_next hne, Function.update_self], by rw [Links.unlink_prev, Function.update_self]⟩

theorem Links.pushFront_next :
    (k.pushFront h b).next = Function.update (Function.update k.next b (k.next h)) h b := by
  simp [pushFront, setNext, setPrev]

theorem Links.pushFront_prev (hb : b ≠ h) :
    (k.pushFront h b).prev = Function.update (Function.update k.prev b h) (k.next h) b := by
  simp [pushFront, setNext, setPrev, Function.update_of_ne hb.symm]

theorem Linked.pushFront (hac : Linked k a c) (hn : Linked k h (k.next h)) (hah : a ≠ h) (hab : a ≠ b) (hcb : c ≠ b)
    (hb : b ≠ h) : Linked (k.pushFront h b) a c := by
  have hprev : c ≠ k.next h := by
    rintro rfl
    exact hah (hac.2.symm.trans hn.2)
  exact ⟨by rw [Links.pushFront_next, Function.update_of_ne hah, Function.update_of_ne hab, hac.1],
    by rw [Links.pushFront_prev hb, Function.update_of_ne hprev, Function.update_of_ne hcb, hac.2]⟩

theorem Circle.pushFront (hc : Circle k h l) (hb : b ∉ h :: l) : Circle (k.pushFront h b) h (b :: l) := by
  obtain ⟨hbh, hbl⟩ := not_or.mp (mt List.mem_cons.mpr hb)
  obtain ⟨hhl, hl⟩ := List.nodup_cons.mp hc.nodup
  obtain ⟨hhead, hrest⟩ := List.isChain_cons.mp hc.linked
  obtain ⟨y, hy⟩ : ∃ y, y ∈ (l ++ [h]).head? := ⟨_, List.head?_eq_some_head (by simp)⟩
  have hhy : Linked k h y := hhead y hy
  obtain rfl : k.next h = y := hhy.1
  have hmem : ∀ x ∈ l ++ [h], x ≠ b := by
    intro x hx hxb
    rcases List.mem_append.mp hx with hx | hx
    · exact hbl (hxb ▸ hx)
    · exact hbh (hxb.symm.trans (List.mem_singleton.mp hx))
  refine ⟨?_, List.isChain_cons.mpr ⟨?_, List.isChain_cons.mpr ⟨?_, ?_⟩⟩⟩
  · refine List.nodup_cons.mpr ⟨?_, List.nodup_cons.mpr ⟨hbl, hl⟩⟩
    exact mt List.mem_cons.mp (not_or.mpr ⟨Ne.symm hbh, hhl⟩)
  · intro c hc
    obtain rfl : b = c := Option.some.inj hc
    refine ⟨by rw [Links.pushFront_next, Function.update_self], ?_⟩
    rw [Links.pushFront_prev hbh, Function.update_of_ne (hmem _ (List.mem_of_mem_head? hy)).symm, Function.update_self]
  · intro c hc
    obtain rfl : k.next h = c := Option.some.inj (hy.symm.trans hc)
    exact ⟨by rw [Links.pushFront_next, Function.update_of_ne hbh, Function.update_self],
      by rw [Links.pushFront_prev hbh, Function.update_self]⟩
  · -- the links of the old list start at its nodes, so none of them starts at the head
    have hlinks : ∀ (m : List N), m ⊆ l → (m ++ [h]).IsChain (Linked k) → (m ++ [h]).IsChain (Linked (k.pushFront h b)) := by
      intro m hm hchain
      induction m with
      | nil => exact List.isChain_singleton _
      | cons a m ih =>
        obtain ⟨ha, hm'⟩ := List.cons_subset.mp hm
        obtain ⟨hlink, htail⟩ := List.isChain_cons.mp hchain
        refine List.isChain_cons.mpr ⟨fun c hc => ?_, ih hm' htail⟩
        have hsub : m ++ [h] ⊆ l ++ [h] :=
          List.append_subset.mpr ⟨List.Subset.trans hm' (List.subset_append_left _ _), List.subset_append_right _ _⟩
        have hcm : c ∈ l ++ [h] := hsub (List.mem_of_mem_head? hc)
        exact (hlink c hc).pushFront hhy (ne_of_mem_of_not_mem ha hhl) (ne_of_mem_of_not_mem ha hbl) (hmem c hcm) hbh
    exact hlinks l (List.Subset.refl _) hrest

end

/-! ### Walks -/

/-- Follow the pointers from `b` up to the first node with `p`, or to `stop`: which of them ended the walk, within a number
    of tests. -/
def walk {N : Type*} [DecidableEq N] (next : N → N) (stop : N) (p : N → Bool) : Nat → N → Option (Option N)
  | 0, _ => none
  | fuel + 1, b => if b = stop then some none else if p b then some (some b) else walk next stop p fuel (next b)

section
variable {N : Type*} [DecidableEq N] {k : Links N} {h : N} {l : List N} {p : N → Bool}

theorem walk_some {next : N → N} {fuel : Nat} {b c : N} (hw : walk next h p fuel b = some (some c)) : p c = true := by
  induction fuel generalizing b with
  | zero => cases hw
  | succ fuel ih =>
    rw [walk] at hw
    split at hw
    · cases hw
    · split at hw
      · cases hw
        assumption
      · exact ih hw

theorem walk_chain {a : N} {fuel : Nat} (hl : (a :: (l ++ [h])).IsChain (Linked k)) (hh : h ∉ l) (hfuel : l.length < fuel) :
    walk k.next h p fuel (k.next a) = some (l.find? p) := by
  induction l generalizing a fuel with
  | nil =>
    obtain ⟨fuel, rfl⟩ := Nat.exists_eq_add_one.mpr hfuel
    have ha : k.next a = h := (List.isChain_pair.mp hl).1
    rw [walk, if_pos ha, List.find?_nil]
  | cons b l ih =>
    obtain ⟨fuel, rfl⟩ := Nat.exists_eq_add_one.mpr (Nat.zero_lt_of_lt hfuel)
    obtain ⟨hbh, hl'⟩ := not_or.mp (mt List.mem_cons.mpr hh)
    obtain ⟨hab, hrest⟩ := List.isChain_cons.mp hl
    have ha : k.next a = b := (hab b rfl).1
    rw [walk, ha, if_neg (Ne.symm hbh), List.find?_cons]
    cases hp : p b with
    | true => simp
    | false => simpa using ih hrest hl' (Nat.lt_of_succ_lt_succ hfuel)

/-- Forwards from the head. -/
theorem Circle.walk_next (hc : Circle k h l) {fuel : Nat} (hfuel : l.length < fuel) :
    walk k.next h p fuel (k.next h) = some (l.find? p) :=
  walk_chain hc.linked (List.nodup_cons.mp hc.nodup).1 hfuel

end

end LabSO.Circular
