import LabSO.User.MallocAlloc

/-! The loops of `malloc` end: a round in the free list finds a block or comes back to `freep`, and after `morecore` it finds
    a block. -/

namespace LabSO.Malloc
open Chase

variable {fs bs : List Block} {base p q prevp x fuel m : Nat} {h h' : Heap} {sbrk : Sbrk} {nu : UInt32}

theorem free_mono (hret : Malloc.free fuel h p = some h') (hle : fuel ≤ m) : Malloc.free m h p = some h' := by
  obtain ⟨q, hq, rfl⟩ := Option.map_eq_some_iff.mp hret
  exact Option.map_eq_some_iff.mpr ⟨q, seek_mono hq hle, rfl⟩

theorem morecore_mono (hret : morecore fuel sbrk h nu = some (h', q)) (hle : fuel ≤ m) :
    morecore m sbrk h nu = some (h', q) := by
  unfold morecore at hret ⊢
  dsimp only at hret ⊢
  split at hret
  · exact hret
  · obtain ⟨h₁, hfree, heq⟩ := Option.map_eq_some_iff.mp hret
    exact Option.map_eq_some_iff.mpr ⟨h₁, free_mono hfree hle, heq⟩

/-- Where the loop of `malloc` stops going round. -/
def Heap.big (h : Heap) (nu : UInt32) (x : Nat) : Bool := nu ≤ h.size x

/-- From some number of rounds on, the loop of `malloc` has a result. -/
def Ends (sbrk : Sbrk) (nu : UInt32) (h : Heap) (prevp p : Nat) : Prop :=
  ∃ n, ∀ fuel, n ≤ fuel → ∃ r, mallocFrom sbrk nu fuel h prevp p = some r

/-- The loop ends when it comes to a block that is large enough, or to `freep` and then ends from there. -/
theorem ends_of_seek (hseek : seek h.next (fun x => h.big nu x || x == h.freep) m p = some x)
    (hx : h.big nu x = true ∨ ∃ n h' q, morecore n sbrk h nu = some (h', q) ∧ (q = 0 ∨ Ends sbrk nu h' q (h'.next q))) :
    Ends sbrk nu h prevp p := by
  induction m generalizing p prevp with
  | zero => cases hseek
  | succ m ih =>
    rw [seek] at hseek
    by_cases hbig : h.big nu p = true
    · refine ⟨1, fun fuel hfuel => ?_⟩
      obtain ⟨k, rfl⟩ := Nat.exists_eq_add_of_le' hfuel
      rw [mallocFrom, if_pos (of_decide_eq_true hbig)]
      exact ⟨_, rfl⟩
    · have hsmall : ¬nu ≤ h.size p := fun hle => hbig (decide_eq_true hle)
      split at hseek
      · next hstop =>
        -- back at `freep`
        obtain rfl := Option.some.inj hseek
        obtain rfl : p = h.freep := by simpa [hbig] using hstop
        rcases hx with hx | ⟨n, h', q, hcore, hq⟩
        · exact absurd hx hbig
        · rcases hq with rfl | ⟨n', hn'⟩
          · refine ⟨n + 1, fun fuel hfuel => ?_⟩
            obtain ⟨k, rfl⟩ := Nat.exists_eq_add_of_le' hfuel
            rw [← Nat.add_assoc, mallocFrom, if_neg hsmall, if_pos rfl, morecore_mono hcore (Nat.le_add_left n k)]
            exact ⟨_, rfl⟩
          · refine ⟨max n n' + 1, fun fuel hfuel => ?_⟩
            obtain ⟨k, rfl⟩ := Nat.exists_eq_add_of_le' hfuel
            rw [← Nat.add_assoc, mallocFrom, if_neg hsmall, if_pos rfl, morecore_mono hcore (by omega)]
            dsimp only
            split
            · exact ⟨_, rfl⟩
            · exact hn' _ (by omega)
      · next hgo =>
        have hne : ¬p = h.freep := by
          intro heq
          simp [heq] at hgo
        obtain ⟨n, hn⟩ : Ends sbrk nu h p (h.next p) := ih hseek
        refine ⟨n + 1, fun fuel hfuel => ?_⟩
        obtain ⟨k, rfl⟩ := Nat.exists_eq_add_of_le' hfuel
        rw [← Nat.add_assoc, mallocFrom, if_neg hsmall, if_neg hne]
        exact hn _ (Nat.le_add_left n k)

/-- `sbrk` fails before all units are too many for a `uint`. -/
def Bounded (sbrk : Sbrk) : Prop :=
  ∀ h n a, sbrk h n = some a → Small { h with regions := ⟨a, n.toInt.toNat / unit⟩ :: h.regions }

/-- A search from the block after `freep` comes back to `freep`, if nothing else stops it. -/
theorem Rep.exists_seek (hr : Rep base h fs bs) (nu : UInt32) :
    ∃ m x, seek h.next (fun x => h.big nu x || x == h.freep) m (h.next h.freep) = some x := by
  obtain ⟨k, hk⟩ := hr.ring.reach (hr.ring.next_mem hr.freep) hr.freep
  have hstop : (h.big nu (h.next^[k] (h.next h.freep)) || h.next^[k] (h.next h.freep) == h.freep) = true := by
    rw [hk]
    simp
  obtain ⟨x, hx⟩ : ∃ x, seek h.next (fun x => h.big nu x || x == h.freep) (k + 1) (h.next h.freep) = some x :=
    seek_of_iterate hstop (Nat.lt_succ_self k)
  exact ⟨k + 1, x, hx⟩

/-- With a block that is large enough in the free list, the loop ends when it starts after `freep`. -/
theorem Rep.ends_of_big (hr : Rep base h fs bs) (hbig : ∃ f ∈ fs, nu.toNat ≤ f.size) :
    Ends sbrk nu h h.freep (h.next h.freep) := by
  obtain ⟨f, hf, hle⟩ := hbig
  obtain ⟨m, x, hseek⟩ := hr.exists_seek nu
  obtain ⟨k, hk⟩ := hr.ring.reach hr.freep (List.mem_cons_of_mem _ (List.mem_map_of_mem hf))
  have hfbig : h.big nu (h.next^[k] h.freep) = true := by
    rw [hk]
    refine decide_eq_true (UInt32.le_iff_toNat_le.mpr ?_)
    rwa [hr.sizes f (List.mem_append_left _ hf)]
  exact ends_of_seek hseek (.inl (seek_round hseek hfbig))

/-- The loop of `malloc` ends. -/
theorem Rep.ends (hr : Rep base h fs bs) (hfresh : Fresh base sbrk) (hbounded : Bounded sbrk)
    (hnu : unit * max nu.toNat 4096 < 2 ^ 31) : Ends sbrk nu h h.freep (h.next h.freep) := by
  obtain ⟨m, x, hseek⟩ := hr.exists_seek nu
  refine ends_of_seek hseek (.inr ?_)
  cases hsbrk : sbrk h (Int32.ofNat ((coreUnits nu).toNat * unit)) with
  | none => exact ⟨0, h, 0, by rw [morecore_eq hnu, hsbrk], .inl rfl⟩
  | some a =>
    obtain ⟨haligned, habove, hregions⟩ := hfresh _ _ _ hsbrk
    have hcore := coreUnits_toNat nu
    have hok : Block.Ok base ⟨a, (coreUnits nu).toNat⟩ := ⟨by show 0 < (coreUnits nu).toNat; omega, haligned, habove⟩
    obtain ⟨n, h₁, hfree⟩ := (hr.grow hok hregions).free.1
    have hret : Malloc.morecore n sbrk h nu = some (h₁, h₁.freep) := by
      rw [morecore_eq hnu, hsbrk]
      exact Option.map_eq_some_iff.mpr ⟨h₁, hfree, rfl⟩
    refine ⟨n, h₁, h₁.freep, hret, .inr ?_⟩
    have hsmall := hbounded _ _ _ hsbrk
    rw [ofNat_units (by rwa [hcore])] at hsmall
    obtain ⟨hkeep, hfs⟩ := (hr.grow hok hregions).free.2 n h₁ hfree
    obtain ⟨fs₁, hr₁, f, hf, hle⟩ := hfs hsmall
    refine hr₁.ends_of_big ⟨f, hf, ?_⟩
    simp only at hle
    omega

end LabSO.Malloc
