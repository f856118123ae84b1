import LabSO.Kernel.FsCreate

/-! What the functions for open files do to the invariant, within an operation and between operations. -/

namespace LabSO.Kernel
open Program Tokens

variable {sb : Superblock} {s t u : Fs} {ino : UInt32 → Dinode} {I J : Multiset (Fin NINODE)} {F G : Multiset (Fin NFILE)}
  {i j : Fin NINODE} {f g : Fin NFILE} {x : File}

/-! ### Between operations -/

/-- No operation is under way, and references are as in `I` and `F`. -/
structure Between (sb : Superblock) (s : Fs) (I : Multiset (Fin NINODE)) (F : Multiset (Fin NFILE)) : Prop where
  quiet : Quiet sb s.store
  ok : (s.vol sb).Ok sb
  tables : Tables sb s (s.vol sb).dinode I F

theorem beginOp_bind {β : Type} {k : Unit → FsProg β} {R : β → Fs → Prop} (h : Between sb s I F)
    (hk : ∀ store, let t : Fs := { s with store }; Inv sb t (t.vol sb) I F → Wp Tolerated (k ()) R t) :
    Wp Tolerated (onStore beginOp >>= k) R s := by
  refine onStore_bind (beginOp_spec h.quiet) fun _ store hstore => hk store ?_
  obtain ⟨hlog, hbufs⟩ := hstore
  have hvol : volume sb store.bufs = s.vol sb := by rw [hbufs, Fs.vol]
  refine ⟨hlog, ?_, ?_⟩
  · show (volume sb store.bufs).Ok sb
    rw [hvol]
    exact h.ok
  · show Tables sb _ (volume sb store.bufs).dinode I F
    rw [hvol]
    exact h.tables.congr rfl rfl

theorem endOp_spec' (hsb : sb.Ordered) (h : Inv sb s (s.vol sb) I F) :
    Wp Tolerated (onStore endOp) (fun _ t => Between sb t I F ∧ t.itable = s.itable ∧ t.ftable = s.ftable ∧ t.proc = s.proc) s := by
  refine onStore_spec (endOp_spec hsb h.log) fun _ store hstore => ?_
  obtain ⟨hquiet, hvol⟩ := hstore
  have hvol' : volume sb store.bufs = s.vol sb := hvol
  refine ⟨⟨hquiet, ?_, ?_⟩, rfl, rfl, rfl⟩
  · show (volume sb store.bufs).Ok sb
    rw [hvol']
    exact h.ok
  · show Tables sb _ (volume sb store.bufs).dinode I F
    rw [hvol']
    exact h.tables.congr rfl rfl

/-! ### Updates of a file -/

section
variable {β : Type} {ok : Stop → Prop} {R : β → Fs → Prop}

theorem file_bind {k : File → FsProg β} (h : Wp ok (k (s.ftable f)) R s) : Wp ok (file f >>= k) R s := .liftState_bind h

theorem modifyFile_bind {c : File → File} {k : Unit → FsProg β} (h : Wp ok (k ()) R (s.setFile f (c (s.ftable f)))) :
    Wp ok (modifyFile f c >>= k) R s :=
  .liftState_bind h

end

@[simp] theorem Fs.ftable_setFile_self (s : Fs) (f : Fin NFILE) (x : File) : (s.setFile f x).ftable f = x :=
  Function.update_self ..

theorem Fs.ftable_setFile_of_ne (s : Fs) (x : File) (h : g ≠ f) : (s.setFile f x).ftable g = s.ftable g :=
  Function.update_of_ne h ..

@[simp] theorem Fs.itable_setFile (s : Fs) (f : Fin NFILE) (x : File) : (s.setFile f x).itable = s.itable := rfl
@[simp] theorem Fs.vol_setFile (s : Fs) (f : Fin NFILE) (x : File) : (s.setFile f x).vol sb = s.vol sb := rfl

/-- A file changes, and with it what it refers to and the references to it. -/
theorem Tables.setFile (h : Tables sb s ino I F) (hI : J + token x.inode? = I + token (s.ftable f).inode?)
    (href : x.ref = G.count f) (hG : ∀ g, g ≠ f → G.count g = F.count g) (hidle : x.ref = 0 → x.type = .none)
    (hopened : ∀ i, x.inode? = some i → (s.itable i).valid = true)
    (hnotDir : x.type = .inode → x.writable = true → (ino (s.itable x.ip).inum).type ≠ T_DIR) :
    Tables sb (s.setFile f x) ino J G where
  refs i := by
    have hupdate : (fun g => ((s.setFile f x).ftable g).inode?) =
        Function.update (fun g => (s.ftable g).inode?) f x.inode? := by
      funext g
      by_cases hg : g = f
      · subst hg
        simp
      · rw [Fs.ftable_setFile_of_ne _ _ hg, Function.update_of_ne hg]
    have hsum : J + (s.setFile f x).opens = I + s.opens := by
      have hold := gather_eq (fun g => (s.ftable g).inode?) f
      rw [Fs.opens, hupdate, gather_update, ← Multiset.add_assoc, hI, Multiset.add_assoc, ← hold, Fs.opens]
    rw [hsum]
    exact h.refs i
  cached := h.cached
  distinct := h.distinct
  inum_lt := h.inum_lt
  frefs g := by
    by_cases hg : g = f
    · rw [hg, Fs.ftable_setFile_self, href]
    · rw [Fs.ftable_setFile_of_ne _ _ hg, h.frefs g, hG g hg]
  idle g hg0 := by
    by_cases hg : g = f
    · subst hg
      rw [Fs.ftable_setFile_self] at hg0 ⊢
      exact hidle hg0
    · rw [Fs.ftable_setFile_of_ne _ _ hg] at hg0 ⊢
      exact h.idle g hg0
  opened g i hi := by
    by_cases hg : g = f
    · subst hg
      rw [Fs.ftable_setFile_self] at hi
      exact hopened i hi
    · rw [Fs.ftable_setFile_of_ne _ _ hg] at hi
      exact h.opened g i hi
  notDir g htype hw := by
    by_cases hg : g = f
    · subst hg
      rw [Fs.ftable_setFile_self] at htype hw ⊢
      exact hnotDir htype hw
    · rw [Fs.ftable_setFile_of_ne _ _ hg] at htype hw ⊢
      exact h.notDir g htype hw

/-! ### References to files -/

theorem filealloc_spec (h : Tables sb s ino I F) :
    Wp Tolerated filealloc (fun r t => (r = none ∧ t = s) ∨ ∃ f, r = some f ∧ Tables sb t ino I (f ::ₘ F) ∧
      t.store = s.store ∧ t.itable = s.itable ∧ t.proc = s.proc ∧ (t.ftable f).type = .none) s := by
  rcases hfind : (List.finRange NFILE).find? fun f => (s.ftable f).ref == 0 with _ | f
  · have hret : filealloc s = (.ok none, s) := by simp only [filealloc, hfind]
    exact .of_returns hret (Or.inl ⟨rfl, rfl⟩)
  · have hret : filealloc s = (.ok (some f), s.setFile f { s.ftable f with ref := 1 }) := by simp only [filealloc, hfind]
    have hzero : (s.ftable f).ref = 0 := by simpa using List.find?_some hfind
    have hnone := h.idle f hzero
    refine .of_returns hret (Or.inr ⟨f, rfl, ?_, rfl, rfl, rfl, by simpa using hnone⟩)
    have hcount : F.count f = 0 := by
      have := h.frefs f
      omega
    refine h.setFile rfl ?_ (fun g hg => Multiset.count_cons_of_ne hg _) (by rintro ⟨⟩) (fun i hi => h.opened f i hi) fun hinode => ?_
    · rw [Multiset.count_cons_self, hcount]
      rfl
    · exact absurd (hnone.symm.trans hinode) (by rintro ⟨⟩)

theorem filedup_spec (h : Tables sb s ino I F) :
    Wp Tolerated (filedup f) (fun _ t => Tables sb t ino I (f ::ₘ F) ∧ t.store = s.store ∧ t.proc = s.proc) s := by
  refine file_bind (.ite (fun _ => .halt (by simp [Tolerated])) fun hpos => .liftState ⟨?_, rfl, rfl⟩)
  have href : (s.ftable f).ref + 1 = (f ::ₘ F).count f := by
    rw [Multiset.count_cons_self, h.frefs f]
    rfl
  refine h.setFile rfl href (fun g hg => Multiset.count_cons_of_ne hg _) (fun hzero => ?_) (fun i hi => h.opened f i hi)
    (h.notDir f)
  have hzero' : (s.ftable f).ref + 1 = 0 := hzero
  omega

/-- A file that refers to nothing yet is closed within an operation. -/
theorem fileclose_unused_spec (h : Inv sb s (s.vol sb) I (f ::ₘ F)) (hnone : (s.ftable f).type = .none) :
    Wp Tolerated (fileclose sb f) (fun _ t => Inv sb t (t.vol sb) I F ∧ t.itable = s.itable ∧ t.proc = s.proc) s := by
  have hcount : (s.ftable f).ref - 1 = F.count f := by
    rw [h.tables.frefs f, Multiset.count_cons_self]
    simp
  have hG : ∀ g, g ≠ f → F.count g = (f ::ₘ F).count g := fun g hg => (Multiset.count_cons_of_ne hg _).symm
  have hinode : (s.ftable f).inode? = none := if_pos hnone
  refine file_bind (.ite (fun _ => .halt (by simp [Tolerated])) fun hpos => .ite (fun hmore => ?_) fun hlast => ?_)
  · refine .liftState ⟨⟨h.log, h.ok, ?_⟩, rfl, rfl⟩
    exact h.tables.setFile rfl hcount hG (fun _ => hnone) (fun i hi => h.tables.opened f i hi) (h.tables.notDir f)
  · refine modifyFile_bind (.onlyIf (fun hopen => ?_) fun _ => ⟨⟨h.log, h.ok, ?_⟩, rfl, rfl⟩)
    · rcases hopen with hopen | hopen
      · exact absurd (hnone.symm.trans hopen) (by rintro ⟨⟩)
      · exact absurd (hnone.symm.trans hopen) (by rintro ⟨⟩)
    · have hzero : (0 : Int) = F.count f := by omega
      exact h.tables.setFile (by rw [hinode]; rfl) hzero hG (fun _ => rfl) (by rintro _ ⟨⟩) (by rintro ⟨⟩)

theorem fileclose_spec (hsb : sb.Ordered) (h : Between sb s I (f ::ₘ F)) :
    Wp Tolerated (fileclose sb f) (fun _ t => Between sb t I F ∧ t.proc = s.proc) s := by
  have hcount : (s.ftable f).ref - 1 = F.count f := by
    rw [h.tables.frefs f, Multiset.count_cons_self]
    simp
  have hG : ∀ g, g ≠ f → F.count g = (f ::ₘ F).count g := fun g hg => (Multiset.count_cons_of_ne hg _).symm
  refine file_bind (.ite (fun _ => .halt (by simp [Tolerated])) fun hpos => .ite (fun hmore => ?_) fun hlast => ?_)
  · refine .liftState ⟨⟨h.quiet, h.ok, ?_⟩, rfl⟩
    have hne : (s.ftable f).ref - 1 ≠ 0 := hmore.ne'
    exact h.tables.setFile rfl hcount hG (fun hzero => absurd hzero hne) (fun i hi => h.tables.opened f i hi)
      (h.tables.notDir f)
  · let s' := s.setFile f { s.ftable f with ref := 0, type := .none }
    have hzero : (0 : Int) = F.count f := by omega
    have hclosed : Tables sb s' (s.vol sb).dinode (I + token (s.ftable f).inode?) F :=
      h.tables.setFile (Multiset.add_zero _) hzero hG (fun _ => rfl) (by rintro _ ⟨⟩) (by rintro ⟨⟩)
    have hs' : Between sb s' (I + token (s.ftable f).inode?) F := ⟨h.quiet, h.ok, hclosed⟩
    refine modifyFile_bind (.onlyIf (fun hopen => ?_) fun hclosed => ?_)
    · have hip : (s.ftable f).inode? = some (s.ftable f).ip := inode?_of_ne (by rcases hopen with h | h <;> rw [h] <;> rintro ⟨⟩)
      rw [hip, token_some, Multiset.add_comm, Multiset.singleton_add] at hs'
      refine beginOp_bind hs' fun store ht => .bind (iput_spec hsb ht) fun _ u hu => ?_
      exact (endOp_spec' hsb hu.1).mono fun _ v hv => ⟨hv.1, hv.2.2.2.trans hu.2.proc⟩
    · have hnone : (s.ftable f).inode? = none := by
        rw [not_or] at hclosed
        cases htype : (s.ftable f).type with
        | none => exact if_pos htype
        | inode => exact absurd htype hclosed.1
        | device => exact absurd htype hclosed.2
      rw [hnone, token_none, Multiset.add_zero] at hs'
      exact ⟨hs', rfl⟩

end LabSO.Kernel
