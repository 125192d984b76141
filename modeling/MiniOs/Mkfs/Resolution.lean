import MiniOs.Mkfs.Failures

/-!
# Two ways to resolve a block

`resolve_block` reads the pointer at the place of a logical block.  `resolve_or_alloc` goes by
the end of the file for the direct blocks and by pointers that are not 0 for the others, and
may fill the way to the block.  On a file system as `mkfs` leaves it a block is mapped when it
lies below the end, and there the two agree.  What the second one adds past the end is
described by the pointers it changes: they lie on the way to the block, were 0, and name blocks
that were free.
-/

namespace MiniOs.Ktfs

open Fallible (exec exec_bind_ok exec_bind_error exec_readBlock)
open Function (update_of_ne update_self)

variable {g : Geom} {N : Nat} {D : Scope} {T : Nat → Inode} {s s' : Nat → Blk} {ino ino' : Inode}
  {b : UInt32} {i k l : Nat} {p q : Place}

/-! ## The way to a block -/

theorem ptr_parent_ne (hp : p.parent = some (q, k)) (h : ptr g s ino p ≠ 0) :
    ptr g s ino q ≠ 0 := by
  intro h0
  rw [ptr_child hp, h0, entry_zero] at h
  exact h rfl

/-- The pages on the way to a block that is there are there. -/
theorem Place.Leads.ptr_ne (h : ptr g s ino (.data l) ≠ 0) :
    ∀ {p : Place}, p.Leads l → ptr g s ino p ≠ 0
  | .data _, rfl => h
  | .ind, hp => ptr_parent_ne (Place.parent_indirect (by have := hp.1; omega) hp.2) h
  | .inner _ _, ⟨hl, rfl, rfl⟩ => ptr_parent_ne (Place.parent_dindirect (by omega)) h
  | .dind _, ⟨hl, rfl⟩ =>
    ptr_parent_ne (p := .inner _ _) rfl (ptr_parent_ne (Place.parent_dindirect (by omega)) h)

/-- One entry of a page on the way leads on. -/
theorem Place.Leads.child (hq : q.IsPage) (h : q.Leads l) (hl : l < 32899) :
    ∃ k < 128, (q.child k).Leads l ∧
      ∀ j < 128, (q.child j).parent = some (q, j) ∧ ((q.child j).Leads l → j = k) := by
  cases q with
  | data l' => exact hq.elim
  | ind =>
    refine ⟨l - 3, ?_, ?_, fun j hj => ⟨?_, ?_⟩⟩ <;> simp only [Leads, Place.child, parent] at *
    · omega
    · omega
    · rw [if_neg (by omega), if_pos (by omega), Nat.add_sub_cancel_left]
    · omega
  | dind o => exact ⟨_, by omega, ⟨h.1, h.2, rfl⟩, fun j _ => ⟨rfl, fun hj => hj.2.2⟩⟩
  | inner o k =>
    refine ⟨(l - 131) % 128, ?_, ?_, fun j hj => ⟨?_, ?_⟩⟩ <;>
      simp only [Leads, Place.child, parent] at *
    · omega
    · omega
    · rw [if_neg (by omega), if_neg (by omega)]
      simp only [Option.some.injEq, Prod.mk.injEq, inner.injEq]
      omega
    · omega

/-- `resolve_block` of a block that is owned. -/
theorem Owned.exec_resolveBlock_live (ok : GeomOk g N) (h : Owned g D T s)
    (hx : (i, .data l) ∈ Live g D T s) (hl : l < 32899) :
    exec (inRange N) (resolveBlock g (T i) l) s = (.ok (ptr g s (T i) (.data l)), s) := by
  have hraw : rawPtr g s (T i) (.data l) = ptr g s (T i) (.data l) := by
    by_cases hz : ptr g s (T i) (.data l) = 0
    · cases hx.2.1.resolve_left (not_not.mpr hz)
      rfl
    · exact rawPtr_of_ne hz
  rw [← hraw]
  refine exec_resolveBlock_leads hl fun q hq hlead => ?_
  have hne : ptr g s (T i) q ≠ 0 := by
    refine hlead.ptr_ne (ptr_ne_zero hx fun heq => ?_)
    cases heq
    cases q <;> simp only [Place.Leads, Place.IsPage] at hq hlead <;> omega
  rw [rawPtr_of_ne hne]
  exact ok.inRange_data (h.usedPtr_page hx.1 hq hne).1

/-- `resolve_or_alloc` of a block that is not there, when it is not to allocate. -/
theorem Owned.exec_resolveOrAlloc_none (ok : GeomOk g N) (h : Owned g D T s) (hi : i ∈ D.inodes)
    (hl : l < 32899) (hnb : (T i).nblks ≤ l) (hz : ptr g s (T i) (.data l) = 0) :
    exec (inRange N) (resolveOrAlloc g (T i) l false) s = (.error (-EINVAL), s) := by
  have hpage : ∀ {page : UInt32}, page = 0 →
      exec (inRange N) (pageOrAlloc g page false) s = (.error (-EINVAL), s) := by
    rintro _ rfl
    rfl
  have hentry : ∀ {p q k}, p.parent = some (q, k) → ptr g s (T i) q ≠ 0 → ptr g s (T i) p = 0 →
      exec (inRange N) (entryOrAlloc g (ptr g s (T i) q) k false) s = (.error (-EINVAL), s) := by
    intro p q k hp hq h0
    have hr := ok.inRange_data (h.usedPtr_page hi (Place.isPage_of_parent hp) hq).1
    rw [ptr_child hp, entry_of_ne hq, rawEntry] at h0
    rw [entryOrAlloc, Fallible.exec_withBlock _ _ hr, Prog.run_load_bind, if_neg (not_not.mpr h0)]
    rfl
  by_cases hl3 : l < 3
  · unfold resolveOrAlloc
    simp only [nblks_eq (h.max i hi), if_pos hl3, if_neg (Nat.not_lt.mpr hnb)]
    rfl
  by_cases hl' : l < 131
  · rw [resolveOrAlloc_eq_indirect _ hl3 hl']
    by_cases h0 : (T i).top .ind = 0
    · exact exec_bind_error _ _ (hpage h0)
    · rw [exec_bind_ok _ _ (exec_pageOrAlloc_ne h0 false s)]
      exact exec_bind_error _ _ (hentry (Place.parent_indirect hl3 hl') h0 hz)
  · obtain ⟨o, ho⟩ : ∃ o, o = (l - 131) / 16384 := ⟨_, rfl⟩
    obtain ⟨k, hk⟩ : ∃ k, k = (l - 131) % 16384 / 128 := ⟨_, rfl⟩
    have hpar := Place.parent_dindirect hl'
    rw [← ho, ← hk] at hpar
    rw [resolveOrAlloc_eq_dindirect _ hl' hl ho hk]
    by_cases h0 : (T i).top (.dind o) = 0
    · exact exec_bind_error _ _ (hpage h0)
    rw [exec_bind_ok _ _ (exec_pageOrAlloc_ne h0 false s), Inode.setTop_self]
    by_cases h1 : ptr g s (T i) (.inner o k) = 0
    · exact exec_bind_error _ _ (hentry (p := .inner o k) (q := .dind o) rfl h0 h1)
    have hread : rawEntry g s ((T i).top (.dind o)) k = ptr g s (T i) (.inner o k) := by
      rw [ptr_child (q := .dind o) (k := k) rfl, ptr_top rfl, entry_of_ne h0]
    have hr := ok.inRange_data (h.usedPtr_page hi (q := .dind o) trivial h0).1
    rw [ptr_top rfl] at hr
    rw [exec_bind_ok _ _ (exec_entryOrAlloc_ne hr (hread ▸ h1) false),
      exec_bind_ok _ _ (exec_readBlock _ _ hr _ _)]
    exact exec_bind_error _ _ (by rw [← rawEntry, hread]; exact hentry hpar h1 hz)

/-! ## What is added -/

/-- The place has got a block. -/
def Gained (g : Geom) (s : Nat → Blk) (ino : Inode) (s' : Nat → Blk) (ino' : Inode) (p : Place) :
    Prop :=
  ptr g s ino p = 0 ∧ ptr g s' ino' p ≠ 0

/-- What `resolve_or_alloc` leaves when it has returned block `b` for a logical block `l` that
was not mapped. -/
structure Extended (N : Nat) (g : Geom) (s : Nat → Blk) (ino : Inode) (l : Nat) (b : UInt32)
    (s' : Nat → Blk) (ino' : Inode) : Prop where
  block : exec (inRange N) (resolveBlock g ino' l) s' = (.ok b, s')
  others : ∀ l' < ino.nblks, ∃ b', exec (inRange N) (resolveBlock g ino l') s = (.ok b', s) ∧
    exec (inRange N) (resolveBlock g ino' l') s' = (.ok b', s')
  gained : Gained g s ino s' ino' (.data l) ∧ ptr g s' ino' (.data l) = b
  /-- Everything else that is new are index pages. -/
  only : ∀ p, Gained g s ino s' ino' p → p = .data l ∨ p.IsPage
  fresh : ∀ p, Gained g s ino s' ino' p →
    used s (dataBlkToPos g (ptr g s' ino' p)) = false ∧ UsedPtr g s' (ptr g s' ino' p)
  once : ∀ p q, Gained g s ino s' ino' p → Gained g s ino s' ino' q →
    ptr g s' ino' p = ptr g s' ino' q → p = q
  /-- A new page holds one entry, to a block that is new as well. -/
  pages : ∀ q : Place, q.IsPage → Gained g s ino s' ino' q → ∃ k < 128,
    Gained g s ino s' ino' (q.child k) ∧ ∀ j < 128, rawEntry g s' (ptr g s' ino' q) j =
      if j = k then ptr g s' ino' (q.child k) else 0

section Other

variable (hother : ∀ p : Place, ¬ p.Leads l → ptr g s' ino' p = ptr g s ino p)

include hother

theorem Gained.leads (h : Gained g s ino s' ino' p) : p.Leads l := by
  by_contra hp
  exact h.2 ((hother p hp).trans h.1)

theorem Gained.eq_data_or_page (h : Gained g s ino s' ino' p) : p = .data l ∨ p.IsPage := by
  have hp := h.leads hother
  cases p with
  | data l' => exact .inl (congrArg _ hp)
  | _ => exact .inr trivial

/-- The entries of a new page. -/
theorem Gained.page (hl : l < 32899) (hne : ptr g s' ino' (.data l) ≠ 0) (hq : q.IsPage)
    (h : Gained g s ino s' ino' q) : ∃ k < 128, Gained g s ino s' ino' (q.child k) ∧
      ∀ j < 128, rawEntry g s' (ptr g s' ino' q) j =
        if j = k then ptr g s' ino' (q.child k) else 0 := by
  obtain ⟨k, hk, hlead, hall⟩ := (h.leads hother).child hq hl
  -- there was no page, so there was no entry
  have hnone : ∀ j < 128, ptr g s ino (q.child j) = 0 := fun j hj => by
    rw [ptr_child (hall j hj).1, h.1, entry_zero]
  refine ⟨k, hk, ⟨hnone k hk, hlead.ptr_ne hne⟩, fun j hj => ?_⟩
  rw [← entry_of_ne h.2, ← ptr_child (hall j hj).1]
  split_ifs with hjk
  · rw [hjk]
  · rw [hother _ fun hj' => hjk ((hall j hj).2 hj'), hnone j hj]

end Other

theorem exec_resolveBlock_direct (hl : l < 3) :
    exec (inRange N) (resolveBlock g ino l) s = (.ok (ptr g s ino (.data l)), s) := by
  rw [ptr_top (Place.parent_direct hl)]
  unfold resolveBlock
  simp only [if_pos hl]
  rfl

/-- A direct block past the end is added. -/
theorem Owned.extended_direct (ok : GeomOk g N) (h : Owned g D T s) (hi : i ∈ D.inodes)
    (hl : l < 3) (hnb : (T i).nblks ≤ l) (hz : ptr g s (T i) (.data l) = 0)
    (heq : exec (inRange N) (resolveOrAlloc g (T i) l true) s = (.ok (b, ino'), s')) :
    Extended N g s (T i) l b s' ino' := by
  obtain ⟨ha, -⟩ | ⟨v, hv, hfree, ha⟩ := exec_allocDataBlock ok
    (show ([] : List Nat).length < cacheNent by decide) s <;>
    rw [exec_resolveOrAlloc_fresh hl (by omega) ha] at heq
  · cases heq
  obtain ⟨⟨rfl, hino⟩, rfl⟩ : (v = b ∧ _ = ino') ∧ allocated g s v = s' := by
    simpa only [Except.map, Prod.mk.injEq, Except.ok.injEq] using heq
  have hne : v ≠ 0 := (h.alloc ok hv hfree).2.ne
  have hptr : ∀ p, ptr g (allocated g s v) ino' p = Function.update (ptr g s (T i)) (.data l) v p := by
    intro p
    have htop : ∀ p', ino'.top p' = ((T i).setTop (.data l) v).top p' := by
      subst hino
      intro p'
      cases p' <;> rfl
    rw [ptr_congr_top htop, ptr_setTop (p := .data l) hl fun hq => hq.elim]
    congr 1
    exact funext (h.ptr_allocated ok hv hfree i hi)
  have hother : ∀ p : Place, ¬ p.Leads l → ptr g (allocated g s v) ino' p = ptr g s (T i) p := by
    intro p hp
    rw [hptr, update_of_ne]
    rintro rfl
    exact hp rfl
  have hself := (hptr (.data l)).trans (update_self ..)
  rw [← hself] at hne
  have hdata : ∀ {p}, Gained g s (T i) (allocated g s v) ino' p → p = .data l := by
    intro p hp
    have hlead := hp.leads hother
    cases p <;> simp only [Place.Leads] at hlead
    · rw [hlead]
    all_goals omega
  refine ⟨?_, fun l' hl' => ⟨_, exec_resolveBlock_direct (by omega), ?_⟩, ⟨⟨hz, hne⟩, hself⟩,
    fun p hp => .inl (hdata hp), fun p hp => ?_, fun p q hp hq _ => (hdata hp).trans (hdata hq).symm,
    fun q hq hg => hg.page hother (by omega) hne hq⟩
  · rw [exec_resolveBlock_direct hl, hself]
  · rw [exec_resolveBlock_direct (by omega), hother (.data l') (show ¬ l' = l by omega)]
  · rw [hdata hp, hself]
    exact ⟨hfree, usedPtr_allocated_self ok hv⟩

/-- A block of an index page is added, on a disk whose used blocks all belong to files. -/
theorem Owned.extended_entry (ok : GeomOk g N) (h : Owned g D T s) (hi : i ∈ D.inodes)
    (hl3 : 3 ≤ l) (hl : l < 32899) (hsp : D.spare i l) (hnb : (T i).nblks ≤ l)
    (hz : ptr g s (T i) (.data l) = 0)
    (hexact : ∀ v, UsedPtr g s v → ∃ x ∈ Live g D T s, ptr g s (T x.1) x.2 = v)
    (heq : exec (inRange N) (resolveOrAlloc g (T i) l true) s = (.ok (b, ino'), s')) :
    Extended N g s (T i) l b s' ino' := by
  obtain ⟨r, s1, ino1, hexec, hres, -⟩ := resolveOrAlloc_owned ok h hi (l := l)
    (fun hlt => by omega) fun _ => hsp
  cases hexec.symm.trans heq
  obtain ⟨rfl, hlive, hb, -⟩ := hres.ok b ino' rfl
  have h' := hres.owned
  have hT : Function.update T i ino' i = ino' := update_self ..
  have hne : ptr g s' ino' (.data l) ≠ 0 := by
    have hne := Owned.ptr_ne_zero hlive fun heq => by
      cases heq
      omega
    rwa [hT] at hne
  have hlive' : ∀ {p}, Gained g s (T i) s' ino' p → (i, p) ∈ Live g D (Function.update T i ino') s' := by
    intro p hp
    refine ⟨hi, .inl (by rw [hT]; exact hp.2), ?_⟩
    rcases hp.eq_data_or_page hres.other with rfl | hpage
    · exact hlive.2.2
    · exact .inl hpage
  refine ⟨?_, fun l' hl' => ?_, ⟨⟨hz, hne⟩, hb⟩, fun p hp => hp.eq_data_or_page hres.other,
    fun p hp => ?_, fun p q hp hq heq => ?_,
    fun q hq hg => hg.page hres.other hl hne hq⟩
  · have hblock := h'.exec_resolveBlock_live ok hlive hl
    rwa [hT, hb] at hblock
  · have hlt := h.max i hi
    have hx := h.within i hi (.data l') ⟨hl', by omega⟩
    obtain ⟨hx', hptr⟩ := hres.grows.live i _ hx
    have hafter := h'.exec_resolveBlock_live ok hx' (by omega)
    rw [hptr, hT] at hafter
    exact ⟨_, h.exec_resolveBlock_live ok hx (by omega), hafter⟩
  · have hused := h'.usedPtr (hlive' hp)
    rw [hT] at hused
    refine ⟨Bool.eq_false_iff.mpr fun hbit => ?_, hused⟩
    -- a block that was in use has kept its place
    obtain ⟨⟨j, q⟩, hx, hv⟩ := hexact _ ⟨hused.1, hbit⟩
    obtain ⟨hx', hptr⟩ := hres.grows.live j q hx
    cases h'.excl.injOn hx' (hlive' hp) (by
      show ptr g s' (Function.update T i ino' j) q = ptr g s' (Function.update T i ino' i) p
      rw [hptr, hv, hT])
    refine hx.2.1.elim (fun hne => hne hp.1) fun heq => ?_
    rcases hp.eq_data_or_page hres.other with rfl | hpage
    · cases heq
      omega
    · rw [(Prod.mk.inj heq).2] at hpage
      exact hpage
  · refine (Prod.mk.inj (h'.excl.injOn (hlive' hp) (hlive' hq) ?_)).2
    simp only [hT]
    exact heq

end MiniOs.Ktfs

namespace MiniOs.Mkfs

open Ktfs Fallible

variable {s : Nat → Blk} {N : Nat} {g : Geom} {i l : Nat}

/-- The two ways to resolve logical block `l` of an inode agree. -/
structure Agrees (N : Nat) (g : Geom) (s : Nat → Blk) (ino : Inode) (l : Nat) : Prop where
  mapped : l < ino.nblks → ∃ b, exec (inRange N) (resolveBlock g ino l) s = (.ok b, s) ∧
    ∀ alloc, exec (inRange N) (resolveOrAlloc g ino l alloc) s = (.ok (b, ino), s)
  refused : ino.nblks ≤ l →
    exec (inRange N) (resolveOrAlloc g ino l false) s = (.error (-EINVAL), s)
  added : ino.nblks ≤ l → ∀ b ino' s',
    exec (inRange N) (resolveOrAlloc g ino l true) s = (.ok (b, ino'), s') →
      Extended N g s ino l b s' ino'

theorem ptr_inode_zero (p : Place) : ptr g s Inode.zero p = 0 := by
  induction p using Place.parentInduction with
  | top p hp =>
    rw [ptr_top hp]
    cases p <;> simp [Inode.top, Inode.zero, Inode.direct, Inode.dind]
  | child p q k hp ih => rw [ptr_child hp, ih, entry_zero]

/-- The root and the files, and an inode that names no block. -/
def scopeWith (g : Geom) (s : Nat → Blk) (i : Nat) : Scope :=
  ⟨insert i {j | Named g s j}, fun _ _ => True, ∅⟩

namespace WellFormed

variable (hi : Named g s i ∨ i < inodeCount g ∧ inodeAt g s i = Inode.zero)

include hi

theorem live_scopeWith :
    Live g (scopeWith g s i) (inodeAt g s) s = Live g (namedScope g s) (inodeAt g s) s := by
  ext ⟨j, p⟩
  refine ⟨fun hx => ⟨?_, hx.2⟩, fun hx => ⟨.inr hx.1, hx.2⟩⟩
  rcases hx.1 with rfl | hj
  · refine hi.elim id fun hz => hx.2.1.elim (fun hne => ?_) fun heq => .inl (Prod.mk.inj heq).1
    exact absurd (by rw [hz.2]; exact ptr_inode_zero p) hne
  · exact hj

variable (h : WellFormed N g s)

include h

theorem owned_scopeWith : Owned g (scopeWith g s i) (inodeAt g s) s := by
  have ho := h.owned
  have hnone : ∀ {p : Place}, ¬ Named g s i → ¬ p.Within (inodeAt g s i).nblks := fun hn => by
    rw [(hi.resolve_left hn).2]
    exact Place.not_within_zero
  refine ⟨?_, ?_, ?_, ?_, ho.zero, fun _ hv => hv.elim⟩
  · rintro j (rfl | hj)
    · exact hi.elim (h.range j) And.left
    · exact h.range j hj
  · rintro j (rfl | hj)
    · exact hi.elim (h.max j) fun hz => by rw [hz.2]; decide
    · exact h.max j hj
  · rw [live_scopeWith hi]
    rintro j (rfl | hj) p hp
    · exact ho.within j (by_contra fun hn => hnone hn hp) p hp
    · exact ho.within j hj p hp
  · rw [live_scopeWith hi]
    exact ho.excl

/-- The blocks in use belong to the root and the files. -/
theorem exact_scopeWith (v : UInt32) (hv : UsedPtr g s v) :
    ∃ x ∈ Live g (scopeWith g s i) (inodeAt g s) s, ptr g s (inodeAt g s x.1) x.2 = v := by
  have hpos := h.geom.dataBlkToPos_eq hv.1
  have hlt := h.geom.dataBlkToPos_lt hv.1
  have hbits := h.geom.bits
  rcases (h.bitmap.marked _ (by omega)).mp hv.2 with hmeta | ⟨j, p, hr, heq⟩
  · omega
  rw [(h.whole.linked j hr.1).rawPtr_eq hr.2] at heq
  rw [live_scopeWith hi]
  exact ⟨(j, p), h.owned.within j hr.1 p hr.2, UInt32.toNat_inj.mp (by dsimp only; omega)⟩

/-- `resolve_or_alloc` and `resolve_block` agree on every inode, be it the root's, a file's or a
free one, and every logical block. -/
theorem resolve_agree (hl : l < 32899) : Agrees N g s (inodeAt g s i) l := by
  have ho := owned_scopeWith hi h
  have hmem : i ∈ (scopeWith g s i).inodes := .inl rfl
  have hpast : (inodeAt g s i).nblks ≤ l → ptr g s (inodeAt g s i) (.data l) = 0 := by
    intro hnb
    refine hi.elim (fun hn => h.past i hn _ fun hw => ?_) fun hz => by rw [hz.2, ptr_inode_zero]
    exact absurd hw.1 (by omega)
  refine ⟨fun hlt => ⟨_, ?_, fun alloc => (ho.linked hmem).exec_resolveOrAlloc h.geom hlt alloc⟩,
    fun hnb => ho.exec_resolveOrAlloc_none h.geom hmem hl hnb (hpast hnb), fun hnb b ino' s' heq => ?_⟩
  · rw [exec_resolveBlock (ho.readable h.geom hmem) hlt, ho.rawPtr_eq hmem (p := .data l) ⟨hlt, hl⟩]
  · by_cases hl3 : l < 3
    · exact ho.extended_direct h.geom hmem hl3 hnb (hpast hnb) heq
    · exact ho.extended_entry h.geom hmem (by omega) hl trivial hnb (hpast hnb)
        (exact_scopeWith hi h) heq

end WellFormed

/-- A block that the root has and one that takes an index page. -/
theorem resolve_agree_twoFiles : WellFormed 8 (geomOf (twoFiles 0)) twoFiles ∧
    Agrees 8 (geomOf (twoFiles 0)) twoFiles
      (inodeAt (geomOf (twoFiles 0)) twoFiles (geomOf (twoFiles 0)).rootInodeIdx) 0 ∧
    Agrees 8 (geomOf (twoFiles 0)) twoFiles
      (inodeAt (geomOf (twoFiles 0)) twoFiles (geomOf (twoFiles 0)).rootInodeIdx) 3 := by
  obtain ⟨-, -, -, -, h⟩ := mount_twoFiles
  exact ⟨h, WellFormed.resolve_agree (.inl (.inl rfl)) h (by decide),
    WellFormed.resolve_agree (.inl (.inl rfl)) h (by decide)⟩

end MiniOs.Mkfs
