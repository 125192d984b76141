import MiniOs.Ktfs.Ownership

/-!
# Resolving logical blocks

`resolve_block` and `resolve_or_alloc` read the pointers of a file, and the second one
links new blocks where it finds 0.  Both are described by what they do to the places of
the inode: where a file owns its blocks, resolving a block below its end returns the
pointer at its place, and allocating keeps ownership whatever happens, also when the disk
is full half way through.
-/

namespace MiniOs.Ktfs

open Fallible (exec exec_bind_ok exec_bind_error exec_readBlock)
open Function (update_of_ne update_self update_eq_self)

variable {g : Geom} {N : Nat} {D : Scope} {T T' : Nat → Inode} {s s' : Nat → Blk}
  {page v : UInt32} {i k l : Nat} {p q : Place} {r : Except Int UInt32}

/-! ## Linking a place -/

/-- One place of one inode gets another pointer. -/
theorem ptr_link {j : Nat} {p' : Place}
    (hi : ∀ p', ptr g s' (T' i) p' = Function.update (ptr g s (T i)) p v p')
    (hj : j ≠ i → ptr g s' (T' j) p' = ptr g s (T j) p') :
    ptr g s' (T' j) p' = if (j, p') = (i, p) then v else ptr g s (T j) p' := by
  by_cases hji : j = i
  · subst hji
    rw [hi]
    by_cases hpp : p' = p
    · rw [hpp, update_self, if_pos rfl]
    · rw [update_of_ne hpp, if_neg fun h => hpp (Prod.mk.inj h).2]
  · rw [hj hji, if_neg fun h => hji (Prod.mk.inj h).1]

/-- A pointer of the inode is set to a fresh block.  The end may move over the new
block. -/
theorem Owned.linkTop (h : Owned g D T s) (hv : Fresh g D T s v)
    (hi : i ∈ D.inodes) (hp : p.InInode) (hdead : (i, p) ∉ Live g D T s)
    (hpage : p.IsPage → (T i).top p = 0) (ino : Inode)
    (htop : ∀ p', ino.top p' = ((T i).setTop p v).top p') (hnb : (T i).nblks ≤ ino.nblks)
    (hnb' : ∀ p' : Place, p' ≠ p → (p'.Within ino.nblks ↔ p'.Within (T i).nblks))
    (hmax : ino.nblks ≤ 32899) (W : Set (Nat × Nat)) :
    Owned g D (Function.update T i ino) s ∧ Grows g D W T s (Function.update T i ino) s ∧
      (T i).Ext ino ∧ ∀ p', ptr g s ino p' = Function.update (ptr g s (T i)) p v p' := by
  have hptri : ∀ p', ptr g s ino p' = Function.update (ptr g s (T i)) p v p' := by
    intro p'
    rw [ptr_congr_top htop]
    exact ptr_setTop hp (fun hq => ⟨hpage hq, hv.empty⟩) p'
  have hptr : ∀ j ∈ D.inodes, ∀ p', ptr g s (Function.update T i ino j) p' =
      if (j, p') = (i, p) then v else ptr g s (T j) p' := fun j _ p' =>
    ptr_link (by rwa [update_self]) fun hji => by rw [update_of_ne hji]
  refine ⟨?_, ⟨?_, fun _ _ _ _ => rfl, fun _ _ _ => rfl⟩, ?_, hptri⟩
  · refine h.link hv hi hptr ?_ ?_ ?_ fun _ h => h
    · intro j _ hji
      rw [update_of_ne hji]
    · rw [update_self]
      exact hnb'
    · rw [update_self]
      exact hmax
  · intro j p' hx
    have hne : (j, p') ≠ (i, p) := by
      intro heq
      rw [heq] at hx
      exact hdead hx
    have hpp := hptr j hx.1 p'
    rw [if_neg hne] at hpp
    refine ⟨⟨hx.1, by rw [hpp]; exact hx.2.1, ?_⟩, hpp⟩
    rcases hx.2.2 with hc | hc | hc
    · exact .inl hc
    · refine .inr (.inl ?_)
      by_cases hji : j = i
      · subst hji
        rw [update_self]
        exact hc.mono hnb
      · rw [update_of_ne hji]
        exact hc
    · exact .inr (.inr hc)
  · refine ⟨hnb, ?_, ?_⟩
    · intro p' hp' hne
      have hpp : p' ≠ p := by
        rintro rfl
        exact hne (hpage hp')
      rw [htop, Inode.top_setTop hp, update_of_ne hpp]
    · intro l hl hlt
      have hpp : Place.data l ≠ p := by
        rintro rfl
        have := h.max i hi
        exact hdead (h.within i hi _ ⟨hlt, by omega⟩)
      have := htop (.data l)
      rwa [Inode.top_setTop hp, update_of_ne hpp] at this

/-- An entry of a page that is 0 is set to a fresh block. -/
theorem Owned.linkEntry (ok : GeomOk g N) (h : Owned g D T s)
    (hv : Fresh g D T s v) (hi : i ∈ D.inodes)
    (hp : p.parent = some (q, k)) (hk : k < 128) (hq : ptr g s (T i) q ≠ 0)
    (hzero : ptr g s (T i) p = 0) (W : Set (Nat × Nat))
    (hs' : s' = Function.update s (dataBlkToPos g (ptr g s (T i) q))
      ((s (dataBlkToPos g (ptr g s (T i) q))).setWord k v)) :
    Owned g D T s' ∧ Grows g D W T s T s' ∧
      ∀ p', ptr g s' (T i) p' = Function.update (ptr g s (T i)) p v p' := by
  have hpage := Place.isPage_of_parent hp
  have hlq : (i, q) ∈ Live g D T s := Owned.live_page hi hpage hq
  have huq := h.usedPtr hlq
  have hne : ∀ w, w ≠ ptr g s (T i) q → dataBlkToPos g w ≠ dataBlkToPos g (ptr g s (T i) q) :=
    fun w hne heq => hne (dataBlkToPos_inj heq)
  have hpi : ∀ p', ptr g s' (T i) p' = Function.update (ptr g s (T i)) p v p' := by
    refine ptr_setEntry hp hk hq hzero ?_ ?_ (fun _ => hv.empty) hs'
    · intro q' hq' hqq hne'
      have hl' : (i, q') ∈ Live g D T s := Owned.live_page hi hq' hne'
      exact hne _ (h.excl.ne_of_ne hl' hlq fun heq => hqq (Prod.mk.inj heq).2)
    · exact hne v (hv.live _ hlq).symm
  have hptr : ∀ j ∈ D.inodes, ∀ p', ptr g s' (T j) p' =
      if (j, p') = (i, p) then v else ptr g s (T j) p' := by
    intro j hj p'
    refine ptr_link hpi fun hji => ptr_congr (fun q' hq' hne' => ?_) p'
    have hl' : (j, q') ∈ Live g D T s := Owned.live_page hj hq' hne'
    rw [hs']
    exact update_of_ne
      (hne _ (h.excl.ne_of_ne hl' hlq fun heq => hji (Prod.mk.inj heq).1)) _ _
  have hused : ∀ w, UsedPtr g s w → UsedPtr g s' w := by
    intro w hw
    rw [hs']
    exact (usedPtr_update_data ok huq.1 _).mpr hw
  refine ⟨h.link hv hi hptr (fun _ _ _ => rfl) (fun _ _ => Iff.rfl) (h.max i hi) hused,
    ⟨?_, ?_, ?_⟩, hpi⟩
  · intro j p' hx
    have hne' : (j, p') ≠ (i, p) := by
      rintro heq
      cases heq
      refine hx.2.1.elim (fun hn => hn hzero) fun heq => ?_
      rw [(Prod.mk.inj heq).2] at hp
      cases hp
    have hpp := hptr j hx.1 p'
    rw [if_neg hne'] at hpp
    exact ⟨⟨hx.1, by rw [hpp]; exact hx.2.1, hx.2.2⟩, hpp⟩
  · intro j l hx _
    rw [hs']
    refine update_of_ne (hne _ (h.excl.ne_of_ne hx hlq ?_)) _ _
    intro heq
    rw [← (Prod.mk.inj heq).2] at hpage
    exact hpage
  · intro b _ hb
    have := (ok.dataBlkToPos_lt huq.1).1
    rw [hs']
    exact update_of_ne (by omega) _ _

/-! ## Entries and pages -/

section

variable (hr : inRange N (dataBlkToPos g page) = true)

include hr

theorem exec_entryOrAlloc_ne (hne : rawEntry g s page k ≠ 0) (alloc : Bool) :
    exec (inRange N) (entryOrAlloc g page k alloc) s = (.ok (rawEntry g s page k), s) := by
  rw [entryOrAlloc, Fallible.exec_withBlock _ _ hr, Prog.run_load_bind]
  rw [rawEntry] at hne
  rw [if_pos hne]
  rfl

theorem exec_entryOrAlloc_zero (h0 : rawEntry g s page k = 0)
    (ha : exec (inRange N) (allocDataBlock g (by simp) : K [dataBlkToPos g page] UInt32) s =
      (r, s')) :
    exec (inRange N) (entryOrAlloc g page k true) s = (r, match r with
      | .error _ => s'
      | .ok v => Function.update s' (dataBlkToPos g page)
          ((s' (dataBlkToPos g page)).setWord k v)) := by
  have ha' : Prog.run (inRange N) (allocDataBlock g (by simp) : K [dataBlkToPos g page] UInt32).run s =
      (r, s') := ha
  rw [entryOrAlloc, Fallible.exec_withBlock _ _ hr, Prog.run_load_bind]
  rw [rawEntry] at h0
  rw [if_neg (not_not.mpr h0)]
  simp only [Bool.not_true, Bool.false_eq_true, if_false, Prog.run_bind, ha']
  cases r <;> rfl

end

/-- What a step that may allocate took.  It fails only when no block is free.  Where it
took none nothing changed, and then it returns only if `hit` holds. -/
structure Spent (g : Geom) (hit : Prop) {α : Type} (r : Except Int α) (s s' : Nat → Blk) :
    Prop where
  taken : ∃ A, Taken g A s s' ∧ (A.Nonempty ∨ s' = s ∧ ∀ a, r = .ok a → hit)
  full : ∀ e, r = .error e → e = -ENOMEM ∧ Full g s'

section

variable {P : Prop} {α β : Type}

/-- The disk is full at the start. -/
theorem Spent.error (h : Full g s) :
    Spent g P (.error (-ENOMEM) : Except Int α) s s :=
  ⟨⟨∅, .refl s, .inr ⟨rfl, fun _ ha => by cases ha⟩⟩, fun _ he => by cases he; exact ⟨rfl, h⟩⟩

/-- Nothing had to be taken. -/
theorem Spent.hit (h : P) (a : α) : Spent g P (.ok a) s s :=
  ⟨⟨∅, .refl s, .inr ⟨rfl, fun _ _ => h⟩⟩, fun _ he => by cases he⟩

/-- A block was taken. -/
theorem Spent.took {A : Set UInt32} (h : Taken g A s s') (hA : A.Nonempty) (a : α) :
    Spent g P (.ok a) s s' :=
  ⟨⟨A, h, .inl hA⟩, fun _ he => by cases he⟩

/-- A step that follows another one. -/
theorem Spent.after (ok : GeomOk g N) {P' : Prop} {s'' : Nat → Blk} {a : α} {r : Except Int β}
    (h : Spent g P (.ok a) s s') (h' : Spent g P' r s' s'')
    {Q : Prop} (himp : P → P' → s' = s → Q) : Spent g Q r s s'' := by
  obtain ⟨A, hA, hn | ⟨hs, hh⟩⟩ := h.taken
  · obtain ⟨A', hA', -⟩ := h'.taken
    exact ⟨⟨A ∪ A', hA.trans hA' ok, .inl (hn.mono Set.subset_union_left)⟩, h'.full⟩
  · obtain ⟨A', hA', hn' | ⟨hs', hh'⟩⟩ := h'.taken
    · exact ⟨⟨A ∪ A', hA.trans hA' ok, .inl (hn'.mono Set.subset_union_right)⟩, h'.full⟩
    · exact ⟨⟨A ∪ A', hA.trans hA' ok, .inr ⟨hs'.trans hs, fun b hb => himp (hh a rfl) (hh' b hb) hs⟩⟩,
        h'.full⟩

theorem Spent.map {r : Except Int α} (h : Spent g P r s s') (f : α → β) :
    Spent g P (r.map f) s s' := by
  obtain ⟨A, hA, hA'⟩ := h.taken
  cases r with
  | error e => exact ⟨⟨A, hA, hA'.imp id fun hs => ⟨hs.1, fun _ ha => by cases ha⟩⟩,
      fun _ he => by cases he; exact h.full e rfl⟩
  | ok a => exact ⟨⟨A, hA, hA'.imp id fun hs => ⟨hs.1, fun _ _ => hs.2 a rfl⟩⟩, fun _ he => by cases he⟩

end

/-- The entry of a page a file has, or a fresh block linked there. -/
theorem entryOrAlloc_owned (ok : GeomOk g N) (h : Owned g D T s) (hi : i ∈ D.inodes)
    (hp : p.parent = some (q, k)) (hk : k < 128) (hq : ptr g s (T i) q ≠ 0) (hc : Counts D T i p) :
    ∃ r s', exec (inRange N) (entryOrAlloc g (ptr g s (T i) q) k true) s = (r, s') ∧
      Owned g D T s' ∧ Grows g D ∅ T s T s' ∧ Spent g (ptr g s (T i) p ≠ 0) r s s' ∧
      (∀ p', p' ≠ p → ptr g s' (T i) p' = ptr g s (T i) p') ∧
      ∀ v, r = .ok v → (i, p) ∈ Live g D T s' ∧ ptr g s' (T i) p = v ∧ v ≠ 0 := by
  have hpage := Place.isPage_of_parent hp
  have huq := h.usedPtr_page hi hpage hq
  have hr := ok.inRange_data huq.1
  have hpp : ptr g s (T i) p = rawEntry g s (ptr g s (T i) q) k := by
    rw [ptr_child hp, entry_of_ne hq]
  by_cases h0 : rawEntry g s (ptr g s (T i) q) k = 0
  · obtain ⟨ha, hfull⟩ | ⟨v, hv, hfree, ha⟩ := exec_allocDataBlock ok
      (show [dataBlkToPos g (ptr g s (T i) q)].length < cacheNent by simp) s
    · exact ⟨_, s, exec_entryOrAlloc_zero hr h0 ha, h, .refl _ _, .error hfull, fun _ _ => rfl,
        fun v hv => by cases hv⟩
    · have hptr := h.ptr_allocated ok hv hfree
      obtain ⟨h1, hfresh⟩ := h.alloc ok hv hfree
      have hgrow := h.grows_allocated ok hv hfree ∅
      rw [← hptr i hi] at hq
      rw [h0, ← hptr i hi] at hpp
      obtain ⟨h2, hgrow', hx⟩ := h1.linkEntry ok hfresh hi hp hk hq hpp ∅ rfl
      refine ⟨_, _, exec_entryOrAlloc_zero hr h0 ha, ?_⟩
      rw [hptr i hi] at h2 hgrow' hx
      have htaken := (Taken.allocated ok hv hfree).trans
        (Taken.data ok huq.1 ((allocated g s v (dataBlkToPos g (ptr g s (T i) q))).setWord k v)) ok
      refine ⟨h2, hgrow.trans hgrow', .took htaken ⟨v, .inl rfl⟩ _, fun p' hne => ?_, ?_⟩
      · rw [hx, update_of_ne hne, hptr i hi]
      rintro w ⟨⟩
      have hself := (hx p).trans (update_self ..)
      exact ⟨⟨hi, .inl (by rw [hself]; exact hfresh.ne), hc⟩, hself, hfresh.ne⟩
  · refine ⟨_, s, exec_entryOrAlloc_ne hr h0 true, h, .refl _ _, .hit (by rw [hpp]; exact h0) _,
      fun _ _ => rfl, ?_⟩
    rintro v ⟨⟩
    exact ⟨⟨hi, .inl (by rw [hpp]; exact h0), hc⟩, hpp, h0⟩

/-- The page a pointer of the inode names, or a fresh page linked there. -/
theorem pageOrAlloc_owned (ok : GeomOk g N) (h : Owned g D T s)
    (hi : i ∈ D.inodes) (hq : q.InInode) (hpage : q.IsPage) :
    (exec (inRange N) (pageOrAlloc g ((T i).top q) true) s = (.error (-ENOMEM), s) ∧ Full g s) ∨
    ∃ v s', exec (inRange N) (pageOrAlloc g ((T i).top q) true) s = (.ok v, s') ∧ v ≠ 0 ∧
      Spent g (v = (T i).top q) (.ok v) s s' ∧
      Owned g D (Function.update T i ((T i).setTop q v)) s' ∧
      Grows g D ∅ T s (Function.update T i ((T i).setTop q v)) s' ∧
      (T i).Ext ((T i).setTop q v) ∧
      ∀ p', p' ≠ q → ptr g s' ((T i).setTop q v) p' = ptr g s (T i) p' := by
  by_cases h0 : (T i).top q = 0
  · have heq : pageOrAlloc g ((T i).top q) true = allocDataBlock g (by decide) := by
      rw [h0]
      rfl
    rw [heq]
    obtain ⟨ha, hfull⟩ | ⟨v, hv, hfree, ha⟩ := exec_allocDataBlock ok
        (show ([] : List Nat).length < cacheNent by decide) s
    · exact .inl ⟨ha, hfull⟩
    · obtain ⟨h1, hfresh⟩ := h.alloc ok hv hfree
      have hgrow := h.grows_allocated ok hv hfree ∅
      have hdead : (i, q) ∉ Live g D T (allocated g s v) := by
        intro hx
        apply Owned.ptr_page_ne_zero hx hpage
        rw [ptr_top hq.parent, h0]
      have hnb : ((T i).setTop q v).nblks = (T i).nblks := by
        rw [Inode.nblks, Inode.size_setTop, Inode.nblks]
      obtain ⟨h2, hgrow', hext, hx⟩ := h1.linkTop hfresh hi hq hdead (fun _ => h0)
        ((T i).setTop q v) (fun _ => rfl) (Nat.le_of_eq hnb.symm)
        (fun p' _ => by rw [hnb]) (by rw [hnb]; exact h.max i hi) ∅
      refine .inr ⟨v, _, ha, hfresh.ne, .took (.allocated ok hv hfree) ⟨v, rfl⟩ _, h2,
        hgrow.trans hgrow', hext, fun p' hne => ?_⟩
      rw [hx, update_of_ne hne, h.ptr_allocated ok hv hfree i hi]
  · refine .inr ⟨(T i).top q, s, ?_, h0, .hit rfl _, ?_, ?_, ?_, fun _ _ => by rw [Inode.setTop_self]⟩
    · rw [pageOrAlloc, if_pos h0]
      rfl
    · rw [Inode.setTop_self, update_eq_self]
      exact h
    · rw [Inode.setTop_self, update_eq_self]
      exact .refl _ _
    · rw [Inode.setTop_self]
      exact .refl _

/-! ## `resolve_or_alloc` -/

theorem exec_bind_map {α β : Type} {x : K [] α} {f : α → β} {r : Except Int α} {s s' : Nat → Blk}
    (h : exec (inRange N) x s = (r, s')) :
    exec (inRange N) (do let a ← x; return f a : K [] β) s = (r.map f, s') := by
  cases r with
  | error e => rw [exec_bind_error _ _ h]; rfl
  | ok a => rw [exec_bind_ok _ _ h]; rfl

/-- Programs that start alike and go on with results that correspond. -/
theorem exec_bind_mapped {α β γ : Type} {x : K [] α} {k : α → K [] β} {k' : α → K [] γ} {f : β → γ}
    (h : ∀ a s, exec (inRange N) (k' a) s =
      ((exec (inRange N) (k a) s).1.map f, (exec (inRange N) (k a) s).2)) (s : Nat → Blk) :
    exec (inRange N) (x >>= k') s =
      ((exec (inRange N) (x >>= k) s).1.map f, (exec (inRange N) (x >>= k) s).2) := by
  rw [Fallible.exec_bind, Fallible.exec_bind]
  rcases exec (inRange N) x s with ⟨e | a, s'⟩
  · rfl
  · exact h a s'

theorem nblks_eq {ino : Inode} (h : ino.nblks ≤ 32899) :
    (ino.size.toNat + 511) % 2 ^ 32 / 512 = ino.nblks := by
  rw [Inode.nblks] at h ⊢
  omega

/-- A direct block below the end. -/
theorem exec_resolveOrAlloc_direct {ino : Inode} (hmax : ino.nblks ≤ 32899) (hl : l < 3)
    (hlt : l < ino.nblks) (alloc : Bool) :
    exec (inRange N) (resolveOrAlloc g ino l alloc) s = (.ok (ino.direct l, ino), s) := by
  unfold resolveOrAlloc
  simp only [nblks_eq hmax, if_pos hl, if_pos hlt]
  rfl

/-- A direct block past the end. -/
theorem exec_resolveOrAlloc_fresh {ino : Inode} (hl : l < 3) (hlt : ¬ l < ino.nblks)
    (ha : exec (inRange N) (allocDataBlock g (by decide) : K [] UInt32) s = (r, s')) :
    exec (inRange N) (resolveOrAlloc g ino l true) s =
      (r.map fun v => (v, { ino.setDirect l v with size := UInt32.ofNat ((l + 1) * 512) }), s') := by
  have hlast : ∀ v, (ino.setDirect l v).size.toNat < (l + 1) * 512 := by
    intro v
    show ino.size.toNat < _
    rw [Inode.nblks] at hlt
    omega
  unfold resolveOrAlloc
  simp only [nblks_eq (show ino.nblks ≤ 32899 by omega), if_pos hl, if_neg hlt, Bool.not_true,
    Bool.false_eq_true, if_false, hlast, if_true]
  exact exec_bind_map ha

theorem resolveOrAlloc_eq_indirect (ino : Inode) (hl : ¬ l < 3) (hl' : l < 131) (alloc : Bool) :
    resolveOrAlloc g ino l alloc = (do
      let page ← pageOrAlloc g (ino.top .ind) alloc
      let out ← entryOrAlloc g page (l - 3) alloc
      return (out, ino.setTop .ind page)) := by
  unfold resolveOrAlloc
  simp only [if_neg hl, if_pos (show l - 3 < 128 by omega)]
  rfl

theorem resolveOrAlloc_eq_dindirect (ino : Inode) {o : Nat} (hl : ¬ l < 131) (hl' : l < 32899)
    (ho : o = (l - 131) / 16384) (hk : k = (l - 131) % 16384 / 128) (alloc : Bool) :
    resolveOrAlloc g ino l alloc = (do
      let page ← pageOrAlloc g (ino.top (.dind o)) alloc
      let _ ← entryOrAlloc g ((ino.setTop (.dind o) page).top (.dind o)) k alloc
      let dblk ← Fallible.readBlock (dataBlkToPos g ((ino.setTop (.dind o) page).top (.dind o)))
        (by decide) (- EIO)
      let out ← entryOrAlloc g (dblk.word k) ((l - 131) % 128) alloc
      return (out, ino.setTop (.dind o) page)) := by
  subst ho hk
  unfold resolveOrAlloc
  simp only [if_neg (show ¬ l < 3 by omega), if_neg (show ¬ l - 3 < 128 by omega),
    show l - 3 - 128 = l - 131 by omega, Nat.reduceMul, if_neg (show ¬ 32768 ≤ l - 131 by omega),
    show (l - 131) % 16384 % 128 = (l - 131) % 128 by omega]
  rfl

/-- What `resolve_or_alloc` of logical block `l` leaves: ownership for the inode it
returns, and the place of the block linked to what it returns. -/
structure Resolved (g : Geom) (D : Scope) (T : Nat → Inode) (s : Nat → Blk) (i l : Nat)
    (r : Except Int (UInt32 × Inode)) (s' : Nat → Blk) (ino : Inode) : Prop where
  owned : Owned g D (Function.update T i ino) s'
  grows : Grows g D ∅ T s (Function.update T i ino) s'
  ext : (T i).Ext ino
  other : ∀ p : Place, ¬ p.Leads l → ptr g s' ino p = ptr g s (T i) p
  ok : ∀ v ino', r = .ok (v, ino') → ino' = ino ∧
    (i, .data l) ∈ Live g D (Function.update T i ino) s' ∧ ptr g s' ino (.data l) = v ∧
    ino.size.toNat = if l < 3 ∧ (T i).nblks ≤ l then (l + 1) * 512 else (T i).size.toNat

/-- Store and inode are left as they were. -/
theorem Resolved.same {r : Except Int (UInt32 × Inode)} (h : Owned g D T s)
    (hr : ∀ v ino, r = .ok (v, ino) → ino = T i ∧ (i, .data l) ∈ Live g D T s ∧
      ptr g s (T i) (.data l) = v ∧ ¬ (l < 3 ∧ (T i).nblks ≤ l)) : Resolved g D T s i l r s (T i) := by
  refine ⟨?_, ?_, .refl _, fun _ _ => rfl, ?_⟩ <;> rw [update_eq_self]
  · exact h
  · exact .refl _ _
  · intro v ino hv
    obtain ⟨hino, hx, hptr, hnot⟩ := hr v ino hv
    exact ⟨hino, hx, hptr, (if_neg hnot).symm⟩

theorem Resolved.error (h : Owned g D T s) (i l : Nat) (e : Int) :
    Resolved g D T s i l (.error e) s (T i) :=
  .same h fun v ino hv => by cases hv

/-- What `resolve_or_alloc` leaves, and the blocks it took. -/
def Resolves (N : Nat) (g : Geom) (D : Scope) (T : Nat → Inode) (s : Nat → Blk) (i l : Nat) : Prop :=
  ∃ r s' ino, exec (inRange N) (resolveOrAlloc g (T i) l true) s = (r, s') ∧
    Resolved g D T s i l r s' ino ∧ Spent g ((i, .data l) ∈ Live g D T s) r s s'

theorem nblks_of_size {ino : Inode} {n : Nat} (h : ino.size.toNat = n * 512) : ino.nblks = n := by
  rw [Inode.nblks, h]
  omega

/-- The direct blocks.  A block is there when it lies below the end, and a new one is the
next one. -/
theorem resolveOrAlloc_direct (ok : GeomOk g N) (h : Owned g D T s) (hi : i ∈ D.inodes) (hl : l < 3)
    (hgap : l ≤ (T i).nblks) : Resolves N g D T s i l := by
  have hmax := h.max i hi
  by_cases hlt : l < (T i).nblks
  · have hlive := h.within i hi (.data l) ⟨hlt, by omega⟩
    refine ⟨_, s, T i, exec_resolveOrAlloc_direct hmax hl hlt true, .same h ?_, .hit hlive _⟩
    rintro v ino' ⟨⟩
    exact ⟨rfl, hlive, ptr_top (if_pos hl), by omega⟩
  · have hnb : (T i).nblks = l := by omega
    obtain ⟨ha, hfull⟩ | ⟨v, hv, hfree, ha⟩ := exec_allocDataBlock ok
        (show ([] : List Nat).length < cacheNent by decide) s
    · exact ⟨_, s, T i, exec_resolveOrAlloc_fresh hl hlt ha, .error h i l _, .error hfull⟩
    · let ino : Inode := { (T i).setDirect l v with size := UInt32.ofNat ((l + 1) * 512) }
      have hval : ino.size.toNat = (l + 1) * 512 := by
        rw [UInt32.toNat_ofNat']
        omega
      have hnb' : ino.nblks = l + 1 := nblks_of_size hval
      obtain ⟨h1, hfresh⟩ := h.alloc ok hv hfree
      have hgrow := h.grows_allocated ok hv hfree ∅
      have hdead : (i, .data l) ∉ Live g D T (allocated g s v) := by
        rintro ⟨-, -, hc | hc | ⟨l', hp, hl', -⟩⟩
        · exact hc
        · exact hlt hc.1
        · cases hp
          omega
      obtain ⟨h2, hgrow', hext, hx⟩ := h1.linkTop hfresh hi (p := .data l) hl hdead
        (fun hq => hq.elim) ino (fun p' => by cases p' <;> rfl) (by omega)
        (by
          intro p' hpp
          rw [hnb', hnb]
          cases p' with
          | data l' =>
            have hll : l' ≠ l := fun heq => hpp (by rw [heq])
            simp only [Place.Within]
            omega
          | _ =>
            simp only [Place.Within]
            omega) (by omega) ∅
      refine ⟨_, _, ino, exec_resolveOrAlloc_fresh hl hlt ha,
        ⟨h2, hgrow.trans hgrow', hext, fun p hp => ?_, ?_⟩, .took (.allocated ok hv hfree) ⟨v, rfl⟩ _⟩
      · rw [hx, update_of_ne (by rintro rfl; exact hp rfl), h.ptr_allocated ok hv hfree i hi]
      rintro w ino' ⟨⟩
      have hlive : (i, .data l) ∈ Live g D (Function.update T i ino) (allocated g s v) := by
        apply h2.within i hi
        rw [update_self, hnb']
        exact ⟨by omega, by omega⟩
      refine ⟨rfl, hlive, (hx _).trans (update_self ..), ?_⟩
      rw [hval, if_pos ⟨hl, by omega⟩]

/-- What an entry under the inode in memory leaves, after the pages above it. -/
theorem Resolved.entry {s1 s2 : Nat → Blk} {ino : Inode}
    (hl : 3 ≤ l) (hsize : ino.size = (T i).size) (hext : (T i).Ext ino)
    (hgrow : Grows g D ∅ T s (Function.update T i ino) s1)
    (hgrow' : Grows g D ∅ (Function.update T i ino) s1 (Function.update T i ino) s2)
    (h : Owned g D (Function.update T i ino) s2)
    (hother : ∀ p : Place, ¬ p.Leads l → ptr g s2 ino p = ptr g s (T i) p)
    (hr : ∀ v, r = .ok v → (i, .data l) ∈ Live g D (Function.update T i ino) s2 ∧
      ptr g s2 ino (.data l) = v) :
    Resolved g D T s i l (r.map fun v => (v, ino)) s2 ino := by
  refine ⟨h, hgrow.trans hgrow', hext, hother, ?_⟩
  intro v ino' heq
  cases r with
  | error e => cases heq
  | ok w =>
    cases heq
    obtain ⟨hx, hv⟩ := hr v rfl
    exact ⟨rfl, hx, hv, by rw [if_neg (by omega), hsize]⟩

/-- The blocks of the indirect page. -/
theorem resolveOrAlloc_indirect (ok : GeomOk g N) (h : Owned g D T s) (hi : i ∈ D.inodes)
    (hl : ¬ l < 3) (hl' : l < 131) (hsp : D.spare i l) : Resolves N g D T s i l := by
  unfold Resolves
  rw [resolveOrAlloc_eq_indirect _ hl hl']
  obtain ⟨he, hfull⟩ | ⟨page, s1, hpage, hne, hspent, h1, hgrow, hext, hold⟩ :=
    pageOrAlloc_owned ok h hi (q := .ind) trivial trivial
  · exact ⟨_, _, _, exec_bind_error _ _ he, .error h i l _, .error hfull⟩
  · have hptr : ptr g s1 (Function.update T i ((T i).setTop .ind page) i) .ind = page := by
      rw [update_self]
      rfl
    obtain ⟨r, s2, hexec, h2, hgrow', hspent', hold', hr⟩ := entryOrAlloc_owned ok h1 hi
      (Place.parent_indirect hl hl') (by omega) (by rw [hptr]; exact hne)
      (.inr (.inr ⟨l, rfl, by omega, hsp⟩))
    rw [hptr] at hexec
    rw [update_self] at hold'
    refine ⟨_, s2, (T i).setTop .ind page, ?_, .entry (by omega) rfl hext hgrow hgrow' h2 (r := r)
      (fun p hp => ?_) ?_, (hspent.after ok hspent' ?_).map _⟩
    · rw [exec_bind_ok _ _ hpage, exec_bind_map hexec]
    · rw [hold' p (by rintro rfl; exact hp rfl),
        hold p (by rintro rfl; exact hp ⟨by omega, hl'⟩)]
    rotate_left
    · -- the page and the entry were there
      rintro rfl hentry rfl
      rw [update_self, Inode.setTop_self] at hentry
      exact ⟨hi, .inl hentry, .inr (.inr ⟨l, rfl, by omega, hsp⟩)⟩
    · intro v hv
      obtain ⟨hx, hv', -⟩ := hr v hv
      rw [update_self] at hv'
      exact ⟨hx, hv'⟩

/-- The blocks of the doubly-indirect pages. -/
theorem resolveOrAlloc_dindirect (ok : GeomOk g N) (h : Owned g D T s) (hi : i ∈ D.inodes)
    (hl : ¬ l < 131) (hl' : l < 32899) (hsp : D.spare i l) : Resolves N g D T s i l := by
  unfold Resolves
  obtain ⟨o, ho⟩ : ∃ o, o = (l - 131) / 16384 := ⟨_, rfl⟩
  obtain ⟨k, hk⟩ : ∃ k, k = (l - 131) % 16384 / 128 := ⟨_, rfl⟩
  have hpar := Place.parent_dindirect hl
  rw [← ho, ← hk] at hpar
  rw [resolveOrAlloc_eq_dindirect _ hl hl' ho hk]
  obtain ⟨he, hfull⟩ | ⟨page, s1, hpage, hne, hspent, h1, hgrow, hext, hold⟩ :=
    pageOrAlloc_owned ok h hi (q := .dind o) (show o < 2 by omega) trivial
  · exact ⟨_, _, _, exec_bind_error _ _ he, .error h i l _, .error hfull⟩
  · rw [exec_bind_ok _ _ hpage]
    have hself : page = (T i).top (.dind o) → (T i).setTop (.dind o) page = T i := by
      rintro rfl
      exact Inode.setTop_self _
    have htop : ((T i).setTop (.dind o) page).top (.dind o) = page := by
      rw [Inode.top_setTop (p := .dind o) (show o < 2 by omega), update_self]
    have hsize : ((T i).setTop (.dind o) page).size = (T i).size := Inode.size_setTop _ _
    generalize (T i).setTop (.dind o) page = ino at *
    have hptr : ∀ s, ptr g s (Function.update T i ino i) (.dind o) = page := by
      intro s
      rw [update_self]
      exact htop
    rw [htop]
    -- the inner page
    obtain ⟨r, s2, hexec, h2, hgrow', hspent2, hold2, hr⟩ := entryOrAlloc_owned ok h1 hi (p := .inner o k)
      (q := .dind o) (k := k) rfl (by omega) (by rw [hptr]; exact hne) (.inl trivial)
    rw [hptr] at hexec
    rw [update_self] at hold2
    have hpages : ∀ p : Place, ¬ p.Leads l → ptr g s2 ino p = ptr g s (T i) p := fun p hp => by
      rw [hold2 p (by rintro rfl; exact hp ⟨by omega, ho, hk⟩),
        hold p (by rintro rfl; exact hp ⟨by omega, ho⟩)]
    cases r with
    | error e =>
      obtain ⟨⟨A, hA, hA'⟩, hfull⟩ := hspent.after (Q := True) ok hspent2 fun _ _ _ => trivial
      refine ⟨.error e, s2, ino, exec_bind_error _ _ hexec,
        ⟨h2, hgrow.trans hgrow', hext, hpages, ?_⟩,
        ⟨A, hA, hA'.imp id fun hs => ⟨hs.1, fun _ ha => by cases ha⟩⟩, ?_⟩
      · intro v ino' hv
        cases hv
      · rintro _ ⟨⟩
        exact hfull e rfl
    | ok inner =>
      obtain ⟨hlive, hinner, hne'⟩ := hr inner rfl
      have hup := h2.usedPtr_page hi (q := .dind o) trivial (by rw [hptr]; exact hne)
      rw [hptr] at hup
      have hread : Block.word (s2 (dataBlkToPos g page)) k = inner := by
        rw [ptr_child (q := .dind o) (k := k) rfl, hptr, entry_of_ne hne] at hinner
        exact hinner
      rw [exec_bind_ok _ _ hexec, exec_bind_ok _ _
        (exec_readBlock _ _ (ok.inRange_data hup.1) _ _), hread]
      -- the leaf
      obtain ⟨r, s3, hexec', h3, hgrow'', hspent3, hold3, hr'⟩ := entryOrAlloc_owned ok h2 hi hpar (by omega)
        (by rw [hinner]; exact hne') (.inr (.inr ⟨l, rfl, by omega, hsp⟩))
      rw [hinner] at hexec'
      refine ⟨_, s3, ino, exec_bind_map hexec', .entry (by omega) hsize hext hgrow
        (hgrow'.trans hgrow'') h3 (r := r) (fun p hp => ?_) ?_, ((hspent.after ok hspent2
          (Q := ino = T i) fun hp _ _ => hself hp).after ok hspent3 ?_).map _⟩
      · rw [update_self] at hold3
        rw [hold3 p (by rintro rfl; exact hp rfl), hpages p hp]
      · intro v hv
        obtain ⟨hx, hv', -⟩ := hr' v hv
        rw [update_self] at hv'
        exact ⟨hx, hv'⟩
      · -- the pages and the entry were there
        rintro rfl hentry rfl
        rw [update_self] at hentry
        exact ⟨hi, .inl hentry, .inr (.inr ⟨l, rfl, by omega, hsp⟩)⟩

/-- A logical block past the last place there is. -/
theorem exec_resolveOrAlloc_past (hl : 32899 ≤ l) (ino : Inode) (alloc : Bool)
    (s : Nat → Blk) : exec (inRange N) (resolveOrAlloc g ino l alloc) s = (.error (-EINVAL), s) := by
  unfold resolveOrAlloc
  simp only [if_neg (show ¬ l < 3 by omega), if_neg (show ¬ l - 3 < 128 by omega),
    if_pos (show 128 * 128 * 2 ≤ l - 3 - 128 by omega)]
  rfl

/-- `resolve_or_alloc` keeps ownership, whatever it returns, when it is asked for no
direct block past the next one and for an entry of a page only where that counts. -/
theorem resolveOrAlloc_owned (ok : GeomOk g N) (h : Owned g D T s)
    (hi : i ∈ D.inodes) (hgap : l < 3 → l ≤ (T i).nblks) (hsp : 3 ≤ l → D.spare i l) :
    ∃ r s' ino, exec (inRange N) (resolveOrAlloc g (T i) l true) s = (r, s') ∧
      Resolved g D T s i l r s' ino ∧
      (l < 32899 → Spent g ((i, .data l) ∈ Live g D T s) r s s') := by
  by_cases hlast : l < 32899
  · have hres : Resolves N g D T s i l := by
      by_cases hl : l < 3
      · exact resolveOrAlloc_direct ok h hi hl (hgap hl)
      · by_cases hl' : l < 131
        · exact resolveOrAlloc_indirect ok h hi hl hl' (hsp (by omega))
        · exact resolveOrAlloc_dindirect ok h hi hl' hlast (hsp (by omega))
    obtain ⟨r, s', ino, hexec, hres, hspent⟩ := hres
    exact ⟨r, s', ino, hexec, hres, fun _ => hspent⟩
  · exact ⟨_, s, T i, exec_resolveOrAlloc_past (by omega) _ _ s, .error h i l _,
      fun hlt => absurd hlt hlast⟩

/-! ## Blocks below the end -/

/-- Every place a file uses names a block of the store. -/
structure Readable (N : Nat) (g : Geom) (s : Nat → Blk) (ino : Inode) : Prop where
  max : ino.nblks ≤ 32899
  inRange : ∀ p : Place, p.Within ino.nblks → inRange N (dataBlkToPos g (rawPtr g s ino p)) = true

/-- The places a file uses hold pointers into the data area.  This says nothing about the
bitmap, nor about what lies past the end. -/
structure Linked (g : Geom) (s : Nat → Blk) (ino : Inode) : Prop where
  max : ino.nblks ≤ 32899
  ne : ∀ p : Place, p.Within ino.nblks → (p.IsPage ∨ p.parent ≠ none) → ptr g s ino p ≠ 0
  area : ∀ p : Place, p.Within ino.nblks → DataPtr g (ptr g s ino p)

theorem Owned.linked (h : Owned g D T s) (hi : i ∈ D.inodes) : Linked g s (T i) := by
  refine ⟨h.max i hi, fun p hp hc => Owned.ptr_ne_zero (h.within i hi p hp) ?_,
    fun p hp => (h.usedPtr (h.within i hi p hp)).1⟩
  intro heq
  rw [(Prod.mk.inj heq).2] at hc
  rcases hc with hc | hc
  · exact hc
  · exact hc rfl

theorem Linked.within_data {ino : Inode} (h : Linked g s ino) (hl : l < ino.nblks) :
    (Place.data l).Within ino.nblks :=
  ⟨hl, Nat.lt_of_lt_of_le hl h.max⟩

theorem Linked.page_ne {ino : Inode} (h : Linked g s ino) (hq : q.IsPage)
    (hw : q.Within ino.nblks) : ptr g s ino q ≠ 0 :=
  h.ne q hw (.inl hq)

theorem Linked.rawPtr_eq {ino : Inode} (h : Linked g s ino) (hw : p.Within ino.nblks) :
    rawPtr g s ino p = ptr g s ino p :=
  rawPtr_eq_ptr (fun _ hq hqw => h.page_ne hq hqw) hw

theorem Linked.readable {ino : Inode} (ok : GeomOk g N) (h : Linked g s ino) :
    Readable N g s ino := by
  refine ⟨h.max, fun p hp => ?_⟩
  rw [h.rawPtr_eq hp]
  exact ok.inRange_data (h.area p hp)

theorem Owned.readable (ok : GeomOk g N) (h : Owned g D T s) (hi : i ∈ D.inodes) :
    Readable N g s (T i) :=
  (h.linked hi).readable ok

/-- `resolve_block` returns the pointer at the place when the pages on the way are there. -/
theorem exec_resolveBlock_leads {ino : Inode} (hl : l < 32899) (h : ∀ q : Place, q.IsPage → q.Leads l →
      inRange N (dataBlkToPos g (rawPtr g s ino q)) = true) :
    exec (inRange N) (resolveBlock g ino l) s = (.ok (rawPtr g s ino (.data l)), s) := by
  unfold resolveBlock
  by_cases hl1 : l < 3
  · simp only [if_pos hl1, rawPtr, ptrBy]
    rfl
  · by_cases hl2 : l < 131
    · have hq := h .ind trivial ⟨by omega, hl2⟩
      simp only [if_neg hl1, if_pos (show l - 3 < 128 by omega), rawPtr, ptrBy, if_pos hl2]
      exact exec_bind_ok _ _ (exec_readBlock _ _ hq _ _)
    · have hr := h (.inner _ _) trivial ⟨by omega, rfl, rfl⟩
      have hr' := h (.dind _) trivial ⟨by omega, rfl⟩
      rw [rawPtr, ptrBy] at hr'
      simp only [if_neg hl1, if_neg (show ¬ l - 3 < 128 by omega),
        show l - 3 - 128 = l - 131 by omega, Nat.reduceMul, if_neg (show ¬ 32768 ≤ l - 131 by omega),
        show (l - 131) % 16384 % 128 = (l - 131) % 128 by omega, rawPtr, ptrBy, if_neg hl2]
      rw [exec_bind_ok _ _ (exec_readBlock _ _ hr' _ _)]
      exact exec_bind_ok _ _ (exec_readBlock _ _ hr _ _)

/-- `resolve_block` below the end of a file returns the pointer at the place. -/
theorem exec_resolveBlock {ino : Inode} (h : Readable N g s ino) (hl : l < ino.nblks) :
    exec (inRange N) (resolveBlock g ino l) s = (.ok (rawPtr g s ino (.data l)), s) :=
  exec_resolveBlock_leads (hl.trans_le h.max) fun q _ hq => h.inRange q (hq.within hl h.max)

theorem exec_pageOrAlloc_ne (h : page ≠ 0) (alloc : Bool) (s : Nat → Blk) :
    exec (inRange N) (pageOrAlloc g page alloc) s = (.ok page, s) := by
  rw [pageOrAlloc, if_pos h]
  rfl

namespace Linked

variable {ino : Inode}

/-- A file that gets no longer and names the same blocks. -/
theorem narrow {ino' : Inode} (h : Linked g s ino) (hnb : ino'.nblks ≤ ino.nblks)
    (hptr : ∀ p : Place, p.Within ino'.nblks → ptr g s' ino' p = ptr g s ino p) :
    Linked g s' ino' := by
  refine ⟨Nat.le_trans hnb h.max, fun p hp hc => ?_, fun p hp => ?_⟩
  · rw [hptr p hp]
    exact h.ne p (hp.mono hnb) hc
  · rw [hptr p hp]
    exact h.area p (hp.mono hnb)

theorem congr (h : Linked g s ino)
    (hs : ∀ q : Place, q.IsPage → q.Within ino.nblks →
      s' (dataBlkToPos g (ptr g s ino q)) = s (dataBlkToPos g (ptr g s ino q))) :
    Linked g s' ino :=
  h.narrow (Nat.le_refl _) (ptr_congr_within hs)

/-- The bitmap does not matter to the pointers. -/
theorem page_eq (ok : GeomOk g N) (h : Linked g s ino)
    (hs : ∀ b, g.bitmapBlockCount < b → s' b = s b) :
    ∀ q : Place, q.IsPage → q.Within ino.nblks →
      s' (dataBlkToPos g (ptr g s ino q)) = s (dataBlkToPos g (ptr g s ino q)) :=
  fun q _ hw => hs _ (ok.bitmap_lt_data (h.area q hw))

/-- An entry of a page below the end of a file is read, not linked. -/
theorem exec_entryOrAlloc (ok : GeomOk g N) (h : Linked g s ino)
    (hp : p.parent = some (q, k)) (hw : p.Within ino.nblks) (alloc : Bool) :
    exec (inRange N) (entryOrAlloc g (ptr g s ino q) k alloc) s = (.ok (ptr g s ino p), s) := by
  have hpage := Place.isPage_of_parent hp
  have hq := h.page_ne hpage (hw.parent hp)
  have hne := h.ne p hw (.inr (by rw [hp]; exact Option.some_ne_none _))
  rw [ptr_child hp, entry_of_ne hq] at hne ⊢
  exact exec_entryOrAlloc_ne (ok.inRange_data (h.area q (hw.parent hp))) hne alloc

/-- `resolve_or_alloc` below the end of a file returns the pointer at the place, and
allocates nothing. -/
theorem exec_resolveOrAlloc (ok : GeomOk g N) (h : Linked g s ino)
    (hl : l < ino.nblks) (alloc : Bool) :
    exec (inRange N) (resolveOrAlloc g ino l alloc) s = (.ok (ptr g s ino (.data l), ino), s) := by
  have hnb := h.max
  have hw := h.within_data hl
  by_cases hl3 : l < 3
  · rw [ptr_top (Place.parent_direct hl3)]
    exact exec_resolveOrAlloc_direct hnb hl3 hl alloc
  · by_cases hl' : l < 131
    · have hpar := Place.parent_indirect hl3 hl'
      have hpage : ino.top .ind ≠ 0 := h.page_ne (q := .ind) trivial (hw.parent hpar)
      have hentry := h.exec_entryOrAlloc ok hpar hw alloc
      rw [resolveOrAlloc_eq_indirect _ hl3 hl',
        exec_bind_ok _ _ (exec_pageOrAlloc_ne hpage alloc s), Inode.setTop_self]
      exact exec_bind_map hentry
    · obtain ⟨o, ho⟩ : ∃ o, o = (l - 131) / 16384 := ⟨_, rfl⟩
      obtain ⟨k, hk⟩ : ∃ k, k = (l - 131) % 16384 / 128 := ⟨_, rfl⟩
      have hpar := Place.parent_dindirect hl'
      rw [← ho, ← hk] at hpar
      have hq := hw.parent hpar
      have hq' : (Place.dind o).Within ino.nblks := hq.parent rfl
      have hpage : ino.top (.dind o) ≠ 0 := h.page_ne (q := .dind o) trivial hq'
      have hinner : rawEntry g s (ino.top (.dind o)) k = ptr g s ino (.inner o k) := by
        rw [ptr_child (q := .dind o) (k := k) rfl, ptr_top rfl, entry_of_ne hpage]
      have hentry := h.exec_entryOrAlloc ok (p := .inner o k) (q := .dind o) rfl hq alloc
      have harea := ok.inRange_data (h.area (.dind o) hq')
      rw [ptr_top rfl] at hentry harea
      rw [resolveOrAlloc_eq_dindirect _ hl' hw.2 ho hk,
        exec_bind_ok _ _ (exec_pageOrAlloc_ne hpage alloc s), Inode.setTop_self,
        exec_bind_ok _ _ hentry,
        exec_bind_ok _ _ (exec_readBlock _ _ harea _ _), ← rawEntry, hinner]
      exact exec_bind_map (h.exec_entryOrAlloc ok hpar hw alloc)

end Linked

end MiniOs.Ktfs
