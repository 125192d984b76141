import MiniOs.Base.Ownership
import MiniOs.Ktfs.Pointers

/-!
# Who owns which block

Ownership is stated over a table of inodes `T` and a store `s`, apart from the inodes
the store holds, because the driver changes an inode in memory and writes it at the
end.  A place is live when it holds a pointer and counts: the pages of a file count,
the blocks below its end count, and blocks past its end, which only entries of pages
can name, count as far as the `Scope` says.  The live places own their blocks: each is
in the data area, is marked used, and is named by that place alone.

The steps the driver takes are one lemma each: a block is allocated (`Owned.alloc`), a
place is linked to it (`Owned.link`), an end moves (`Owned.resize`), an inode in memory
is dropped (`Owned.revert`), a block of data is written (`Owned.writeData`).
-/

namespace MiniOs.Ktfs

open Function (update_of_ne update_self)

variable {i : Nat} {p q : Place} {v : UInt32} {ino : Inode}

/-- What a statement of ownership is about. -/
structure Scope where
  /-- The inodes. -/
  inodes : Set Nat
  /-- The blocks past the end of a file that count. -/
  spare : Nat → Nat → Prop
  /-- Further blocks that are in use and that no live place names. -/
  kept : Set UInt32

variable {g : Geom} {N : Nat} {D : Scope} {T T' : Nat → Inode} {s s' : Nat → Blk}

/-- A place that counts. -/
def Counts (D : Scope) (T : Nat → Inode) (i : Nat) (p : Place) : Prop :=
  p.IsPage ∨ p.Within (T i).nblks ∨ ∃ l, p = .data l ∧ 3 ≤ l ∧ D.spare i l

/-- The live places.  Data block 0 is the first block of the root directory, the only
one whose pointer is 0. -/
def Live (g : Geom) (D : Scope) (T : Nat → Inode) (s : Nat → Blk) : Set (Nat × Place) :=
  {x | x.1 ∈ D.inodes ∧ (ptr g s (T x.1) x.2 ≠ 0 ∨ x = (g.rootInodeIdx, .data 0)) ∧
    Counts D T x.1 x.2}

/-- The live places own their blocks. -/
structure Owned (g : Geom) (D : Scope) (T : Nat → Inode) (s : Nat → Blk) : Prop where
  range : ∀ i ∈ D.inodes, i < inodeCount g
  max : ∀ i ∈ D.inodes, (T i).nblks ≤ 32899
  within : ∀ i ∈ D.inodes, ∀ p : Place, p.Within (T i).nblks → (i, p) ∈ Live g D T s
  excl : Exclusive (fun x : Nat × Place => ptr g s (T x.1) x.2) (Live g D T s) {v | UsedPtr g s v}
  zero : UsedPtr g s 0
  kept : ∀ v ∈ D.kept, UsedPtr g s v ∧ ∀ x ∈ Live g D T s, ptr g s (T x.1) x.2 ≠ v

namespace Owned

theorem usedPtr (h : Owned g D T s) (hx : (i, p) ∈ Live g D T s) :
    UsedPtr g s (ptr g s (T i) p) :=
  h.excl.mapsTo hx

theorem live_page (hi : i ∈ D.inodes) (hq : q.IsPage)
    (hne : ptr g s (T i) q ≠ 0) : (i, q) ∈ Live g D T s :=
  ⟨hi, .inl hne, .inl hq⟩

/-- The pages of files in scope lie in used blocks. -/
theorem usedPtr_page (h : Owned g D T s) (hi : i ∈ D.inodes)
    (hq : q.IsPage) (hne : ptr g s (T i) q ≠ 0) : UsedPtr g s (ptr g s (T i) q) :=
  h.usedPtr (live_page hi hq hne)

/-- A live place that is not the first block of the root holds a pointer. -/
theorem ptr_ne_zero (hx : (i, p) ∈ Live g D T s)
    (hr : (i, p) ≠ (g.rootInodeIdx, .data 0)) : ptr g s (T i) p ≠ 0 :=
  hx.2.1.resolve_right hr

theorem ptr_page_ne_zero (hx : (i, q) ∈ Live g D T s) (hq : q.IsPage) :
    ptr g s (T i) q ≠ 0 := by
  refine ptr_ne_zero hx ?_
  intro heq
  rw [(Prod.mk.inj heq).2] at hq
  exact hq

/-- The pages of a file below its end are there. -/
theorem page_within (h : Owned g D T s) (hi : i ∈ D.inodes) (hq : q.IsPage)
    (hw : q.Within (T i).nblks) : ptr g s (T i) q ≠ 0 :=
  ptr_page_ne_zero (h.within i hi q hw) hq

/-- Below the end of a file the driver finds its pointers. -/
theorem rawPtr_eq (h : Owned g D T s) (hi : i ∈ D.inodes)
    (hw : p.Within (T i).nblks) : rawPtr g s (T i) p = ptr g s (T i) p :=
  rawPtr_eq_ptr (fun _ hq hqw => h.page_within hi hq hqw) hw

end Owned

/-! ## Steps that keep the pointers -/

theorem live_congr (hptr : ∀ i ∈ D.inodes, ∀ p, ptr g s' (T' i) p = ptr g s (T i) p)
    (hnb : ∀ i ∈ D.inodes, (T' i).nblks = (T i).nblks) : Live g D T' s' = Live g D T s := by
  ext ⟨i, p⟩
  refine and_congr_right fun hi => ?_
  simp only [hptr i hi, Counts, hnb i hi]

/-- Ownership stays when the pointers and ends stay and no block is marked free. -/
theorem Owned.congr (h : Owned g D T s)
    (hptr : ∀ i ∈ D.inodes, ∀ p, ptr g s' (T' i) p = ptr g s (T i) p)
    (hnb : ∀ i ∈ D.inodes, (T' i).nblks = (T i).nblks)
    (hused : ∀ v, UsedPtr g s v → UsedPtr g s' v) : Owned g D T' s' where
  range := h.range
  max i hi := by
    rw [hnb i hi]
    exact h.max i hi
  within i hi p hp := by
    rw [live_congr hptr hnb]
    rw [hnb i hi] at hp
    exact h.within i hi p hp
  excl := by
    rw [live_congr hptr hnb]
    exact h.excl.restrict (fun _ hx => hx) (fun x hx => hptr x.1 hx.1 x.2) (fun _ _ hv => hused _ hv)
  zero := hused _ h.zero
  kept v hv := by
    refine ⟨hused v (h.kept v hv).1, ?_⟩
    rw [live_congr hptr hnb]
    intro x hx
    rw [hptr x.1 hx.1]
    exact (h.kept v hv).2 x hx

/-- Stores that agree on the blocks in use have the same pointers. -/
theorem Owned.ptr_of_used (h : Owned g D T s) (s' : Nat → Blk)
    (hs : ∀ v, UsedPtr g s v → s' (dataBlkToPos g v) = s (dataBlkToPos g v)) :
    ∀ i ∈ D.inodes, ∀ p, ptr g s' (T i) p = ptr g s (T i) p :=
  fun _ hi p => ptr_congr (fun _ hq hne => hs _ (h.usedPtr_page hi hq hne)) p

/-! ## Allocating and linking -/

/-- A block that was just allocated: no place names it, and it is empty. -/
structure Fresh (g : Geom) (D : Scope) (T : Nat → Inode) (s : Nat → Blk) (v : UInt32) : Prop where
  used : UsedPtr g s v
  live : ∀ x ∈ Live g D T s, ptr g s (T x.1) x.2 ≠ v
  kept : v ∉ D.kept
  ne : v ≠ 0
  empty : s (dataBlkToPos g v) = Block.zero

section

variable (ok : GeomOk g N) (h : Owned g D T s) (hv : DataPtr g v)
  (hfree : used s (dataBlkToPos g v) = false)

include ok hv hfree

/-- An allocation changes no block in use. -/
theorem allocated_used {w : UInt32} (hw : UsedPtr g s w) :
    allocated g s v (dataBlkToPos g w) = s (dataBlkToPos g w) := by
  apply allocated_of_lt ok hv (ok.bitmap_lt_data hw.1)
  intro heq
  rw [← heq, hw.2] at hfree
  cases hfree

include h

theorem Owned.ptr_allocated :
    ∀ i ∈ D.inodes, ∀ p, ptr g (allocated g s v) (T i) p = ptr g s (T i) p :=
  h.ptr_of_used _ fun _ => allocated_used ok hv hfree

theorem Owned.alloc : Owned g D T (allocated g s v) ∧ Fresh g D T (allocated g s v) v := by
  have hptr := h.ptr_allocated ok hv hfree
  have hnot : ¬ UsedPtr g s v := by
    intro hu
    rw [hu.2] at hfree
    cases hfree
  refine ⟨h.congr hptr (fun _ _ => rfl) (fun w hw => usedPtr_allocated ok hv hw), ?_⟩
  refine ⟨usedPtr_allocated_self ok hv, ?_, ?_, ?_, allocated_self v⟩
  · rw [live_congr hptr fun _ _ => rfl]
    intro x hx
    rw [hptr x.1 hx.1]
    exact h.excl.ne_of_not_mem hnot hx
  · intro hk
    exact hnot (h.kept v hk).1
  · rintro rfl
    exact hnot h.zero

end

/-- A place is linked to a fresh block. -/
theorem Owned.link (h : Owned g D T s) (hv : Fresh g D T s v)
    (hi : i ∈ D.inodes)
    (hptr : ∀ j ∈ D.inodes, ∀ p', ptr g s' (T' j) p' =
      if (j, p') = (i, p) then v else ptr g s (T j) p')
    (hnb : ∀ j ∈ D.inodes, j ≠ i → (T' j).nblks = (T j).nblks)
    (hnb' : ∀ p' : Place, p' ≠ p → (p'.Within (T' i).nblks ↔ p'.Within (T i).nblks))
    (hmax : (T' i).nblks ≤ 32899) (hused : ∀ w, UsedPtr g s w → UsedPtr g s' w) :
    Owned g D T' s' := by
  -- away from the linked place, liveness and pointers are as before
  have hlive : ∀ j p', (j, p') ≠ (i, p) → ((j, p') ∈ Live g D T' s' ↔ (j, p') ∈ Live g D T s) := by
    intro j p' hne
    refine and_congr_right fun hj => ?_
    have hp : ptr g s' (T' j) p' = ptr g s (T j) p' := by rw [hptr j hj, if_neg hne]
    have hw : p'.Within (T' j).nblks ↔ p'.Within (T j).nblks := by
      by_cases hji : j = i
      · subst hji
        exact hnb' p' fun hpp => hne (by rw [hpp])
      · rw [hnb j hj hji]
    simp only [hp, Counts, hw]
  have hx : ptr g s' (T' i) p = v := by rw [hptr i hi, if_pos rfl]
  refine ⟨h.range, ?_, ?_, ?_, hused _ h.zero, ?_⟩
  · intro j hj
    by_cases hji : j = i
    · rw [hji]
      exact hmax
    · rw [hnb j hj hji]
      exact h.max j hj
  · intro j hj p' hp'
    by_cases hne : (j, p') = (i, p)
    · cases hne
      exact ⟨hi, .inl (by rw [hx]; exact hv.ne), .inr (.inl hp')⟩
    · rw [hlive j p' hne]
      apply h.within j hj
      by_cases hji : j = i
      · subst hji
        exact (hnb' p' fun hpp => hne (by rw [hpp])).mp hp'
      · rwa [hnb j hj hji] at hp'
  · refine h.excl.link (x := (i, p)) (b := v) ?_ hx hv.live (hused _ hv.used)
      (fun _ _ hw => hused _ hw)
    rintro ⟨j, p'⟩ hy hne
    exact ⟨(hlive j p' hne).mp hy, by rw [hptr j hy.1, if_neg hne]⟩
  · intro w hw
    refine ⟨hused _ (h.kept w hw).1, ?_⟩
    rintro ⟨j, p'⟩ hy
    by_cases hne : (j, p') = (i, p)
    · cases hne
      rw [hx]
      rintro rfl
      exact hv.kept hw
    · rw [hptr j hy.1, if_neg hne]
      exact (h.kept w hw).2 _ ((hlive j p' hne).mp hy)

/-! ## Fewer live places -/

variable {D' : Scope} {ino' : Inode}

/-- Ownership passes to fewer live places, whose pointers stay and whose blocks stay in
use. -/
theorem Owned.sub (h : Owned g D T s) (hin : D'.inodes ⊆ D.inodes)
    (hlive : ∀ x ∈ Live g D' T' s', x ∈ Live g D T s ∧
      ptr g s' (T' x.1) x.2 = ptr g s (T x.1) x.2 ∧ UsedPtr g s' (ptr g s (T x.1) x.2))
    (hmax : ∀ i ∈ D'.inodes, (T' i).nblks ≤ 32899)
    (hwithin : ∀ i ∈ D'.inodes, ∀ p : Place, p.Within (T' i).nblks → (i, p) ∈ Live g D' T' s')
    (hzero : UsedPtr g s' 0) (hkept : ∀ v ∈ D'.kept, v ∈ D.kept ∧ UsedPtr g s' v) :
    Owned g D' T' s' where
  range i hi := h.range i (hin hi)
  max := hmax
  within := hwithin
  excl := h.excl.restrict (fun x hx => (hlive x hx).1) (fun x hx => (hlive x hx).2.1)
    (fun x hx _ => (hlive x hx).2.2)
  zero := hzero
  kept v hv := by
    obtain ⟨hk, hu⟩ := hkept v hv
    refine ⟨hu, fun x hx => ?_⟩
    obtain ⟨hl, hp, -⟩ := hlive x hx
    rw [hp]
    exact (h.kept v hk).2 x hl

theorem live_narrow (hin : D'.inodes ⊆ D.inodes) (hspare : ∀ i l, D'.spare i l → D.spare i l) :
    Live g D' T s ⊆ Live g D T s := by
  rintro ⟨i, p⟩ ⟨hi, hne, hc⟩
  refine ⟨hin hi, hne, ?_⟩
  rcases hc with hp | hp | ⟨l, hp, hl, hsp⟩
  · exact .inl hp
  · exact .inr (.inl hp)
  · exact .inr (.inr ⟨l, hp, hl, hspare i l hsp⟩)

/-- Fewer places count. -/
theorem Owned.narrow (h : Owned g D T s) (hin : D'.inodes ⊆ D.inodes)
    (hspare : ∀ i l, D'.spare i l → D.spare i l) (hkept : D'.kept ⊆ D.kept) : Owned g D' T s := by
  refine h.sub hin ?_ (fun i hi => h.max i (hin hi)) ?_ h.zero
    (fun v hv => ⟨hkept hv, (h.kept v (hkept hv)).1⟩)
  · intro x hx
    have hx' := live_narrow hin hspare hx
    exact ⟨hx', rfl, h.usedPtr hx'⟩
  · intro i hi p hp
    exact ⟨hi, (h.within i (hin hi) p hp).2.1, .inr (.inl hp)⟩

theorem ptr_resize (T : Nat → Inode) (i : Nat) (size : UInt32) (j : Nat) (p : Place) :
    ptr g s (Function.update T i { T i with size := size } j) p = ptr g s (T j) p := by
  by_cases hji : j = i
  · subst hji
    rw [update_self]
    exact ptr_congr_top (fun p => by cases p <;> rfl) p
  · rw [update_of_ne hji]

/-- The end of a file moves, as far as the places below the new end are live. -/
theorem Owned.resize (h : Owned g D T s) (hi : i ∈ D.inodes) (size : UInt32)
    (hmax : ({ T i with size := size } : Inode).nblks ≤ 32899)
    (hlive : ∀ p : Place, p.Within ({ T i with size := size } : Inode).nblks →
      (i, p) ∈ Live g D T s) :
    Owned g D (Function.update T i { T i with size := size }) s := by
  refine h.sub (fun _ hj => hj) ?_ ?_ ?_ h.zero (fun v hv => ⟨hv, (h.kept v hv).1⟩)
  · rintro ⟨j, p⟩ ⟨hj, hne, hc⟩
    rw [ptr_resize] at hne
    have hx : (j, p) ∈ Live g D T s := by
      by_cases hji : j = i
      · subst hji
        rcases hc with hc | hc | hc
        · exact ⟨hj, hne, .inl hc⟩
        · rw [update_self] at hc
          exact hlive p hc
        · exact ⟨hj, hne, .inr (.inr hc)⟩
      · rw [Counts, update_of_ne hji] at hc
        exact ⟨hj, hne, hc⟩
    exact ⟨hx, ptr_resize T i size j p, h.usedPtr hx⟩
  · intro j hj
    by_cases hji : j = i
    · subst hji
      rw [update_self]
      exact hmax
    · rw [update_of_ne hji]
      exact h.max j hj
  · intro j hj p hp
    refine ⟨hj, ?_, .inr (.inl hp)⟩
    rw [ptr_resize]
    by_cases hji : j = i
    · subst hji
      rw [update_self] at hp
      exact (hlive p hp).2.1
    · rw [update_of_ne hji] at hp
      exact (h.within j hj p hp).2.1

/-! ## Inodes in memory -/

/-- An inode with more blocks: what `ino` has, `ino'` has. -/
structure Inode.Ext (ino ino' : Inode) : Prop where
  nblks : ino.nblks ≤ ino'.nblks
  page : ∀ p : Place, p.IsPage → ino.top p ≠ 0 → ino'.top p = ino.top p
  direct : ∀ l, l < 3 → l < ino.nblks → ino'.direct l = ino.direct l

theorem Inode.Ext.refl (ino : Inode) : ino.Ext ino :=
  ⟨Nat.le_refl _, fun _ _ _ => rfl, fun _ _ _ => rfl⟩

theorem Inode.Ext.trans {a b c : Inode} (h : a.Ext b) (h' : b.Ext c) : a.Ext c where
  nblks := h.nblks.trans h'.nblks
  page p hp hne := by
    have heq := h.page p hp hne
    rw [h'.page p hp (by rw [heq]; exact hne), heq]
  direct l hl hnb := by
    rw [h'.direct l hl (Nat.lt_of_lt_of_le hnb h.nblks), h.direct l hl hnb]

/-- A pointer in the inode that counts, and that is there if it names a page. -/
theorem Inode.Ext.top (h : ino.Ext ino') (hpar : p.parent = none)
    (hp : p.IsPage ∨ p.Within ino.nblks) (hne : p.IsPage → ino.top p ≠ 0) :
    ino'.top p = ino.top p := by
  cases p with
  | data l => exact h.direct l (Place.lt_of_parent_none hpar) (hp.resolve_left id).1
  | ind => exact h.page _ trivial (hne trivial)
  | dind o => exact h.page _ trivial (hne trivial)
  | inner o k => cases hpar

/-- A place that may count for some scope. -/
theorem Counts.place (h : Counts D T i p) :
    p.IsPage ∨ p.Within (T i).nblks ∨ ∃ l, p = .data l ∧ 3 ≤ l := by
  rcases h with hc | hc | ⟨l, hp, hl, -⟩
  · exact .inl hc
  · exact .inr (.inl hc)
  · exact .inr (.inr ⟨l, hp, hl⟩)

/-- Where an inode has a pointer, the longer inode has the same pointer, also in another
store. -/
theorem Inode.Ext.ptr_eq (h : ino.Ext ino')
    (hp : p.IsPage ∨ p.Within ino.nblks ∨ ∃ l, p = .data l ∧ 3 ≤ l)
    (hne : ptr g s ino p ≠ 0 ∨ p.Within ino.nblks ∧ p.parent = none ∧ ¬ p.IsPage) :
    ptr g s' ino' p = ptr g s' ino p := by
  revert hp hne
  induction p using Place.parentInduction with
  | top p hpar =>
    intro hp hne
    rw [ptr_top hpar] at hne
    rw [ptr_top hpar, ptr_top hpar]
    refine h.top hpar ?_ fun hq => hne.resolve_right fun hc => hc.2.2 hq
    rcases hp with hp | hp | ⟨l, rfl, hl⟩
    · exact .inl hp
    · exact .inr hp
    · have := Place.lt_of_parent_none hpar
      omega
  | child p q k hpar ih =>
    intro _ hne
    have hne := hne.resolve_right fun hc => by rw [hpar] at hc; exact absurd hc.2.1 (by simp)
    rw [ptr_child hpar] at hne
    have hq : ptr g s ino q ≠ 0 := by
      intro hq
      rw [hq, entry_zero] at hne
      exact hne rfl
    rw [ptr_child hpar, ptr_child hpar, ih (.inl (Place.isPage_of_parent hpar)) (.inl hq)]

/-- Below its end an inode whose pages are there has the pointers of the longer one. -/
theorem Inode.Ext.ptr_within (h : ino.Ext ino')
    (hpage : ∀ q : Place, q.parent = none → q.IsPage → q.Within ino.nblks → ino.top q ≠ 0)
    (hp : p.Within ino.nblks) : ptr g s ino' p = ptr g s ino p := by
  revert hp
  induction p using Place.parentInduction with
  | top p hpar =>
    intro hp
    rw [ptr_top hpar, ptr_top hpar]
    exact h.top hpar (.inr hp) fun hq => hpage _ hpar hq hp
  | child p q k hpar ih =>
    intro hp
    rw [ptr_child hpar, ptr_child hpar, ih (hp.parent hpar)]

/-- The inode in memory is dropped: the shorter one, which owned its blocks before, owns
its blocks in the present store. -/
theorem Owned.revert {T0 : Nat → Inode} {s0 : Nat → Blk} (h0 : Owned g D T0 s0) (h : Owned g D T s)
    (hoff : ∀ j ∈ D.inodes, j ≠ i → T j = T0 j) (hext : (T0 i).Ext (T i)) : Owned g D T0 s := by
  have hwithin : ∀ j ∈ D.inodes, ∀ p : Place, p.Within (T0 j).nblks →
      ptr g s (T j) p = ptr g s (T0 j) p ∧ p.Within (T j).nblks := by
    intro j hj p hp
    by_cases hji : j = i
    · subst hji
      refine ⟨hext.ptr_within ?_ hp, hp.mono hext.nblks⟩
      intro q hpar hq hw
      have hne := h0.page_within hj hq hw
      rwa [ptr_top hpar] at hne
    · rw [hoff j hj hji]
      exact ⟨rfl, hp⟩
  refine h.sub (fun _ hj => hj) ?_ h0.max ?_ h.zero (fun v hv => ⟨hv, (h.kept v hv).1⟩)
  · rintro ⟨j, p⟩ ⟨hj, hne, hc⟩
    have hx : (j, p) ∈ Live g D T s ∧ ptr g s (T j) p = ptr g s (T0 j) p := by
      by_cases hw : p.Within (T0 j).nblks
      · obtain ⟨heq, hw'⟩ := hwithin j hj p hw
        exact ⟨⟨hj, by rw [heq]; exact hne, .inr (.inl hw')⟩, heq⟩
      · have hc' := hc.place
        have hne' : ptr g s (T0 j) p ≠ 0 := by
          refine hne.resolve_right ?_
          intro heq
          rw [(Prod.mk.inj heq).2] at hc' hw
          rcases hc' with hc' | hc' | ⟨l, hp, hl⟩
          · exact hc'
          · exact hw hc'
          · cases hp
            omega
        have heq : ptr g s (T j) p = ptr g s (T0 j) p := by
          by_cases hji : j = i
          · subst hji
            exact hext.ptr_eq hc' (.inl hne')
          · rw [hoff j hj hji]
        refine ⟨⟨hj, .inl (by rw [heq]; exact hne'), ?_⟩, heq⟩
        rcases hc with hc | hc | hc
        · exact .inl hc
        · exact absurd hc hw
        · exact .inr (.inr hc)
    exact ⟨hx.1, hx.2.symm, h.usedPtr hx.1⟩
  · intro j hj p hp
    obtain ⟨heq, hw⟩ := hwithin j hj p hp
    refine ⟨hj, ?_, .inr (.inl hp)⟩
    rw [← heq]
    exact (h.within j hj p hw).2.1

/-! ## What stays -/

/-- What a step of a growing file leaves alone: live places stay live and keep their
pointers, and their data stays, the blocks in `W` apart. -/
structure Grows (g : Geom) (D : Scope) (W : Set (Nat × Nat)) (T : Nat → Inode) (s : Nat → Blk)
    (T' : Nat → Inode) (s' : Nat → Blk) : Prop where
  live : ∀ i p, (i, p) ∈ Live g D T s →
    (i, p) ∈ Live g D T' s' ∧ ptr g s' (T' i) p = ptr g s (T i) p
  data : ∀ i l, (i, .data l) ∈ Live g D T s → (i, l) ∉ W →
    s' (dataBlkToPos g (ptr g s (T i) (.data l))) = s (dataBlkToPos g (ptr g s (T i) (.data l)))
  inodes : ∀ b, g.bitmapBlockCount < b → b < g.firstDataBlock → s' b = s b

namespace Grows

variable {W : Set (Nat × Nat)} {T'' : Nat → Inode} {s'' : Nat → Blk}

theorem refl (T : Nat → Inode) (s : Nat → Blk) : Grows g D W T s T s :=
  ⟨fun _ _ h => ⟨h, rfl⟩, fun _ _ _ _ => rfl, fun _ _ _ => rfl⟩

theorem trans (h : Grows g D W T s T' s') (h' : Grows g D W T' s' T'' s'') :
    Grows g D W T s T'' s'' where
  live i p hx := by
    obtain ⟨hx', heq⟩ := h.live i p hx
    obtain ⟨hx'', heq'⟩ := h'.live i p hx'
    exact ⟨hx'', heq'.trans heq⟩
  data i l hx hw := by
    obtain ⟨hx', heq⟩ := h.live i _ hx
    have hd := h'.data i l hx' hw
    rw [heq] at hd
    rw [hd, h.data i l hx hw]
  inodes b hb hb' := (h'.inodes b hb hb').trans (h.inodes b hb hb')

theorem mono {W' : Set (Nat × Nat)} (h : Grows g D W T s T' s') (hw : W ⊆ W') :
    Grows g D W' T s T' s' :=
  ⟨h.live, fun i l hx hn => h.data i l hx fun hm => hn (hw hm), h.inodes⟩

end Grows

/-- Pages stay, and no block is marked free. -/
theorem Owned.keep (h : Owned g D T s)
    (hpage : ∀ i q, (i, q) ∈ Live g D T s → q.IsPage →
      s' (dataBlkToPos g (ptr g s (T i) q)) = s (dataBlkToPos g (ptr g s (T i) q)))
    (hused : ∀ v, UsedPtr g s v → UsedPtr g s' v) :
    Owned g D T s' ∧ ∀ i ∈ D.inodes, ∀ p, ptr g s' (T i) p = ptr g s (T i) p := by
  have hptr : ∀ i ∈ D.inodes, ∀ p, ptr g s' (T i) p = ptr g s (T i) p :=
    fun i hi => ptr_congr fun q hq hne => hpage i q (Owned.live_page hi hq hne) hq
  exact ⟨h.congr hptr (fun _ _ => rfl) hused, hptr⟩

/-- The store changes away from the live places, the data in `W` apart. -/
theorem Owned.change (h : Owned g D T s) {W : Set (Nat × Nat)}
    (hlive : ∀ i p, (i, p) ∈ Live g D T s → (∀ l, p = .data l → (i, l) ∉ W) →
      s' (dataBlkToPos g (ptr g s (T i) p)) = s (dataBlkToPos g (ptr g s (T i) p)))
    (hinodes : ∀ b, g.bitmapBlockCount < b → b < g.firstDataBlock → s' b = s b)
    (hused : ∀ v, UsedPtr g s v → UsedPtr g s' v) : Owned g D T s' ∧ Grows g D W T s T s' := by
  obtain ⟨hown, hptr⟩ := h.keep (fun i q hx hq => hlive i q hx fun l hl => by
    rw [hl] at hq
    exact hq.elim) hused
  refine ⟨hown, fun i p hx => ?_, fun i l hx hw => ?_, hinodes⟩
  · rw [live_congr hptr fun _ _ => rfl]
    exact ⟨hx, hptr i hx.1 p⟩
  · refine hlive i _ hx ?_
    rintro l' ⟨⟩
    exact hw

theorem Owned.grows_allocated (ok : GeomOk g N) (h : Owned g D T s)
    (hv : DataPtr g v) (hfree : Ktfs.used s (dataBlkToPos g v) = false) (W : Set (Nat × Nat)) :
    Grows g D W T s T (allocated g s v) := by
  refine (h.change (fun i p hx _ => allocated_used ok hv hfree (h.usedPtr hx))
    (fun b hb hb' => ?_) fun w hw => usedPtr_allocated ok hv hw).2
  have := (ok.dataBlkToPos_lt hv).1
  exact allocated_of_lt ok hv hb (by omega)

/-- A block of data of a file is written. -/
theorem Owned.writeData (ok : GeomOk g N) (h : Owned g D T s) {l : Nat}
    (hx : (i, .data l) ∈ Live g D T s) (hv : ptr g s (T i) (.data l) = v) (b : Blk) :
    Owned g D T (Function.update s (dataBlkToPos g v) b) ∧
      Grows g D {(i, l)} T s T (Function.update s (dataBlkToPos g v) b) := by
  have hu := h.usedPtr hx
  rw [hv] at hu
  have hne : ∀ w, v ≠ w → Function.update s (dataBlkToPos g v) b (dataBlkToPos g w) =
      s (dataBlkToPos g w) :=
    fun w hne => update_of_ne (fun heq => hne (dataBlkToPos_inj heq.symm)) _ _
  refine h.change (fun j p hj hw => hne _ ?_) (fun c _ hc => ?_)
    fun w hw => (usedPtr_update_data ok hu.1 b).mpr hw
  · rw [← hv]
    refine h.excl.ne_of_ne hx hj ?_
    rintro ⟨⟩
    exact hw l rfl rfl
  · have := (ok.dataBlkToPos_lt hu.1).1
    exact update_of_ne (by omega) _ _

/-! ## Inodes on the disk -/

/-- Writing an inode changes no pointer of an inode in memory. -/
theorem Owned.ptr_setInode (ok : GeomOk g N) (h : Owned g D T s) (hi : i < inodeCount g)
    (ino : Inode) : ∀ j ∈ D.inodes, ∀ p, ptr g (setInode g s i ino) (T j) p = ptr g s (T j) p :=
  h.ptr_of_used _ fun _ hv => setInode_data ok hi (ok.dataBlkToPos_lt hv.1).1 ino

theorem usedPtr_setInode (ok : GeomOk g N) (hi : i < inodeCount g) (ino : Inode)
    (v : UInt32) : UsedPtr g (setInode g s i ino) v ↔ UsedPtr g s v :=
  usedPtr_congr ok (fun _ hc => setInode_bitmap ok hi hc ino) v

/-- The inode in memory is written: the inodes on the disk own their blocks. -/
theorem Owned.setInode (ok : GeomOk g N) (hi : i < inodeCount g)
    (h : Owned g D (Function.update (inodeAt g s) i ino) s) :
    Owned g D (inodeAt g (setInode g s i ino)) (setInode g s i ino) := by
  have htab : ∀ j ∈ D.inodes,
      inodeAt g (Ktfs.setInode g s i ino) j = Function.update (inodeAt g s) i ino j :=
    fun j hj => inodeAt_setInode ok hi (h.range j hj) ino
  refine h.congr ?_ ?_ fun v hv => (usedPtr_setInode ok hi ino v).mpr hv
  · intro j hj p
    rw [htab j hj]
    exact h.ptr_setInode ok hi ino j hj p
  · intro j hj
    rw [htab j hj]

/-- Pages below an end are live where the blocks below it are. -/
theorem live_of_data {nb : Nat} (hi : i ∈ D.inodes)
    (hlive : ∀ l, l < nb → (i, .data l) ∈ Live g D T s) (hp : p.Within nb) :
    (i, p) ∈ Live g D T s := by
  -- a page is there when a block under it is
  have hparent : ∀ {p q : Place} {k : Nat}, p.parent = some (q, k) → ptr g s (T i) p ≠ 0 →
      ptr g s (T i) q ≠ 0 := by
    intro p q k hpar hne hq
    rw [ptr_child hpar, hq, entry_zero] at hne
    exact hne rfl
  have hleaf : ∀ l, l < nb → 3 ≤ l → ptr g s (T i) (.data l) ≠ 0 := by
    intro l hl hl3
    refine Owned.ptr_ne_zero (hlive l hl) ?_
    intro heq
    cases heq
    omega
  have hinner : ∀ o k, k < 128 → 131 + 16384 * o + 128 * k < nb →
      ptr g s (T i) (.inner o k) ≠ 0 := by
    intro o k hk hlt
    refine hparent (p := .data (131 + 16384 * o + 128 * k)) (k := 0) ?_ (hleaf _ hlt (by omega))
    rw [Place.parent_dindirect (by omega),
      show (131 + 16384 * o + 128 * k - 131) / 16384 = o by omega,
      show (131 + 16384 * o + 128 * k - 131) % 16384 / 128 = k by omega,
      show (131 + 16384 * o + 128 * k - 131) % 128 = 0 by omega]
  cases p with
  | data l => exact hlive l hp.1
  | ind =>
    refine Owned.live_page hi trivial (hparent (p := .data 3) (k := 0) rfl (hleaf 3 hp (by omega)))
  | dind o =>
    exact Owned.live_page hi trivial
      (hparent (p := .inner o 0) rfl (hinner o 0 (by omega) (by have := hp.2; omega)))
  | inner o k => exact Owned.live_page hi trivial (hinner o k hp.2.1 hp.2.2)

/-- The inodes of a store and of one that agrees with it on the inode area. -/
theorem update_inodeAt_congr (ok : GeomOk g N) (hr : ∀ j ∈ D.inodes, j < inodeCount g)
    (hs : ∀ b, g.bitmapBlockCount < b → b < g.firstDataBlock → s' b = s b) (i : Nat) (ino : Inode) :
    ∀ j ∈ D.inodes, Function.update (inodeAt g s') i ino j = Function.update (inodeAt g s) i ino j := by
  intro j hj
  by_cases hji : j = i
  · rw [hji, update_self, update_self]
  · rw [update_of_ne hji, update_of_ne hji, inodeAt_congr ok (hr j hj) hs]

/-- The inode in memory is written to the store it was grown in. -/
theorem Owned.saveInode (ok : GeomOk g N) (h : Owned g D (Function.update (inodeAt g s) i ino) s')
    (hi : i < inodeCount g) (hs : ∀ b, g.bitmapBlockCount < b → b < g.firstDataBlock → s' b = s b) :
    Owned g D (inodeAt g (Ktfs.setInode g s' i ino)) (Ktfs.setInode g s' i ino) := by
  have hj := update_inodeAt_congr ok h.range hs i ino
  refine Owned.setInode ok hi (h.congr (fun j hj' p => ?_) (fun j hj' => ?_) fun _ hv => hv)
  · rw [hj j hj']
  · rw [hj j hj']

/-- The inode in memory is dropped: the inodes on the disk own their blocks. -/
theorem Owned.dropInode (ok : GeomOk g N) (h : Owned g D (inodeAt g s) s)
    (h' : Owned g D (Function.update (inodeAt g s) i ino) s') (hext : (inodeAt g s i).Ext ino)
    (hs : ∀ b, g.bitmapBlockCount < b → b < g.firstDataBlock → s' b = s b) :
    Owned g D (inodeAt g s') s' := by
  have hrev : Owned g D (inodeAt g s) s' :=
    h.revert h' (fun j _ hj => update_of_ne hj _ _) (by rw [update_self]; exact hext)
  have htab : ∀ j ∈ D.inodes, inodeAt g s' j = inodeAt g s j :=
    fun j hj => inodeAt_congr ok (h.range j hj) hs
  exact hrev.congr (fun j hj p => by rw [htab j hj]) (fun j hj => by rw [htab j hj]) fun _ hv => hv

/-! ## Other files -/

/-- The files whose inodes are not in `C` are untouched: inodes, pointers and data. -/
structure Frame (g : Geom) (D : Scope) (C : Set Nat) (s s' : Nat → Blk) : Prop where
  inode : ∀ j ∈ D.inodes, j ∉ C → inodeAt g s' j = inodeAt g s j
  ptr : ∀ j p, j ∉ C → (j, p) ∈ Live g D (inodeAt g s) s →
    ptr g s' (inodeAt g s j) p = ptr g s (inodeAt g s j) p
  data : ∀ j l, j ∉ C → (j, .data l) ∈ Live g D (inodeAt g s) s →
    s' (dataBlkToPos g (Ktfs.ptr g s (inodeAt g s j) (.data l))) =
      s (dataBlkToPos g (Ktfs.ptr g s (inodeAt g s j) (.data l)))

namespace Frame

variable {C C' : Set Nat} {s'' : Nat → Blk}

theorem refl (s : Nat → Blk) : Frame g D C s s :=
  ⟨fun _ _ _ => rfl, fun _ _ _ _ => rfl, fun _ _ _ _ => rfl⟩

/-- Fewer places count. -/
theorem narrow {D' : Scope} (h : Frame g D C s s') (hin : D'.inodes ⊆ D.inodes)
    (hspare : ∀ i l, D'.spare i l → D.spare i l) : Frame g D' C s s' :=
  ⟨fun j hj hn => h.inode j (hin hj) hn,
    fun j p hn hx => h.ptr j p hn (live_narrow hin hspare hx),
    fun j l hn hx => h.data j l hn (live_narrow hin hspare hx)⟩

/-- The live places of an untouched file stay live. -/
theorem live (h : Frame g D C s s') {j : Nat} (hj : j ∉ C)
    (hx : (j, p) ∈ Live g D (inodeAt g s) s) : (j, p) ∈ Live g D (inodeAt g s') s' := by
  have hino := h.inode j hx.1 hj
  refine ⟨hx.1, ?_, ?_⟩
  · show Ktfs.ptr g s' (inodeAt g s' j) p ≠ 0 ∨ _
    rw [hino, h.ptr j p hj hx]
    exact hx.2.1
  · rw [Counts, hino]
    exact hx.2.2

theorem trans (h : Frame g D C s s') (h' : Frame g D C s' s'') : Frame g D C s s'' where
  inode j hj hn := (h'.inode j hj hn).trans (h.inode j hj hn)
  ptr j p hn hx := by
    have := h'.ptr j p hn (h.live hn hx)
    rw [h.inode j hx.1 hn] at this
    exact this.trans (h.ptr j p hn hx)
  data j l hn hx := by
    have := h'.data j l hn (h.live hn hx)
    rw [h.inode j hx.1 hn, h.ptr j _ hn hx] at this
    exact this.trans (h.data j l hn hx)

/-- An inode is written. -/
theorem setInode (ok : GeomOk g N) (h : Owned g D (inodeAt g s) s)
    (hi : i < inodeCount g) (ino : Inode) : Frame g D {i} s (Ktfs.setInode g s i ino) where
  inode j hj hn := inodeAt_setInode_ne ok hi (h.range j hj) hn ino
  ptr j p _ hx := h.ptr_setInode ok hi ino j hx.1 p
  data _ _ _ hx := setInode_data ok hi (ok.dataBlkToPos_lt (h.usedPtr hx).1).1 ino

end Frame

/-- What stays of a file that grew in memory stays of it as it is on the disk. -/
theorem Grows.drop {W : Set (Nat × Nat)} (hext : (T i).Ext ino)
    (hgrow : Grows g D W T s (Function.update T i ino) s') : Grows g D W T s T s' := by
  refine ⟨?_, hgrow.data, hgrow.inodes⟩
  intro j p hx
  have hptr := (hgrow.live j p hx).2
  have heq : ptr g s' (T j) p = ptr g s (T j) p := by
    by_cases hji : j = i
    · subst hji
      rw [update_self] at hptr
      rw [← hptr]
      refine (hext.ptr_eq (s := s) hx.2.2.place ?_).symm
      rcases hx.2.1 with hne | heq
      · exact .inl hne
      · obtain rfl := (Prod.mk.inj heq).2
        rcases hx.2.2 with hc | hc | ⟨l, hp, hl, -⟩
        · exact hc.elim
        · exact .inr ⟨hc, rfl, id⟩
        · cases hp
          omega
    · rwa [update_of_ne hji] at hptr
  exact ⟨⟨hx.1, by rw [heq]; exact hx.2.1, hx.2.2⟩, heq⟩

/-- What a growing file leaves alone is a frame for the other files. -/
theorem Grows.frame (ok : GeomOk g N) (h : Owned g D (inodeAt g s) s) {W : Set (Nat × Nat)}
    {C : Set Nat} (hgrow : Grows g D W (inodeAt g s) s (inodeAt g s) s')
    (hW : ∀ x ∈ W, x.1 ∈ C) : Frame g D C s s' where
  inode j hj _ := inodeAt_congr ok (h.range j hj) hgrow.inodes
  ptr j p _ hx := (hgrow.live j p hx).2
  data j l hn hx := hgrow.data j l hx fun hm => hn (hW _ hm)

end MiniOs.Ktfs
