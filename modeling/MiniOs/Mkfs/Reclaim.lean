import MiniOs.Mkfs.Failures

/-!
# The space a delete gives back

`ktfs_delete` frees the blocks of the direct slots, those named by the indirect page, and
that page.  It does not look at the doubly-indirect pages.  So a file of up to 131 blocks
gives all its space back, and a longer one loses its doubly-indirect pages, their inner
pages and every block they name: the inode that named them is cleared, and their bits stay
set.
-/

namespace MiniOs

variable {name : List UInt8} {v : UInt32}

namespace Ktfs

open Fallible (exec exec_bind_ok)

variable {g : Geom} {N : Nat} {I : Set Nat} {s s' : Nat → Blk}

/-- The places of a file that `ktfs_delete` looks at. -/
def Place.Swept : Place → Prop
  | .data l => l < 131
  | .ind => True
  | .dind _ => False
  | .inner _ _ => False

theorem mem_fileBlocks {ino : Inode} :
    v ∈ fileBlocks g s ino ↔ v ≠ 0 ∧ ∃ p : Place, p.Swept ∧ ptr g s ino p = v := by
  refine and_congr_right fun _ => ⟨?_, ?_⟩
  · rintro (h | ⟨l, hl, h⟩)
    · exact ⟨.ind, trivial, h⟩
    · exact ⟨.data l, hl, h⟩
  · rintro ⟨p, hp, h⟩
    cases p with
    | data l => exact .inr ⟨l, hp, h⟩
    | ind => exact .inl h
    | dind o => exact hp.elim
    | inner o k => exact hp.elim

/-- A file without doubly-indirect pages has no place that is not looked at. -/
theorem Place.Within.swept {nb : Nat} (hnb : nb ≤ 131) : ∀ {p : Place}, p.Within nb → p.Swept
  | .data _, hp => Nat.lt_of_lt_of_le hp.1 hnb
  | .ind, _ => trivial
  | .dind _, hp => absurd hp.2 (by omega)
  | .inner _ _, hp => absurd hp.2.2 (by omega)

/-- `ktfs_delete` of a name that stands for the root clears the root, and then finds no
entry to remove. -/
theorem exec_deleteEntry_root (ok : GeomOk g N)
    (hfind : exec (inRange N) (findDentry g name) s = (.ok g.rootInodeIdx, s)) :
    exec (inRange N) (deleteEntry g name) s = (.error (-ENOENT), cleared N g s g.rootInodeIdx) := by
  unfold deleteEntry
  rw [exec_bind_ok _ _ hfind, exec_bind_ok _ _ (exec_readInode ok ok.root_lt s),
    exec_bind_ok _ _ (Fallible.exec_lift _ _ _),
    exec_bind_ok _ _ (exec_writeInode ok ok.root_lt _ _), ← cleared,
    exec_bind_ok _ _ (exec_readInode ok ok.root_lt _), inodeAt_cleared_self]
  rfl

/-- The bitmap after `ktfs_delete`: the bits of the blocks that are freed are cleared, and
the others are as they were. -/
theorem deleteEntry_bits (ok : GeomOk g N) (h : Whole g I s) (hroot : g.rootInodeIdx ∈ I)
    (h16 : (rootOf g s).size.toNat % 16 = 0) {e : Dentry}
    (he : e ∈ directory g s) (hi : e.inode ∈ I) (hne : e.inode ≠ g.rootInodeIdx)
    (hind : (inodeAt g s e.inode).indirect ≠ 0 → DataPtr g (inodeAt g s e.inode).indirect)
    (hfind : exec (inRange N) (findDentry g name) s = (.ok e.inode, s)) :
    ∃ s', exec (inRange N) (deleteEntry g name) s = (.ok (), s') ∧
      inodeAt g s' e.inode = Inode.zero ∧ ∀ c, c < 4096 * g.bitmapBlockCount →
        (used s' c = true ↔ used s c = true ∧
          ∀ v ∈ fileBlocks g s (inodeAt g s e.inode), c ≠ dataBlkToPos g v) := by
  obtain ⟨s', hexec', hun⟩ := deleteEntry_whole ok h hroot h16 he hi hne hfind
  obtain ⟨k, s1, -, hrem, hexec⟩ := exec_deleteEntry ok h hroot h16 he hi hne hfind
  rw [hexec'] at hexec
  obtain rfl : s' = _ := (Prod.mk.inj hexec).2
  refine ⟨_, hexec', hun.inode, fun c hc => ?_⟩
  -- neither the inodes nor the entries of the root lie in the bitmap
  have hb : 1 + c / 4096 ≤ g.bitmapBlockCount := by omega
  have hsame : used (setInode g s1 g.rootInodeIdx (rootOf g s).pop) c =
      used (Prog.run (inRange N) (freeFile g (inodeAt g s e.inode)) s).2 c := by
    rw [used, used, setInode_bitmap ok ok.root_lt hb,
      hrem.inPlace.bitmap ok (h.cleared ok hi) hroot hb, cleared,
      setInode_bitmap ok (h.range _ hi) hb]
  obtain ⟨F, hF, hexact⟩ := run_freeFile ok (inodeAt g s e.inode) s
  rw [hsame, hF.used c hc, hexact hind]

end Ktfs

namespace Mkfs

open Ktfs Fallible

variable {N : Nat} {g : Geom} {s s' : Nat → Blk}

/-- What should be left of the space of file `i` when it is deleted: its blocks and its
index pages are free, no other bit changed, and its inode is 32 zero bytes. -/
structure SpaceReturned (g : Geom) (s : Nat → Blk) (i : Nat) (s' : Nat → Blk) : Prop where
  freed : ∀ p : Place, p.Within (inodeAt g s i).nblks →
    used s' (dataBlkToPos g (rawPtr g s (inodeAt g s i) p)) = false
  others : ∀ c, c < 4096 * g.bitmapBlockCount →
    (∀ p : Place, p.Within (inodeAt g s i).nblks →
      c ≠ dataBlkToPos g (rawPtr g s (inodeAt g s i) p)) → used s' c = used s c
  inode : inodeAt g s' i = Inode.zero

namespace WellFormed

/-- The blocks `ktfs_delete` frees are those of the places it looks at, all of them below
the end. -/
theorem mem_fileBlocks_iff (h : WellFormed N g s) {i : Nat} (hi : Named g s i)
    (hroot : i ≠ g.rootInodeIdx) : v ∈ fileBlocks g s (inodeAt g s i) ↔
      ∃ p : Place, p.Within (inodeAt g s i).nblks ∧ p.Swept ∧
        rawPtr g s (inodeAt g s i) p = v := by
  have hl := h.whole.linked i hi
  rw [mem_fileBlocks]
  constructor
  · rintro ⟨hv, p, hp, rfl⟩
    have hw : p.Within (inodeAt g s i).nblks := by
      by_contra hw
      exact hv (h.past i hi p hw)
    exact ⟨p, hw, hp, hl.rawPtr_eq hw⟩
  · rintro ⟨p, hw, hp, rfl⟩
    exact ⟨h.bitmap.nonzero i p ⟨hi, hw⟩ hroot, p, hp, (hl.rawPtr_eq hw).symm⟩

/-- The blocks of a file have their bits in the bitmap. -/
theorem bit_lt (h : WellFormed N g s) {i : Nat} (hi : Named g s i) {p : Place}
    (hw : p.Within (inodeAt g s i).nblks) :
    dataBlkToPos g (rawPtr g s (inodeAt g s i) p) < 4096 * g.bitmapBlockCount := by
  have hl := h.whole.linked i hi
  rw [hl.rawPtr_eq hw]
  exact Nat.lt_of_lt_of_le (h.geom.dataBlkToPos_lt (hl.area p hw)).2 h.geom.bits

section Bits

variable {i : Nat} (hbits : ∀ c, c < 4096 * g.bitmapBlockCount → (used s' c = true ↔
  used s c = true ∧ ∀ v ∈ fileBlocks g s (inodeAt g s i), c ≠ dataBlkToPos g v))

include hbits

/-- The first doubly-indirect page is passed over, and no other place names it. -/
theorem used_dind (h : WellFormed N g s) (hi : Named g s i) (hroot : i ≠ g.rootInodeIdx)
    (hw : (Place.dind 0).Within (inodeAt g s i).nblks) :
    used s' (dataBlkToPos g (rawPtr g s (inodeAt g s i) (.dind 0))) = true := by
  have hused := (h.owned.usedPtr (h.owned.within i hi _ hw)).2
  rw [← (h.whole.linked i hi).rawPtr_eq hw] at hused
  refine (hbits _ (h.bit_lt hi hw)).mpr ⟨hused, fun v hv heq => ?_⟩
  obtain ⟨p, hp, hswept, rfl⟩ := (h.mem_fileBlocks_iff hi hroot).mp hv
  obtain ⟨-, rfl⟩ := h.bitmap.once i _ i p ⟨hi, hw⟩ ⟨hi, hp⟩ (dataBlkToPos_inj heq)
  exact hswept

/-- All space is given back when the file has no doubly-indirect page. -/
theorem spaceReturned_iff (h : WellFormed N g s) (hi : Named g s i)
    (hroot : i ≠ g.rootInodeIdx) (hzero : inodeAt g s' i = Inode.zero) :
    SpaceReturned g s i s' ↔ (inodeAt g s i).nblks ≤ 131 := by
  constructor
  · intro hret
    by_contra hlong
    have hw : (Place.dind 0).Within (inodeAt g s i).nblks := ⟨by omega, by omega⟩
    have hkept := h.used_dind hbits hi hroot hw
    rw [hret.freed _ hw] at hkept
    cases hkept
  · intro hshort
    refine ⟨fun p hw => ?_, fun c hc hother => ?_, hzero⟩
    · rw [← Bool.not_eq_true, hbits _ (h.bit_lt hi hw)]
      exact fun hn => hn.2 _ ((h.mem_fileBlocks_iff hi hroot).mpr ⟨p, hw, hw.swept hshort, rfl⟩) rfl
    · rw [Bool.eq_iff_iff, hbits c hc]
      refine and_iff_left fun v hv heq => ?_
      obtain ⟨p, hw, -, rfl⟩ := (h.mem_fileBlocks_iff hi hroot).mp hv
      exact hother p hw heq

end Bits

variable {fs : FlatFs}

/-- A delete that fails returns its error. -/
theorem step_delete_error {e : Int}
    (hexec : exec (inRange N) (deleteEntry g name) fs.store = (.error e, s')) :
    (fs.step N g (.delete name)).1.rc = e := by
  simp only [FlatFs.step, FsOp.prog, Prog.run_bind, ktfsDelete, run_commit_error hexec]
  rfl

/-- What `ktfs_delete` leaves when it returns 0. -/
theorem step_delete_bits (h : WellFormed N g fs.store)
    (hrc : (fs.step N g (.delete name)).1.rc = 0) :
    ∃ i, lookup name (directory g fs.store) = .ok i ∧ Named g fs.store i ∧ i ≠ g.rootInodeIdx ∧
      inodeAt g (fs.next N g (.delete name)).store i = Inode.zero ∧
      ∀ c, c < 4096 * g.bitmapBlockCount →
        (used (fs.next N g (.delete name)).store c = true ↔ used fs.store c = true ∧
          ∀ v ∈ fileBlocks g fs.store (inodeAt g fs.store i), c ≠ dataBlkToPos g v) := by
  have ok := h.geom
  have hw := h.whole
  have hroot : g.rootInodeIdx ∈ {i | Named g fs.store i} := .inl rfl
  have hfind := exec_findDentry ok ((hw.linked _ hroot).readable ok) name
  cases hlook : (directory g fs.store).find? (nameMatches name) with
  | none =>
    rw [lookup, hlook] at hfind
    rw [step_delete_error (exec_deleteEntry_error hfind)] at hrc
    exact absurd hrc (by decide)
  | some e =>
    have he := List.mem_of_find?_eq_some hlook
    have hi : Named g fs.store e.inode := .inr ⟨e, he, rfl⟩
    have hok : lookup name (directory g fs.store) = .ok e.inode := by rw [lookup, hlook]
    rw [hok] at hfind
    by_cases hne : e.inode = g.rootInodeIdx
    · rw [hne] at hfind
      rw [step_delete_error (exec_deleteEntry_root ok hfind)] at hrc
      exact absurd hrc (by decide)
    · obtain ⟨s', hexec, hzero, hbits⟩ := deleteEntry_bits ok hw hroot h.entries he hi hne
        (fun hind => (h.owned.usedPtr_page hi (q := .ind) trivial hind).1) hfind
      have hnext : (fs.next N g (.delete name)).store = s' := by
        simp only [FlatFs.next, FlatFs.step, FsOp.prog, Prog.run_bind, ktfsDelete,
          run_commit_ok hexec]
        rfl
      rw [hnext]
      exact ⟨e.inode, hok, hi, hne, hzero, hbits⟩

end WellFormed

section Calls

variable {σ : Type} {d : Device σ} {content : σ → Nat → Blk}

/-- When `ktfs_delete` returns 0 on a file system as `mkfs` leaves it, all space of the file
is given back if and only if the file has at most 131 blocks. -/
theorem delete_space_iff (rel : Reliable d N content) {m : Mounted σ}
    (hq : m.QuietOn N content g) (h : WellFormed N g (m.flat content).store) {name : List UInt8}
    (hrc : (m.step d (.delete name)).1.rc = 0) :
    ∃ i, lookup name (directory g (m.flat content).store) = .ok i ∧
      Named g (m.flat content).store i ∧
      (SpaceReturned g (m.flat content).store i ((m.next d (.delete name)).flat content).store ↔
        (inodeAt g (m.flat content).store i).nblks ≤ 131) := by
  rw [Mounted.reply_flat rel hq] at hrc
  obtain ⟨i, hlook, hi, hroot, hzero, hbits⟩ := h.step_delete_bits hrc
  rw [(Mounted.next_flat rel m _ hq).1]
  exact ⟨i, hlook, hi, h.spaceReturned_iff hbits hi hroot hzero⟩

/-- The file `b` of the disk with two files is deleted. -/
theorem delete_space_iff_twoFiles : ∃ m, mount (ramDisk 8) twoFiles = .ok m ∧
    (m.step (ramDisk 8) (.delete [98])).1.rc = 0 ∧
    SpaceReturned (geomOf (twoFiles 0)) twoFiles 2
      ((m.next (ramDisk 8) (.delete [98])).flat id).store := by
  obtain ⟨m, hm, hq, hflat, h⟩ := mount_twoFiles
  have hrc : (m.step (ramDisk 8) (.delete [98])).1.rc = 0 := by
    rw [Mounted.reply_flat (ramDisk_reliable 8) hq, hflat]
    decide +kernel
  obtain ⟨i, hlook, -, hiff⟩ := delete_space_iff (ramDisk_reliable 8) hq (by rwa [hflat]) hrc
  rw [hflat] at hlook hiff
  obtain rfl : 2 = i := Except.ok.inj ((show _ = Except.ok 2 by decide +kernel).symm.trans hlook)
  exact ⟨m, hm, hrc, hiff.mpr (by decide +kernel)⟩

/-- A file of 132 blocks. -/
def hugeFile : List (Name × List UInt8) := [(['a'], List.replicate 67073 7)]

theorem main_hugeFile : (main 71680 16 hugeFile).toBool = true := by
  -- the length of the file is taken once
  simp only [hugeFile, main, addFiles, addFile, Bytes.ofList, List.length_replicate]
  decide +kernel

/-- The file of 132 blocks is deleted: its doubly-indirect page stays marked used, and the
inode that named it is cleared. -/
theorem delete_loses_dindirect : ∃ image m, main 71680 16 hugeFile = .ok image ∧
    mount (ramDisk 140) (image.block 512) = .ok m ∧
    (m.step (ramDisk 140) (.delete [97])).1.rc = 0 ∧
    (Place.dind 0).Within (inodeAt m.geom (image.block 512) 1).nblks ∧
    used ((m.next (ramDisk 140) (.delete [97])).flat id).store (dataBlkToPos m.geom
      (rawPtr m.geom (image.block 512) (inodeAt m.geom (image.block 512) 1) (.dind 0))) = true ∧
    inodeAt m.geom ((m.next (ramDisk 140) (.delete [97])).flat id).store 1 = Inode.zero := by
  obtain ⟨image, himage⟩ := exists_image main_hugeFile
  obtain ⟨L', hcount, -, hsize, -⟩ := main_ok himage
  obtain ⟨m, L, hm, hq, hL, hflat, hlaid⟩ := mount_image (ramDisk_reliable 140) himage
    (by omega) (fun b _ => (rfl : id (image.block 512) b = _))
  have hs : (m.flat id).store = image.block 512 := by
    rw [hflat]
    rfl
  have hlaid : Laid L hugeFile (m.flat id).store := by rwa [hs]
  have h := hlaid.wellFormed hL
  have hdir : directory L.geom (m.flat id).store = [mkDentry 1 [97]] := hlaid.directory_eq
  have hnamed : Named L.geom (m.flat id).store 1 := hlaid.named_iff.mpr (Nat.le_refl 1)
  have hdist : Distinct L.geom {i | Named L.geom (m.flat id).store i} (m.flat id).store := by
    refine ⟨h.whole, .inl rfl, h.entries, ?_, ?_, ?_⟩
    all_goals rw [hdir]
    · exact List.pairwise_singleton _ _
    · exact List.nodup_singleton _
    · exact List.forall_mem_singleton.mpr ⟨hnamed, Nat.one_ne_zero⟩
  have hmatch : nameMatches [97] (mkDentry 1 [97]) = true := by decide
  obtain ⟨s', hstep, -⟩ := hdist.delete_present h.geom (by rw [hdir]; exact List.mem_singleton_self _)
    hmatch
  have hrc : ((m.flat id).step 140 L.geom (.delete [97])).1.rc = 0 := by rw [hstep]
  obtain ⟨i, hlook, -, hroot, hzero, hbits⟩ := h.step_delete_bits hrc
  obtain rfl : 1 = i := by
    rw [hdir] at hlook
    exact Except.ok.inj ((show lookup [97] [mkDentry 1 [97]] = .ok 1 by decide).symm.trans hlook)
  have hnb : (inodeAt L.geom (m.flat id).store 1).nblks = 132 := by
    have hsize : fileSize hugeFile 1 = 67073 := List.length_replicate
    rw [hlaid.inode 1 (hlaid.named_lt hnamed), nblks_inodeFor hlaid, blks, hsize]
  have hw : (Place.dind 0).Within (inodeAt L.geom (m.flat id).store 1).nblks := by
    rw [hnb]
    decide
  refine ⟨image, m, himage, hm, ?_⟩
  rw [← hs, hq.2, Mounted.reply_flat (ramDisk_reliable 140) hq,
    (Mounted.next_flat (ramDisk_reliable 140) m _ hq).1]
  exact ⟨hrc, hw, h.used_dind hbits hnamed hroot hw, hzero⟩

end Calls

end Mkfs

end MiniOs
