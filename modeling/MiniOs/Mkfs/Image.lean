import MiniOs.Mkfs.Layout

/-!
# What the driver finds in an image

The image `main` builds, read as the driver reads a disk: its files own their blocks, the
bitmap is exact, the directory lists the files, and each file has its content.
-/

namespace MiniOs.Mkfs

open Ktfs (Place Inode Geom GeomOk inodeAt inodeCount used ptr rawPtr dataBlkToPos DataPtr UsedPtr
  Scope Live Owned)

variable {L : Layout} {files : List (Name × List UInt8)} {s s' : Nat → Blk} {N : Nat}
  {i j : Nat}

/-! ## Pointers -/

theorem fileSize_lt (h : Laid L files s) (i : Nat) : fileSize files i < 2 ^ 32 := by
  have := h.max i
  rw [blks] at this
  omega

theorem size_inodeFor (h : Laid L files s) (i : Nat) :
    (inodeFor L files i).size.toNat = fileSize files i := by
  show (UInt32.ofNat (fileSize files i)).toNat = _
  rw [UInt32.toNat_ofNat']
  exact Nat.mod_eq_of_lt (fileSize_lt h i)

theorem nblks_inodeFor (h : Laid L files s) (i : Nat) :
    (inodeFor L files i).nblks = blks files i := by
  rw [Inode.nblks, size_inodeFor h, blks]

/-- The blocks of an inode lie below the first free block. -/
theorem base_add_lt_next (hj : j < span (blks files i)) :
    base L files i + j < base L files (files.length + 1) := by
  by_cases hi : i ≤ files.length
  · exact base_add_lt (by omega) hj
  · obtain ⟨i, rfl⟩ : ∃ k, i = k + 1 := ⟨i - 1, by omega⟩
    rw [blks_of_le (by omega), span_zero] at hj
    omega

namespace Laid

section

variable (h : Laid L files s)

include h

/-- The geometry fits every device that has room for the image. -/
theorem geomOk (hN : L.blockCount ≤ N) : GeomOk L.geom N := by
  have hg := h.ok.geomOk h.small
  exact ⟨hg.firstInode, hg.firstData, hg.data, hN, hg.small, hg.bits, hg.bitmap, hg.inodes, hg.root⟩

/-- The block at a slot of a file, as a pointer. -/
theorem toNat_slot (hj : j < span (blks files i)) :
    (UInt32.ofNat (dataRel L (base L files i) + j)).toNat = dataRel L (base L files i) + j := by
  have := base_add_lt_next (L := L) hj
  have := h.fits
  have := h.small
  rw [UInt32.toNat_ofNat', dataRel]
  omega

theorem dataPtr_slot (hj : j < span (blks files i)) :
    DataPtr L.geom (UInt32.ofNat (dataRel L (base L files i) + j)) := by
  have := base_add_lt_next (L := L) hj
  have := h.fits
  have := firstData_le_base L files i
  rw [DataPtr, h.toNat_slot hj, dataRel]
  show L.firstDataBlock + _ < L.blockCount
  omega

theorem dataBlkToPos_slot (hj : j < span (blks files i)) :
    dataBlkToPos L.geom (UInt32.ofNat (dataRel L (base L files i) + j)) = base L files i + j := by
  have := firstData_le_base L files i
  rw [(h.geomOk (Nat.le_refl _)).dataBlkToPos_eq (h.dataPtr_slot hj), h.toNat_slot hj, dataRel]
  show L.firstDataBlock + _ = _
  omega

/-- The pointers of an inode. -/
theorem ptr_eq (i : Nat) (p : Place) :
    ptr L.geom s (inodeFor L files i) p = if p.Within (blks files i)
      then UInt32.ofNat (dataRel L (base L files i) + slot (blks files i) p) else 0 := by
  induction p using Place.parentInduction with
  | top p hp =>
    rw [Ktfs.ptr_top hp]
    by_cases hin : p.InInode
    · exact (h.file i).top p hin
    · cases p with
      | data l => exact absurd (Place.lt_of_parent_none hp) hin
      | ind => exact absurd trivial hin
      | dind o =>
        have ho : ¬ o < 2 := hin
        rw [if_neg fun hw => ho hw.1, Inode.top, Inode.dind, dif_neg ho]
      | inner o k => cases hp
  | child p q k hp ih =>
    rw [Ktfs.ptr_child hp, ih]
    by_cases hq : q.Within (blks files i)
    · have hslot := slot_lt_span hq
      have hne : UInt32.ofNat (dataRel L (base L files i) + slot (blks files i) q) ≠ 0 := by
        intro hz
        have hpos : 0 < slot (blks files i) q := by
          have := Place.isPage_of_parent hp
          cases q with
          | data l => exact this.elim
          | ind => exact Nat.lt_of_le_of_lt (Nat.zero_le 3) hq
          | dind o => rw [slot]; omega
          | inner o k => rw [slot]; omega
        have := h.toNat_slot hslot
        rw [hz, UInt32.toNat_zero] at this
        omega
      rw [if_pos hq, Ktfs.entry_of_ne hne, Ktfs.rawEntry, h.dataBlkToPos_slot hslot]
      by_cases hk : k < 128
      · exact (h.file i).entry p q k hp hq hk
      · rw [Block.word_of_le (by omega), if_neg]
        cases p with
        | data l =>
          have := Place.eq_child_of_parent hp
          simp only [Place.parent] at hp
          split at hp
          · cases hp
          · split at hp <;> cases hp <;> omega
        | ind => cases hp
        | dind o => cases hp
        | inner o k' =>
          cases hp
          exact fun hw => hk hw.2.1
    · rw [if_neg hq, if_neg fun hw => hq (hw.parent hp), Ktfs.entry_zero]

end

end Laid

/-! ## Ownership -/

/-- All inodes, with all their blocks. -/
def allScope (g : Geom) : Scope := ⟨{i | i < inodeCount g}, fun _ _ => True, ∅⟩

namespace Laid

theorem within_of_live (h : Laid L files s) {p : Place}
    (hx : (i, p) ∈ Live L.geom (allScope L.geom) (inodeAt L.geom s) s) :
    p.Within (blks files i) := by
  obtain ⟨hi, hne, -⟩ := hx
  rw [h.inode i hi, h.ptr_eq] at hne
  rcases hne with hne | heq
  · by_contra hw
    exact hne (if_neg hw)
  · obtain ⟨rfl, rfl⟩ := Prod.mk.inj heq
    have hlen : 0 < files.length := List.length_pos_iff.mpr h.nonempty
    refine ⟨?_, by omega⟩
    show 0 < blks files 0
    rw [blks, fileSize]
    omega

/-- Two places that name the same block are the same place. -/
theorem slot_inj (h : Laid L files s) {p q : Place} (hp : p.Within (blks files i))
    (hq : q.Within (blks files j)) (heq : UInt32.ofNat (dataRel L (base L files i) +
      slot (blks files i) p) = UInt32.ofNat (dataRel L (base L files j) + slot (blks files j) q)) :
    i = j ∧ p = q := by
  have hsp := slot_lt_span hp
  have hsq := slot_lt_span hq
  have hnat := congrArg (dataBlkToPos L.geom) heq
  rw [h.dataBlkToPos_slot hsp, h.dataBlkToPos_slot hsq] at hnat
  have hij : i = j := by
    rcases Nat.lt_trichotomy i j with hlt | rfl | hgt
    · have := base_add_lt (L := L) hlt hsp
      omega
    · rfl
    · have := base_add_lt (L := L) hgt hsq
      omega
  subst hij
  exact ⟨rfl, Mkfs.slot_inj hp hq (by omega)⟩

/-- The files of an image own their blocks. -/
theorem owned (h : Laid L files s) :
    Owned L.geom (allScope L.geom) (inodeAt L.geom s) s := by
  have hused : ∀ i (p : Place), p.Within (blks files i) → UsedPtr L.geom s
      (UInt32.ofNat (dataRel L (base L files i) + slot (blks files i) p)) := by
    intro i p hp
    have hslot := slot_lt_span hp
    have hlt := base_add_lt_next (L := L) hslot
    have hb := h.ok.bitmap
    have hfits := h.fits
    refine ⟨h.dataPtr_slot hslot, ?_⟩
    rw [h.dataBlkToPos_slot hslot, h.bits _ (by omega)]
    exact decide_eq_true hlt
  have hptr : ∀ i, i < inodeCount L.geom → ∀ p : Place, p.Within (blks files i) →
      ptr L.geom s (inodeAt L.geom s i) p =
        UInt32.ofNat (dataRel L (base L files i) + slot (blks files i) p) := by
    intro i hi p hp
    rw [h.inode i hi, h.ptr_eq, if_pos hp]
  have hroot : (Place.data 0).Within (blks files 0) := by
    have hlen : 0 < files.length := List.length_pos_iff.mpr h.nonempty
    refine ⟨?_, by omega⟩
    rw [blks, fileSize]
    omega
  refine ⟨fun _ hi => hi, fun i hi => ?_, fun i hi p hp => ?_, ⟨?_, ?_⟩, ?_, fun v hv => hv.elim⟩
  · rw [h.inode i hi, nblks_inodeFor h]
    exact h.max i
  · rw [h.inode i hi, nblks_inodeFor h] at hp
    refine ⟨hi, ?_, .inr (.inl (by rw [h.inode i hi, nblks_inodeFor h]; exact hp))⟩
    -- only the first block of the root is block 0 of the data area
    by_cases hx : (i, p) = (L.geom.rootInodeIdx, .data 0)
    · exact .inr hx
    · refine .inl fun hz => hx ?_
      have hr := hptr 0 (h.geomOk (Nat.le_refl _)).root_lt _ hroot
      have hr0 : UInt32.ofNat (dataRel L (base L files 0) + slot (blks files 0) (.data 0)) = 0 := by
        rw [base, dataRel, Nat.sub_self]
        rfl
      rw [hptr i hi p hp, ← hr0] at hz
      obtain ⟨rfl, rfl⟩ := h.slot_inj hp hroot hz
      rfl
  · rintro ⟨i, p⟩ hx
    have hw := h.within_of_live hx
    show UsedPtr L.geom s (ptr L.geom s (inodeAt L.geom s i) p)
    rw [hptr i hx.1 p hw]
    exact hused i p hw
  · rintro ⟨i, p⟩ hx ⟨j, q⟩ hy heq
    have hp := h.within_of_live hx
    have hq := h.within_of_live hy
    simp only [hptr i hx.1 p hp, hptr j hy.1 q hq] at heq
    obtain ⟨rfl, rfl⟩ := h.slot_inj hp hq heq
    rfl
  · have := hused 0 (.data 0) hroot
    rwa [base, dataRel, Nat.sub_self] at this

/-! ## The directory -/

theorem rootOf_eq (h : Laid L files s) : Ktfs.rootOf L.geom s = inodeFor L files 0 :=
  h.inode 0 (h.geomOk (Nat.le_refl _)).root_lt

/-- The entries of the files: inode `d + 1` for file `d`. -/
theorem directory_eq (h : Laid L files s) : Ktfs.directory L.geom s =
    (List.range files.length).map fun d =>
      Ktfs.mkDentry (d + 1) (asciiBytes (files[d]?.elim [] Prod.fst)) := by
  have hroot := (h.geomOk (Nat.le_refl _)).root_lt
  have hcount : (Ktfs.rootOf L.geom s).size.toNat / 16 = files.length := by
    rw [h.rootOf_eq, size_inodeFor h, fileSize]
    omega
  rw [Ktfs.directory, hcount]
  refine List.map_congr_left fun d hd => ?_
  rw [List.mem_range] at hd
  have hnb : d * 16 / 512 < blks files 0 := by
    rw [blks, fileSize]
    omega
  have hw : (Place.data (d * 16 / 512)).Within (blks files 0) := by
    have := h.rootBlks
    exact ⟨hnb, by omega⟩
  have hslot := slot_lt_span hw
  rw [Ktfs.dentryAt_eq (h.owned.linked hroot) (by rw [h.rootOf_eq, nblks_inodeFor h]; exact hnb),
    h.rootOf_eq, h.ptr_eq, if_pos hw, h.dataBlkToPos_slot hslot, List.getElem?_eq_getElem hd]
  exact (h.dentry d _ (List.getElem?_eq_getElem hd)).2.2

/-- The inodes with blocks are named. -/
theorem named_iff (h : Laid L files s) : Ktfs.Named L.geom s i ↔ i ≤ files.length := by
  rw [Ktfs.Named, h.directory_eq]
  constructor
  · rintro (rfl | ⟨e, he, rfl⟩)
    · exact Nat.zero_le _
    · obtain ⟨d, hd, rfl⟩ := List.mem_map.mp he
      exact List.mem_range.mp hd
  · intro hi
    cases i with
    | zero => exact .inl rfl
    | succ d => exact .inr ⟨_, List.mem_map.mpr ⟨d, List.mem_range.mpr (by omega), rfl⟩, rfl⟩

theorem named_lt (h : Laid L files s) (hi : Ktfs.Named L.geom s i) :
    i < inodeCount L.geom := by
  have := h.named_iff.mp hi
  have := h.count
  have := h.ok.inodes
  show i < 16 * L.inodeBlockCount
  omega

/-! ## The bitmap -/

/-- Every block below the first free one belongs to a file. -/
theorem exists_base (L : Layout) (files : List (Name × List UInt8)) {b : Nat}
    (hlo : L.firstDataBlock ≤ b) :
    ∀ m, b < base L files m → ∃ i, i < m ∧ ∃ j, j < span (blks files i) ∧ b = base L files i + j
  | 0, hb => absurd hb (by rw [base]; omega)
  | m + 1, hb => by
      by_cases hm : b < base L files m
      · obtain ⟨i, hi, j, hj, hbj⟩ := exists_base L files hlo m hm
        exact ⟨i, by omega, j, hj, hbj⟩
      · rw [base] at hb
        exact ⟨m, by omega, b - base L files m, by omega, by omega⟩

/-- A block is marked used when it is metadata or a file refers to it. -/
theorem used_iff (h : Laid L files s) {b : Nat} (hb : b < 4096 * L.bitmapBlockCount) :
    used s b = true ↔ b < L.firstDataBlock ∨ ∃ i p, Ktfs.Refers L.geom s i p ∧
      b = L.firstDataBlock + (rawPtr L.geom s (inodeAt L.geom s i) p).toNat := by
  have hown := h.owned
  have hblk : ∀ i p, Ktfs.Refers L.geom s i p → p.Within (blks files i) ∧ L.firstDataBlock +
      (rawPtr L.geom s (inodeAt L.geom s i) p).toNat = base L files i + slot (blks files i) p := by
    rintro i p ⟨hi, hp⟩
    have hlt := h.named_lt hi
    have hbase := firstData_le_base L files i
    rw [hown.rawPtr_eq hlt hp]
    rw [h.inode i hlt, nblks_inodeFor h] at hp
    refine ⟨hp, ?_⟩
    rw [h.inode i hlt, h.ptr_eq, if_pos hp, h.toNat_slot (slot_lt_span hp), dataRel]
    omega
  rw [h.bits b hb, decide_eq_true_eq]
  constructor
  · intro hlt
    by_cases hmeta : b < L.firstDataBlock
    · exact .inl hmeta
    · obtain ⟨i, hi, j, hj, rfl⟩ := exists_base L files (Nat.not_lt.mp hmeta) _ hlt
      obtain ⟨p, hp, rfl⟩ := exists_slot (h.max i) hj
      have hnamed := h.named_iff.mpr (show i ≤ files.length by omega)
      have hr : Ktfs.Refers L.geom s i p := by
        refine ⟨hnamed, ?_⟩
        rw [h.inode i (h.named_lt hnamed), nblks_inodeFor h]
        exact hp
      exact .inr ⟨i, p, hr, (hblk i p hr).2.symm⟩
  · rintro (hmeta | ⟨i, p, hr, rfl⟩)
    · exact Nat.lt_of_lt_of_le hmeta (firstData_le_base L files _)
    · obtain ⟨hp, heq⟩ := hblk i p hr
      rw [heq]
      exact base_add_lt_next (slot_lt_span hp)

theorem blocksOwned (h : Laid L files s) : Ktfs.BlocksOwned L.geom s :=
  h.owned.blocksOwned fun _ hi => h.named_lt hi

/-- The first block of the root is block 0 of the data area. -/
theorem root_block (h : Laid L files s) : Ktfs.Refers L.geom s 0 (.data 0) ∧
    rawPtr L.geom s (inodeAt L.geom s 0) (.data 0) = 0 := by
  have hnamed := h.named_iff.mpr (Nat.zero_le files.length)
  have hw : (Place.data 0).Within (inodeAt L.geom s 0).nblks := by
    have hlen : 0 < files.length := List.length_pos_iff.mpr h.nonempty
    rw [h.inode 0 (h.named_lt hnamed), nblks_inodeFor h]
    refine ⟨?_, by omega⟩
    rw [blks, fileSize]
    omega
  refine ⟨⟨hnamed, hw⟩, ?_⟩
  rw [Ktfs.rawPtr_top (Place.parent_direct (by omega)), h.inode 0 (h.named_lt hnamed),
    (h.file 0).top _ (show (Place.data 0).InInode from Nat.zero_lt_succ 2), base, dataRel,
    Nat.sub_self]
  exact ite_self 0

end Laid

/-- The bitmap tells exactly which blocks are in use. -/
structure BitmapExact (g : Geom) (s : Nat → Blk) : Prop where
  /-- A bit is set when its block is metadata or belongs to the root or a file below its
  end. -/
  marked : ∀ b, b < 4096 * g.bitmapBlockCount → (used s b = true ↔ b < g.firstDataBlock ∨
    ∃ i p, Ktfs.Refers g s i p ∧ b = g.firstDataBlock + (rawPtr g s (inodeAt g s i) p).toNat)
  /-- Each such block is referenced from one place. -/
  once : ∀ i p j q, Ktfs.Refers g s i p → Ktfs.Refers g s j q →
    rawPtr g s (inodeAt g s i) p = rawPtr g s (inodeAt g s j) q → i = j ∧ p = q
  inArea : ∀ i p, Ktfs.Refers g s i p →
    g.firstDataBlock + (rawPtr g s (inodeAt g s i) p).toNat < g.blockCount
  /-- Block 0 of the data area is the first block of the root. -/
  root : Ktfs.Refers g s g.rootInodeIdx (.data 0) ∧
    rawPtr g s (inodeAt g s g.rootInodeIdx) (.data 0) = 0
  /-- So no pointer of a file is 0. -/
  nonzero : ∀ i p, Ktfs.Refers g s i p → i ≠ g.rootInodeIdx → rawPtr g s (inodeAt g s i) p ≠ 0

theorem Laid.bitmapExact (h : Laid L files s) : BitmapExact L.geom s := by
  have hown := h.blocksOwned
  refine ⟨fun b hb => h.used_iff hb, hown.once, hown.inArea, h.root_block, ?_⟩
  intro i p hr hi hz
  obtain ⟨hr0, hz0⟩ := h.root_block
  exact hi (hown.once i p 0 (.data 0) hr hr0 (hz.trans hz0.symm)).1

/-- The image `main` builds has the size that was asked for, and its bitmap is exact. -/
theorem mkfs_bitmap_exact {size numInodes : Int} {image : Bytes}
    (h : main size numInodes files = .ok image) :
    size = 512 * (Ktfs.geomOf (image.block 512 0)).blockCount ∧
      BitmapExact (Ktfs.geomOf (image.block 512 0)) (image.block 512) := by
  obtain ⟨L, hsize, -, -, h⟩ := main_ok h
  rw [h.geom]
  exact ⟨hsize, h.bitmapExact⟩

/-- A run that completes, as far as evaluation tells. -/
theorem exists_image {r : Except PyError Bytes} (h : r.toBool = true) : ∃ image, r = .ok image := by
  cases r with
  | error e => cases h
  | ok image => exact ⟨image, rfl⟩

/-- An image of eight blocks with one file of a byte. -/
theorem mkfs_bitmap_exact_one_file : ∃ image, main 4096 16 [(['a'], [7])] = .ok image ∧
    BitmapExact (Ktfs.geomOf (image.block 512 0)) (image.block 512) := by
  obtain ⟨image, h⟩ := exists_image (r := main 4096 16 [(['a'], [7])]) (by decide +kernel)
  exact ⟨image, h, (mkfs_bitmap_exact h).2⟩

end MiniOs.Mkfs
