import MiniOs.Ktfs.Errors

/-!
# The areas of the disk

Behind the superblock lie the bitmap, the inodes and the data area.  This module says
what the driver's accesses to each area do to a flat store, once and for all: reading
and writing an inode, allocating a block, freeing one.  The functions above them are
then read through these equations.
-/

namespace MiniOs.Ktfs

open Fallible (exec exec_bind_ok exec_modifyBlock)
open Function (update_of_ne update_self)

variable {b bmpBlk c i j k : Nat} {v w : UInt32} {held : List Nat}

/-- A geometry whose areas follow one another and fit a store of `N` blocks. -/
structure GeomOk (g : Geom) (N : Nat) : Prop where
  firstInode : g.firstInodeBlock = 1 + g.bitmapBlockCount
  firstData : g.firstDataBlock = 1 + g.bitmapBlockCount + g.inodeBlockCount
  data : g.firstDataBlock < g.blockCount
  fits : g.blockCount ≤ N
  small : g.blockCount < 2 ^ 32
  bits : g.blockCount ≤ 4096 * g.bitmapBlockCount
  bitmap : g.bitmapBlockCount ≤ 2 ^ 20
  inodes : 0 < g.inodeBlockCount
  root : g.rootInodeIdx = 0

/-- The number of inodes. -/
def inodeCount (g : Geom) : Nat := 16 * g.inodeBlockCount

variable {g : Geom} {N : Nat} {s s' : Nat → Blk}

/-! ## Inodes -/

/-- Inode `i` of a store. -/
def inodeAt (g : Geom) (s : Nat → Blk) (i : Nat) : Inode := inodeOf (s (inodeBlk g i)) (i % 16)

/-- A store with inode `i` replaced. -/
def setInode (g : Geom) (s : Nat → Blk) (i : Nat) (ino : Inode) : Nat → Blk :=
  Function.update s (inodeBlk g i) (putInode (s (inodeBlk g i)) (i % 16) ino)

theorem GeomOk.root_lt (ok : GeomOk g N) : g.rootInodeIdx < inodeCount g := by
  have := ok.inodes
  rw [ok.root, inodeCount]
  omega

theorem GeomOk.inodeBlk_eq (ok : GeomOk g N) (hi : i < inodeCount g) :
    inodeBlk g i = 1 + g.bitmapBlockCount + i / 16 := by
  have := ok.firstInode
  have := ok.firstData
  have := ok.data
  have := ok.small
  rw [inodeCount] at hi
  rw [inodeBlk, ok.firstInode]
  omega

/-- The inodes lie before the data area and behind the bitmap. -/
theorem GeomOk.inodeBlk_lt (ok : GeomOk g N) (hi : i < inodeCount g) :
    g.bitmapBlockCount < inodeBlk g i ∧ inodeBlk g i < g.firstDataBlock := by
  rw [ok.inodeBlk_eq hi, ok.firstData]
  rw [inodeCount] at hi
  omega

theorem exec_readInode (ok : GeomOk g N) (hi : i < inodeCount g) (s : Nat → Blk) :
    exec (inRange N) (readInode g i) s = (.ok (inodeAt g s i), s) := by
  have hlt := (ok.inodeBlk_lt hi).2
  have hfit := ok.fits
  have hdata := ok.data
  rw [readInode, exec_bind_ok _ _
    (Fallible.exec_readBlock _ _ (by simp only [inRange, decide_eq_true_eq]; omega) _ _)]
  rfl

theorem exec_writeInode (ok : GeomOk g N) (hi : i < inodeCount g) (ino : Inode)
    (s : Nat → Blk) : exec (inRange N) (writeInode g i ino) s = (.ok (), setInode g s i ino) := by
  have hlt := (ok.inodeBlk_lt hi).2
  have hfit := ok.fits
  have hdata := ok.data
  exact exec_modifyBlock _ _ (by simp only [inRange, decide_eq_true_eq]; omega) _ _ _

theorem inodeAt_setInode_same (i : Nat) (ino : Inode) : inodeAt g (setInode g s i ino) i = ino := by
  rw [inodeAt, setInode, update_self, inodeOf_putInode_same (by omega)]

theorem setInode_self (i : Nat) : setInode g s i (inodeAt g s i) = s := by
  rw [setInode, inodeAt, putInode_self, Function.update_eq_self]

section

variable (ok : GeomOk g N) (hi : i < inodeCount g)

include ok hi

theorem inodeAt_setInode_ne (hj : j < inodeCount g) (hij : j ≠ i) (ino : Inode) :
    inodeAt g (setInode g s i ino) j = inodeAt g s j := by
  rw [inodeAt, inodeAt, setInode]
  by_cases hb : inodeBlk g j = inodeBlk g i
  · rw [hb, update_self]
    rw [ok.inodeBlk_eq hi, ok.inodeBlk_eq hj] at hb
    exact inodeOf_putInode_ne (by omega)
  · rw [update_of_ne hb]

/-- Writing an inode changes the table at that inode. -/
theorem inodeAt_setInode (hj : j < inodeCount g) (ino : Inode) :
    inodeAt g (setInode g s i ino) j = Function.update (inodeAt g s) i ino j := by
  by_cases hij : j = i
  · subst hij
    rw [inodeAt_setInode_same, update_self]
  · rw [inodeAt_setInode_ne ok hi hj hij, update_of_ne hij]

theorem setInode_data (hb : g.firstDataBlock ≤ b) (ino : Inode) : setInode g s i ino b = s b :=
  update_of_ne (by have := (ok.inodeBlk_lt hi).2; omega) _ _

theorem setInode_bitmap (hb : b ≤ g.bitmapBlockCount) (ino : Inode) : setInode g s i ino b = s b :=
  update_of_ne (by have := (ok.inodeBlk_lt hi).1; omega) _ _

/-- Stores that agree on the inode area have the same inodes. -/
theorem inodeAt_congr (h : ∀ b, g.bitmapBlockCount < b → b < g.firstDataBlock → s' b = s b) :
    inodeAt g s' i = inodeAt g s i := by
  obtain ⟨hlo, hhi⟩ := ok.inodeBlk_lt hi
  rw [inodeAt, inodeAt, h _ hlo hhi]

end

/-! ## The bitmap -/

/-- Whether block `b` is marked used. -/
def used (s : Nat → Blk) (b : Nat) : Bool := bitOf (s (1 + b / 4096)) (b % 4096)

/-- A store with block `b` marked used. -/
def mark (s : Nat → Blk) (b : Nat) : Nat → Blk :=
  Function.update s (1 + b / 4096) (setBit (s (1 + b / 4096)) (b % 4096))

/-- A store with block `b` marked free. -/
def unmark (s : Nat → Blk) (b : Nat) : Nat → Blk :=
  Function.update s (1 + b / 4096) (clearBit (s (1 + b / 4096)) (b % 4096))

/-- A byte with bit `k` set. -/
theorem getLsbD_or_bit (v : UInt8) (hk : k < 8) (hj : j < 8) :
    (v ||| (1 <<< UInt8.ofNat k)).toBitVec.getLsbD j = (v.toBitVec.getLsbD j || decide (j = k)) := by
  simp only [UInt8.toBitVec_or, BitVec.getLsbD_or]
  congr 1
  interval_cases k <;> interval_cases j <;> rfl

/-- A byte with bit `k` cleared. -/
theorem getLsbD_and_not_bit (v : UInt8) (hk : k < 8) (hj : j < 8) :
    (v &&& ~~~(1 <<< UInt8.ofNat k)).toBitVec.getLsbD j =
      (v.toBitVec.getLsbD j && !decide (j = k)) := by
  simp only [UInt8.toBitVec_and, BitVec.getLsbD_and]
  congr 1
  interval_cases k <;> interval_cases j <;> rfl

theorem bitOf_setBit (b : Blk) (hj : j < 4096) :
    bitOf (setBit b k) j = (bitOf b j || decide (j = k)) := by
  rw [bitOf, setBit, Block.u8_setU8 (by omega)]
  by_cases hb : j / 8 = k / 8
  · rw [if_pos hb, getLsbD_or_bit _ (by omega) (by omega), bitOf, hb]
    congr 2
    apply propext
    omega
  · rw [if_neg hb, bitOf]
    have hjk : j ≠ k := by omega
    simp [hjk]

theorem bitOf_clearBit (b : Blk) (hj : j < 4096) :
    bitOf (clearBit b k) j = (bitOf b j && !decide (j = k)) := by
  rw [bitOf, clearBit, Block.u8_setU8 (by omega)]
  by_cases hb : j / 8 = k / 8
  · rw [if_pos hb, getLsbD_and_not_bit _ (by omega) (by omega), bitOf, hb]
    congr 3
    apply propext
    omega
  · rw [if_neg hb, bitOf]
    have hjk : j ≠ k := by omega
    simp [hjk]

theorem used_mark (b c : Nat) : used (mark s b) c = (used s c || decide (c = b)) := by
  rw [used, mark]
  by_cases hb : 1 + c / 4096 = 1 + b / 4096
  · rw [hb, update_self, bitOf_setBit _ (by omega), used, hb]
    congr 2
    apply propext
    omega
  · rw [update_of_ne hb, used]
    have hcb : c ≠ b := by
      rintro rfl
      exact hb rfl
    simp [hcb]

theorem used_unmark (b c : Nat) : used (unmark s b) c = (used s c && !decide (c = b)) := by
  rw [used, unmark]
  by_cases hb : 1 + c / 4096 = 1 + b / 4096
  · rw [hb, update_self, bitOf_clearBit _ (by omega), used, hb]
    congr 3
    apply propext
    omega
  · rw [update_of_ne hb, used]
    have hcb : c ≠ b := by
      rintro rfl
      exact hb rfl
    simp [hcb]

/-- Stores that agree on the bitmap mark the same blocks used. -/
theorem used_congr (ok : GeomOk g N) (hb : b < g.blockCount)
    (h : ∀ c, c ≤ g.bitmapBlockCount → s' c = s c) : used s' b = used s b := by
  have := ok.bits
  rw [used, used, h (1 + b / 4096) (by omega)]

/-! ## The data area -/

/-- A block number, counted from the first data block, inside the data area. -/
def DataPtr (g : Geom) (v : UInt32) : Prop := g.firstDataBlock + v.toNat < g.blockCount

instance (g : Geom) (v : UInt32) : Decidable (DataPtr g v) := inferInstanceAs (Decidable (_ < _))

theorem GeomOk.dataBlkToPos_eq (ok : GeomOk g N) (hv : DataPtr g v) :
    dataBlkToPos g v = g.firstDataBlock + v.toNat := by
  have := ok.small
  rw [DataPtr] at hv
  rw [dataBlkToPos]
  omega

theorem GeomOk.inRange_data (ok : GeomOk g N) (hv : DataPtr g v) :
    inRange N (dataBlkToPos g v) = true := by
  have := ok.fits
  rw [ok.dataBlkToPos_eq hv, inRange, decide_eq_true_eq]
  rw [DataPtr] at hv
  omega

/-- The sum wraps, but two pointers never name one block. -/
theorem dataBlkToPos_inj (h : dataBlkToPos g v = dataBlkToPos g w) : v = w := by
  have hv := v.toNat_lt
  have hw := w.toNat_lt
  rw [dataBlkToPos, dataBlkToPos] at h
  exact UInt32.toNat_inj.mp (by omega)

/-- A block of the data area that is marked used. -/
def UsedPtr (g : Geom) (s : Nat → Blk) (v : UInt32) : Prop :=
  DataPtr g v ∧ used s (dataBlkToPos g v) = true

/-- The store `alloc_data_block` leaves when it hands out block `v`: marked used, and
all zero. -/
def allocated (g : Geom) (s : Nat → Blk) (v : UInt32) : Nat → Blk :=
  Function.update (mark s (dataBlkToPos g v)) (dataBlkToPos g v) Block.zero

/-- The store `free_data_block` leaves.  A block without a bit is passed over. -/
def freed (g : Geom) (s : Nat → Blk) (v : UInt32) : Nat → Blk :=
  if g.bitmapBlockCount ≤ dataBlkToPos g v / 4096 then s else unmark s (dataBlkToPos g v)

/-- The areas follow one another and fit a store of `N` blocks, and every block has a
bit. -/
structure Areas (g : Geom) (N : Nat) : Prop where
  firstData : g.firstDataBlock = 1 + g.bitmapBlockCount + g.inodeBlockCount
  data : g.firstDataBlock ≤ g.blockCount
  fits : g.blockCount ≤ N
  small : g.blockCount < 2 ^ 32
  bits : g.blockCount ≤ 4096 * g.bitmapBlockCount

/-- No bit past the first `2 ^ 32` stands, modulo `2 ^ 32`, for a block of data. -/
def NoWrap (g : Geom) : Prop :=
  g.firstDataBlock = g.blockCount ∨ 4096 * g.bitmapBlockCount ≤ 2 ^ 32 + g.firstDataBlock

theorem GeomOk.areas (ok : GeomOk g N) : Areas g N :=
  ⟨ok.firstData, Nat.le_of_lt ok.data, ok.fits, ok.small, ok.bits⟩

theorem GeomOk.noWrap (ok : GeomOk g N) : NoWrap g := by
  have := ok.bitmap
  exact .inr (by omega)

theorem scanBitmap_some {b : Blk} (h : scanBitmap g bmpBlk b = some k) :
    k < 4096 ∧ bitOf b k = false ∧ g.firstDataBlock ≤ (bmpBlk * 4096 + k) % 2 ^ 32 := by
  have hp := List.find?_some h
  have hm := List.mem_of_find?_eq_some h
  simp only [Bool.and_eq_true, Bool.not_eq_true', decide_eq_true_eq] at hp
  exact ⟨List.mem_range.mp hm, hp.1, hp.2⟩

/-- What comes before the bit that is found is used. -/
theorem scanBitmap_minimal {b : Blk} (h : scanBitmap g bmpBlk b = some k)
    (hj : j < k) (hge : g.firstDataBlock ≤ (bmpBlk * 4096 + j) % 2 ^ 32) : bitOf b j = true := by
  obtain ⟨-, i, hi, hki, hmin⟩ := List.find?_eq_some_iff_getElem.mp h
  rw [List.getElem_range] at hki
  subst hki
  have := hmin j hj
  rw [List.getElem_range, decide_eq_true hge, Bool.and_true] at this
  simpa using this

theorem scanBitmap_none {b : Blk} (h : scanBitmap g bmpBlk b = none)
    (hj : j < 4096) (hge : g.firstDataBlock ≤ (bmpBlk * 4096 + j) % 2 ^ 32) : bitOf b j = true := by
  have := List.find?_eq_none.mp h j (List.mem_range.mpr hj)
  rw [decide_eq_true hge, Bool.and_true] at this
  simpa using this

/-- The blocks of the data area that bitmap blocks `lo` up to `hi` stand for are used. -/
def FullIn (g : Geom) (s : Nat → Blk) (lo hi : Nat) : Prop :=
  ∀ b, lo ≤ b / 4096 → b / 4096 < hi → g.firstDataBlock ≤ b → b < g.blockCount → used s b = true

/-- One turn of the loop of `alloc_data_block`, by what the search of the bitmap block
gives. -/
theorem exec_claimBlock (ar : Areas g N) (room : held.length < cacheNent) (s : Nat → Blk)
    (hb : bmpBlk < g.bitmapBlockCount) :
    exec (inRange N) (claimBlock g room bmpBlk) s =
      match scanBitmap g bmpBlk (s (1 + bmpBlk)) with
      | none => (.ok none, s)
      | some k =>
          if g.blockCount ≤ (bmpBlk * 4096 + k) % 2 ^ 32 then (.error (-ENOMEM), s)
          else (.ok (some ((bmpBlk * 4096 + k) % 2 ^ 32)),
            Function.update s (1 + bmpBlk) (setBit (s (1 + bmpBlk)) k)) := by
  have hrange : inRange N (1 + bmpBlk) = true := by
    have := ar.fits
    have := ar.data
    have := ar.firstData
    rw [inRange, decide_eq_true_eq]
    omega
  have heq : exec (inRange N) (claimBlock g room bmpBlk) s = _ :=
    Fallible.exec_withBlock (inRange N) s hrange room (- EIO) _
  rw [Prog.run_load_bind] at heq
  rw [heq]
  cases scanBitmap g bmpBlk (s (1 + bmpBlk)) with
  | none => rfl
  | some k =>
    by_cases hfull : g.blockCount ≤ (bmpBlk * 4096 + k) % 2 ^ 32
    · simp only [if_pos hfull]
      rfl
    · simp only [if_neg hfull]
      rfl

/-- One bitmap block gives the first free block of the data area it stands for, gives
nothing, or ends the search. -/
theorem exec_claimBlock_cases (ar : Areas g N) (nw : NoWrap g) (room : held.length < cacheNent)
    (s : Nat → Blk) (hb : bmpBlk < g.bitmapBlockCount) :
    (exec (inRange N) (claimBlock g room bmpBlk) s = (.error (-ENOMEM), s) ∧
      FullIn g s bmpBlk g.bitmapBlockCount) ∨
    (exec (inRange N) (claimBlock g room bmpBlk) s = (.ok none, s) ∧
      FullIn g s bmpBlk (bmpBlk + 1)) ∨
    ∃ b, g.firstDataBlock ≤ b ∧ b < g.blockCount ∧ used s b = false ∧
      (∀ c, bmpBlk ≤ c / 4096 → g.firstDataBlock ≤ c → c < b → used s c = true) ∧
      exec (inRange N) (claimBlock g room bmpBlk) s = (.ok (some b), mark s b) := by
  have hsmall := ar.small
  have hnum : ∀ c, c / 4096 = bmpBlk → c < g.blockCount →
      (bmpBlk * 4096 + c % 4096) % 2 ^ 32 = c := by omega
  rw [exec_claimBlock ar room s hb]
  cases hscan : scanBitmap g bmpBlk (s (1 + bmpBlk)) with
  | none =>
    refine .inr (.inl ⟨rfl, fun c hlo hhi hge hlt => ?_⟩)
    have hdiv : c / 4096 = bmpBlk := by omega
    rw [used, hdiv]
    exact scanBitmap_none hscan (by omega) (by rw [hnum c hdiv hlt]; exact hge)
  | some k =>
    obtain ⟨hk, hbit, hge⟩ := scanBitmap_some hscan
    -- what the search has passed
    have hpast : ∀ c, bmpBlk ≤ c / 4096 → c < bmpBlk * 4096 + k → g.firstDataBlock ≤ c →
        c < g.blockCount → used s c = true := by
      intro c hlo hlt hge hlt'
      have hdiv : c / 4096 = bmpBlk := by omega
      rw [used, hdiv]
      exact scanBitmap_minimal hscan (by omega) (by rw [hnum c hdiv hlt']; exact hge)
    have hle : (bmpBlk * 4096 + k) % 2 ^ 32 ≤ bmpBlk * 4096 + k := Nat.mod_le _ _
    dsimp only
    by_cases hfull : g.blockCount ≤ (bmpBlk * 4096 + k) % 2 ^ 32
    · rw [if_pos hfull]
      exact .inl ⟨rfl, fun c hlo _ hge hlt => hpast c hlo (by omega) hge hlt⟩
    · rw [if_neg hfull]
      have hno : (bmpBlk * 4096 + k) % 2 ^ 32 = bmpBlk * 4096 + k := by
        rcases nw with nw | nw <;> omega
      rw [hno] at hge hfull ⊢
      have hdiv : (bmpBlk * 4096 + k) / 4096 = bmpBlk := by omega
      have hmod : (bmpBlk * 4096 + k) % 4096 = k := by omega
      refine .inr (.inr ⟨bmpBlk * 4096 + k, hge, by omega, ?_,
        fun c hlo hge hlt => hpast c hlo hlt hge (by omega), ?_⟩)
      · rw [used, hdiv, hmod, hbit]
      · rw [mark, hdiv, hmod]

/-- The loop of `alloc_data_block` hands out the first free block of the data area, or
finds none and leaves the store as it is. -/
theorem exec_allocLoop (ar : Areas g N) (nw : NoWrap g) (room : held.length < cacheNent)
    (s : Nat → Blk) : ∀ n bmpBlk, bmpBlk + n = g.bitmapBlockCount →
      (exec (inRange N) (allocLoop g room n bmpBlk) s = (.error (-ENOMEM), s) ∧
        FullIn g s bmpBlk g.bitmapBlockCount) ∨
      ∃ b, g.firstDataBlock ≤ b ∧ b < g.blockCount ∧ used s b = false ∧
        (∀ c, bmpBlk ≤ c / 4096 → g.firstDataBlock ≤ c → c < b → used s c = true) ∧
        exec (inRange N) (allocLoop g room n bmpBlk) s =
          (.ok (UInt32.ofNat (b - g.firstDataBlock)), Function.update (mark s b) b Block.zero)
  | 0, _, _ => .inl ⟨rfl, fun _ _ _ _ _ => by omega⟩
  | n + 1, bmpBlk, hn => by
      unfold allocLoop
      obtain ⟨he, hfull⟩ | ⟨hnone, hfull⟩ | ⟨b, hge, hlt, hfree, hmin, hsome⟩ :=
        exec_claimBlock_cases ar nw room s (show bmpBlk < g.bitmapBlockCount by omega)
      · exact .inl ⟨Fallible.exec_bind_error _ _ he, hfull⟩
      · rw [exec_bind_ok _ _ hnone]
        obtain ⟨he, hrest⟩ | ⟨b, hge, hlt, hfree, hmin, hsome⟩ :=
          exec_allocLoop ar nw room s n (bmpBlk + 1) (by omega)
        · refine .inl ⟨he, fun c hlo hhi => ?_⟩
          by_cases hnext : c / 4096 < bmpBlk + 1
          · exact hfull c hlo hnext
          · exact hrest c (by omega) hhi
        · refine .inr ⟨b, hge, hlt, hfree, fun c hlo hge hcb => ?_, hsome⟩
          by_cases hnext : c / 4096 < bmpBlk + 1
          · exact hfull c hlo hnext hge (by omega)
          · exact hmin c (by omega) hge hcb
      · have hr : inRange N b = true := decide_eq_true (Nat.lt_of_lt_of_le hlt ar.fits)
        refine .inr ⟨b, hge, hlt, hfree, hmin, ?_⟩
        rw [exec_bind_ok _ _ hsome]
        simp only
        rw [exec_bind_ok _ _ (exec_modifyBlock _ _ hr _ _ _)]
        rfl

/-- No block of the data area is free. -/
def Full (g : Geom) (s : Nat → Blk) : Prop := ∀ v, DataPtr g v → UsedPtr g s v

theorem full_of_used (ok : GeomOk g N)
    (h : ∀ b, b < g.blockCount → g.firstDataBlock ≤ b → used s b = true) : Full g s := by
  intro v hv
  refine ⟨hv, ?_⟩
  rw [ok.dataBlkToPos_eq hv]
  exact h _ hv (Nat.le_add_right _ _)

/-- `alloc_data_block` hands out a block of the data area that was free, or there is none
and it leaves the store as it is. -/
theorem exec_allocDataBlock (ok : GeomOk g N) (room : held.length < cacheNent) (s : Nat → Blk) :
    (exec (inRange N) (allocDataBlock g room) s = (.error (-ENOMEM), s) ∧ Full g s) ∨
    ∃ v, DataPtr g v ∧ used s (dataBlkToPos g v) = false ∧
      exec (inRange N) (allocDataBlock g room) s = (.ok v, allocated g s v) := by
  obtain ⟨he, hfull⟩ | ⟨b, hge, hlt, hfree, -, hsome⟩ :=
    exec_allocLoop ok.areas ok.noWrap room s g.bitmapBlockCount 0 (Nat.zero_add _)
  · refine .inl ⟨he, full_of_used ok fun b hlt hge => ?_⟩
    have := ok.bits
    exact hfull b (Nat.zero_le _) (by omega) hge hlt
  · have hsmall := ok.small
    have hval : (UInt32.ofNat (b - g.firstDataBlock)).toNat = b - g.firstDataBlock := by
      rw [UInt32.toNat_ofNat']
      omega
    have hv : DataPtr g (UInt32.ofNat (b - g.firstDataBlock)) := by
      rw [DataPtr, hval]
      omega
    have hpos : dataBlkToPos g (UInt32.ofNat (b - g.firstDataBlock)) = b := by
      rw [ok.dataBlkToPos_eq hv, hval]
      omega
    refine .inr ⟨_, hv, by rw [hpos, hfree], ?_⟩
    rw [allocated, hpos]
    exact hsome

/-- What `free_data_block` returns is not looked at by its callers. -/
theorem exec_freeDataBlock (ok : GeomOk g N)
    (room : held.length < cacheNent) (v : UInt32) (s : Nat → Blk) :
    (exec (inRange N) (freeDataBlock g room v) s).2 = freed g s v := by
  unfold freeDataBlock freed
  simp only [Nat.div_div_eq_div_mul, Nat.reduceMul]
  rw [← dataBlkToPos]
  by_cases hb : g.bitmapBlockCount ≤ dataBlkToPos g v / 4096
  · rw [if_pos hb, if_pos hb]
    rfl
  · have hrange : inRange N (1 + dataBlkToPos g v / 4096) = true := by
      have := ok.fits
      have := ok.data
      have := ok.firstData
      rw [inRange, decide_eq_true_eq]
      omega
    rw [if_neg hb, if_neg hb, exec_modifyBlock _ _ hrange]
    rfl

/-! ## What an allocation, a release and a write of data change -/

section

variable (ok : GeomOk g N)

include ok

/-- The bit of a block of the disk lies in the bitmap. -/
theorem GeomOk.bitmapBlk_le (hb : b < g.blockCount) :
    1 + b / 4096 ≤ g.bitmapBlockCount := by
  have := ok.bits
  omega

theorem GeomOk.dataBlkToPos_lt (hv : DataPtr g v) :
    g.firstDataBlock ≤ dataBlkToPos g v ∧ dataBlkToPos g v < g.blockCount := by
  rw [ok.dataBlkToPos_eq hv]
  rw [DataPtr] at hv
  omega

theorem usedPtr_congr (h : ∀ c, c ≤ g.bitmapBlockCount → s' c = s c) (v : UInt32) :
    UsedPtr g s' v ↔ UsedPtr g s v :=
  and_congr_right fun hv => by rw [used_congr ok (ok.dataBlkToPos_lt hv).2 h]

/-- A block of the data area does not lie in the bitmap. -/
theorem GeomOk.bitmap_lt_data (hv : DataPtr g v) :
    g.bitmapBlockCount < dataBlkToPos g v := by
  have := (ok.dataBlkToPos_lt hv).1
  have := ok.firstData
  omega

theorem used_update_data (hv : DataPtr g v) (x : Blk)
    (hc : c < g.blockCount) : used (Function.update s (dataBlkToPos g v) x) c = used s c := by
  apply used_congr ok hc
  intro b hb
  have := ok.bitmap_lt_data hv
  exact update_of_ne (by omega) _ _

theorem usedPtr_update_data (hv : DataPtr g v) (x : Blk) :
    UsedPtr g (Function.update s (dataBlkToPos g v) x) w ↔ UsedPtr g s w :=
  and_congr_right fun hw => by rw [used_update_data ok hv x (ok.dataBlkToPos_lt hw).2]

end

theorem allocated_self (v : UInt32) : allocated g s v (dataBlkToPos g v) = Block.zero :=
  update_self _ _ _

section

variable (ok : GeomOk g N) (hv : DataPtr g v)

include ok hv

theorem allocated_of_lt
    (hb : g.bitmapBlockCount < b) (hne : b ≠ dataBlkToPos g v) : allocated g s v b = s b := by
  have := ok.bitmapBlk_le (ok.dataBlkToPos_lt hv).2
  rw [allocated, update_of_ne hne, mark, update_of_ne (by omega)]

theorem used_allocated (hc : c < g.blockCount) :
    used (allocated g s v) c = (used s c || decide (c = dataBlkToPos g v)) := by
  rw [allocated, used_update_data ok hv _ hc, used_mark]

theorem usedPtr_allocated (hw : UsedPtr g s w) : UsedPtr g (allocated g s v) w := by
  refine ⟨hw.1, ?_⟩
  rw [used_allocated ok hv (ok.dataBlkToPos_lt hw.1).2, hw.2, Bool.true_or]

theorem usedPtr_allocated_self :
    UsedPtr g (allocated g s v) v := by
  refine ⟨hv, ?_⟩
  rw [used_allocated ok hv (ok.dataBlkToPos_lt hv).2, decide_eq_true rfl, Bool.or_true]

end

/-! ## Blocks that were taken -/

/-- The blocks in `A`, which were free, are marked used, and no other bit changes. -/
structure Taken (g : Geom) (A : Set UInt32) (s s' : Nat → Blk) : Prop where
  free : ∀ v ∈ A, DataPtr g v ∧ used s (dataBlkToPos g v) = false
  bits : ∀ c, c < 4096 * g.bitmapBlockCount →
    (used s' c = true ↔ used s c = true ∨ ∃ v ∈ A, c = dataBlkToPos g v)

namespace Taken

variable {A A' : Set UInt32} {s'' : Nat → Blk}

/-- The bitmap stays. -/
theorem same (h : ∀ b, 0 < b → b ≤ g.bitmapBlockCount → s' b = s b) : Taken g ∅ s s' := by
  refine ⟨fun v hv => hv.elim, fun c hc => ?_⟩
  rw [used, used, h (1 + c / 4096) (by omega) (by omega)]
  exact ⟨.inl, fun hu => hu.resolve_right fun ⟨_, hv, _⟩ => hv.elim⟩

theorem refl (s : Nat → Blk) : Taken g ∅ s s := same fun _ _ _ => rfl

theorem data (ok : GeomOk g N) (hv : DataPtr g v) (x : Blk) :
    Taken g ∅ s (Function.update s (dataBlkToPos g v) x) :=
  same fun b _ hb => update_of_ne (by have := ok.bitmap_lt_data hv; omega) _ _

theorem allocated (ok : GeomOk g N) (hv : DataPtr g v)
    (hfree : used s (dataBlkToPos g v) = false) : Taken g {v} s (Ktfs.allocated g s v) := by
  refine ⟨?_, fun c hc => ?_⟩
  · rintro w rfl
    exact ⟨hv, hfree⟩
  · have hlt := ok.bitmap_lt_data hv
    rw [Ktfs.allocated, used, update_of_ne (by omega), ← used, used_mark]
    simp

theorem trans (h : Taken g A s s') (h' : Taken g A' s' s'') (ok : GeomOk g N) :
    Taken g (A ∪ A') s s'' := by
  have hlt : ∀ v, DataPtr g v → dataBlkToPos g v < 4096 * g.bitmapBlockCount := fun v hv =>
    Nat.lt_of_lt_of_le (ok.dataBlkToPos_lt hv).2 ok.bits
  refine ⟨fun v hv => hv.elim (h.free v) fun hv => ?_, fun c hc => ?_⟩
  · obtain ⟨hd, hf⟩ := h'.free v hv
    refine ⟨hd, ?_⟩
    rw [← Bool.not_eq_true] at hf ⊢
    exact fun hu => hf ((h.bits _ (hlt v hd)).mpr (.inl hu))
  · rw [h'.bits c hc, h.bits c hc]
    constructor
    · rintro ((hu | ⟨v, hv, hcv⟩) | ⟨v, hv, hcv⟩)
      · exact .inl hu
      · exact .inr ⟨v, .inl hv, hcv⟩
      · exact .inr ⟨v, .inr hv, hcv⟩
    · rintro (hu | ⟨v, hv | hv, hcv⟩)
      · exact .inl (.inl hu)
      · exact .inl (.inr ⟨v, hv, hcv⟩)
      · exact .inr ⟨v, hv, hcv⟩

/-- A block that is taken changes the bitmap. -/
theorem bitmap_ne (ok : GeomOk g N) (h : Taken g A s s') (hA : A.Nonempty) :
    ¬ ∀ b, b ≤ g.bitmapBlockCount → s' b = s b := by
  intro hsame
  obtain ⟨v, hv⟩ := hA
  obtain ⟨hd, hf⟩ := h.free v hv
  have hlt := (ok.dataBlkToPos_lt hd).2
  have hu := (h.bits _ (Nat.lt_of_lt_of_le hlt ok.bits)).mpr (.inr ⟨v, hv, rfl⟩)
  rw [used_congr ok hlt hsame, hf] at hu
  cases hu

/-- Nothing is taken from a full disk. -/
theorem eq_empty (h : Taken g A s s') (hs : Full g s) : A = ∅ := by
  refine Set.eq_empty_of_forall_notMem fun v hv => ?_
  obtain ⟨hd, hf⟩ := h.free v hv
  rw [(hs v hd).2] at hf
  cases hf

/-- Where there was a free block and there is none, some were taken. -/
theorem nonempty (ok : GeomOk g N) (h : Taken g A s s') (hs : ¬ Full g s) (hs' : Full g s') :
    A.Nonempty := by
  rw [Full, not_forall] at hs
  obtain ⟨v, hs⟩ := hs
  rw [Classical.not_imp] at hs
  have hu := (h.bits _ (Nat.lt_of_lt_of_le (ok.dataBlkToPos_lt hs.1).2 ok.bits)).mp (hs' v hs.1).2
  rcases hu with hu | ⟨w, hw, -⟩
  · exact absurd ⟨hs.1, hu⟩ hs.2
  · exact ⟨w, hw⟩

end Taken

/-- Freeing a block changes the bitmap only. -/
theorem freed_of_lt (v : UInt32) (hb : g.bitmapBlockCount < b) :
    freed g s v b = s b := by
  rw [freed]
  split
  · rfl
  · rw [unmark, update_of_ne (by omega)]

theorem used_freed (v : UInt32) (hc : c < 4096 * g.bitmapBlockCount) :
    used (freed g s v) c = (used s c && !decide (c = dataBlkToPos g v)) := by
  rw [freed]
  split
  · have hne : c ≠ dataBlkToPos g v := by
      rintro rfl
      omega
    simp [hne]
  · exact used_unmark _ _

end MiniOs.Ktfs
