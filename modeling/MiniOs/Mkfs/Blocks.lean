import MiniOs.Mkfs.Model
import MiniOs.Ktfs.Pointers

/-!
# The image as blocks

The builder addresses its image by bytes.  This module reads the image as a store of
blocks, as the driver does, and says what each primitive of the builder does to it.  The
invariant is that of a bump allocator: the blocks below `next_block` are marked used and
no others, and the blocks from it on are empty.  Every method that adds blocks leaves
those it finds (`Appends`).
-/

namespace MiniOs.Mkfs

open Ktfs (used mark)
open Function (update_of_ne)

variable {L : Layout} {img img' img'' : Image} {blk : Nat} {data : Bytes}

/-- The blocks of the image. -/
def store (img : Image) : Nat → Blk := img.image.block 512

/-- A block that starts with the bytes of `data`, and the rest of which is zero. -/
def blockOf (data : Bytes) : Blk := Block.zero.splice 0 data.size data.get

/-! ## Primitives -/

theorem markUsed_ok (h : markUsed L img blk = .ok img') :
    blk / 4096 < L.bitmapBlockCount ∧ ∃ image, img' = { img with image := image } ∧
      image.size = img.image.size ∧ image.block 512 = mark (store img) blk := by
  simp only [markUsed, guard_eq_ok, pure_eq_ok] at h
  obtain ⟨hbmp, -, rfl⟩ := h
  refine ⟨by omega, _, rfl, rfl, ?_⟩
  have hpos : (1 + blk / 8 / 512) * 512 + blk / 8 % 512 =
      512 * (1 + blk / 4096) + blk % 4096 / 8 := by omega
  rw [Bytes.block_setItem hpos (by omega), mark, store, Ktfs.setBit, Bytes.u8_block (by omega),
    hpos, show blk % 4096 % 8 = blk % 8 by omega]

theorem allocBlock_ok (h : allocBlock L img = .ok (blk, img')) :
    blk = img.nextBlock ∧ img.nextBlock < L.blockCount ∧ ∃ image,
      img' = { img with nextBlock := img.nextBlock + 1, image := image } ∧
      image.size = img.image.size ∧ image.block 512 = mark (store img) img.nextBlock := by
  simp only [allocBlock, guard_eq_ok, bind_eq_ok, pure_eq_ok, Prod.mk.injEq] at h
  obtain ⟨hlt, img1, hmark, rfl, rfl⟩ := h
  obtain ⟨-, image, rfl, hsize, hblk⟩ := markUsed_ok hmark
  exact ⟨rfl, by omega, image, rfl, hsize, hblk⟩

theorem writeBlock_ok (h : writeBlock img blk data = .ok img')
    (hsize : 512 * (blk + 1) ≤ img.image.size) :
    ∃ image, img' = { img with image := image } ∧ image.size = img.image.size ∧
      image.block 512 =
        Function.update (store img) blk ((store img blk).splice 0 data.size data.get) := by
  simp only [writeBlock, guard_eq_ok, pure_eq_ok] at h
  obtain ⟨hle, rfl⟩ := h
  refine ⟨_, rfl, Bytes.size_setSlice rfl (by omega), ?_⟩
  exact Bytes.block_setSlice (by omega) rfl (by omega) hsize

/-! ## The bump allocator -/

/-- A layout whose areas follow one another. -/
structure LayoutOk (L : Layout) : Prop where
  bitmap : L.bitmapBlockCount = (L.blockCount + 4095) / 4096
  inodes : L.inodeBlockCount = (L.numInodes + 15) / 16
  firstInode : L.firstInodeBlock = 1 + L.bitmapBlockCount
  firstData : L.firstDataBlock = L.firstInodeBlock + L.inodeBlockCount
  data : L.firstDataBlock < L.blockCount
  root : 1 ≤ L.numInodes

theorem LayoutOk.lt_data (ok : LayoutOk L) : L.bitmapBlockCount < L.firstDataBlock := by
  have := ok.firstInode
  have := ok.firstData
  omega

theorem layoutOf_ok {sizeBytes numInodes : Int} (h : layoutOf sizeBytes numInodes = .ok L) :
    LayoutOk L ∧ sizeBytes = 512 * L.blockCount ∧ numInodes = L.numInodes := by
  simp only [layoutOf, guard_eq_ok, pure_eq_ok] at h
  obtain ⟨hsize, hinodes, hdata, rfl⟩ := h
  refine ⟨⟨rfl, rfl, rfl, rfl, by simpa using hdata, ?_⟩, ?_, ?_⟩
  · show 1 ≤ numInodes.toNat
    omega
  · show sizeBytes = 512 * ((sizeBytes / 512).toNat : Int)
    omega
  · show numInodes = (numInodes.toNat : Int)
    omega

/-- The invariant of the builder. -/
structure Inv (L : Layout) (img : Image) : Prop where
  size : img.image.size = 512 * L.blockCount
  lo : L.firstDataBlock ≤ img.nextBlock
  hi : img.nextBlock ≤ L.blockCount
  bits : ∀ b, b < 4096 * L.bitmapBlockCount → used (store img) b = decide (b < img.nextBlock)
  fresh : ∀ b, img.nextBlock ≤ b → store img b = Block.zero
  inodeArea : ∀ b, L.bitmapBlockCount < b → b < L.firstDataBlock → store img b = Block.zero

/-- What a method that adds blocks to an image leaves. -/
structure Appends (L : Layout) (img img' : Image) : Prop where
  inv : Inv L img'
  next : img.nextBlock ≤ img'.nextBlock
  old : ∀ b, L.bitmapBlockCount < b → b < img.nextBlock → store img' b = store img b
  inodes : img'.inodes = img.inodes
  dentries : img'.dentries = img.dentries
  rootBlocks : img'.rootBlocks = img.rootBlocks

theorem Appends.refl (inv : Inv L img) : Appends L img img :=
  ⟨inv, Nat.le_refl _, fun _ _ _ => rfl, rfl, rfl, rfl⟩

theorem Appends.trans (h : Appends L img img') (h' : Appends L img' img'') :
    Appends L img img'' where
  inv := h'.inv
  next := h.next.trans h'.next
  old b hb hb' := (h'.old b hb (Nat.lt_of_lt_of_le hb' h.next)).trans (h.old b hb hb')
  inodes := h'.inodes.trans h.inodes
  dentries := h'.dentries.trans h.dentries
  rootBlocks := h'.rootBlocks.trans h.rootBlocks

/-- Blocks behind the bitmap are not touched by marking a block. -/
theorem mark_of_lt (ok : LayoutOk L) (s : Nat → Blk) {b c : Nat} (hb : b < L.blockCount)
    (hc : L.bitmapBlockCount < c) : mark s b c = s c := by
  have := ok.bitmap
  exact update_of_ne (by omega) _ _

theorem used_update (s : Nat → Blk) {b c : Nat} (hb : b < 4096 * L.bitmapBlockCount)
    (hc : L.bitmapBlockCount < c) (x : Blk) : used (Function.update s c x) b = used s b := by
  rw [used, update_of_ne (by omega), used]

/-- A block is allocated. -/
theorem Inv.alloc (ok : LayoutOk L) (inv : Inv L img) (h : allocBlock L img = .ok (blk, img')) :
    blk = img.nextBlock ∧ Appends L img img' ∧ img'.nextBlock = img.nextBlock + 1 ∧
      store img' blk = Block.zero := by
  obtain ⟨rfl, hlt, image, rfl, hsize, hblk⟩ := allocBlock_ok h
  have hstore : store { img with nextBlock := img.nextBlock + 1, image := image } =
      mark (store img) img.nextBlock := hblk
  have hlo := inv.lo
  have hdata := ok.lt_data
  have hkeep : ∀ b, L.bitmapBlockCount < b →
      store { img with nextBlock := img.nextBlock + 1, image := image } b = store img b := by
    intro b hb
    rw [hstore, mark_of_lt ok _ hlt hb]
  refine ⟨rfl, ⟨⟨hsize.trans inv.size, by simp only; omega, hlt, ?_, ?_, ?_⟩, by simp only; omega,
    fun b hb _ => hkeep b hb, rfl, rfl, rfl⟩, rfl, ?_⟩
  · intro b hb
    rw [hstore, Ktfs.used_mark, inv.bits b hb, ← Bool.decide_or]
    simp only [decide_eq_decide]
    omega
  · intro b hb
    simp only at hb
    rw [hkeep b (by omega), inv.fresh b (by omega)]
  · intro b hb hb'
    rw [hkeep b hb, inv.inodeArea b hb hb']
  · rw [hkeep _ (by omega), inv.fresh _ (Nat.le_refl _)]

/-- A block of the data area is written. -/
theorem Inv.write (ok : LayoutOk L) (inv : Inv L img) (h : writeBlock img blk data = .ok img')
    (hlo : L.firstDataBlock ≤ blk) (hhi : blk < img.nextBlock) :
    Inv L img' ∧ store img' =
        Function.update (store img) blk ((store img blk).splice 0 data.size data.get) ∧
      img'.nextBlock = img.nextBlock ∧ img'.inodes = img.inodes ∧ img'.dentries = img.dentries ∧
      img'.rootBlocks = img.rootBlocks := by
  have hsz := inv.size
  have hnext := inv.hi
  have hdata := ok.lt_data
  obtain ⟨image, rfl, hsize, hblk⟩ := writeBlock_ok h (by omega)
  have hstore : store { img with image := image } = _ := hblk
  refine ⟨⟨hsize.trans hsz, inv.lo, inv.hi, ?_, ?_, ?_⟩, hstore, rfl, rfl, rfl, rfl⟩
  · intro b hb
    rw [hstore, used_update _ hb (by omega), inv.bits b hb]
  · intro b hb
    simp only at hb
    rw [hstore, update_of_ne (by omega), inv.fresh b hb]
  · intro b hb hb'
    rw [hstore, update_of_ne (by omega), inv.inodeArea b hb hb']

/-- A block is allocated and written. -/
theorem Inv.append (ok : LayoutOk L) (inv : Inv L img)
    (h : allocBlock L img = .ok (blk, img')) (h' : writeBlock img' blk data = .ok img'') :
    blk = img.nextBlock ∧ Appends L img img'' ∧ img''.nextBlock = img.nextBlock + 1 ∧
      store img'' blk = blockOf data := by
  obtain ⟨rfl, happ, hnext, hzero⟩ := inv.alloc ok h
  have hlo := inv.lo
  obtain ⟨inv', hstore, hnext', hi, hd, hr⟩ := happ.inv.write ok h' hlo (by omega)
  refine ⟨rfl, ⟨inv', by omega, ?_, hi.trans happ.inodes, hd.trans happ.dentries,
    hr.trans happ.rootBlocks⟩, by omega, ?_⟩
  · intro b hb hb'
    rw [hstore, update_of_ne (by omega), happ.old b hb hb']
  · rw [hstore, Function.update_self, hzero]
    rfl

/-! ## The new image -/

theorem markLoop_ok : ∀ {n b : Nat} {img img' : Image}, markLoop L n b img = .ok img' →
    ∃ image, img' = { img with image := image } ∧ image.size = img.image.size ∧
      (∀ c, used (image.block 512) c = (used (store img) c || decide (b ≤ c ∧ c < b + n))) ∧
      ∀ c, L.bitmapBlockCount < c → image.block 512 c = store img c
  | 0, b, img, img', h => by
      rw [markLoop, pure_eq_ok] at h
      subst h
      refine ⟨_, rfl, rfl, fun c => ?_, fun _ _ => rfl⟩
      simp [store]
  | n + 1, b, img, img', h => by
      rw [markLoop, bind_eq_ok] at h
      obtain ⟨img1, hmark, hloop⟩ := h
      obtain ⟨hlt, image1, rfl, hsize1, hblk1⟩ := markUsed_ok hmark
      obtain ⟨image, rfl, hsize, hused, hkeep⟩ := markLoop_ok hloop
      refine ⟨image, rfl, hsize.trans hsize1, fun c => ?_, fun c hc => ?_⟩
      · rw [hused, store, hblk1, Ktfs.used_mark, Bool.or_assoc, ← Bool.decide_or]
        congr 2
        apply propext
        omega
      · rw [hkeep c hc, store, hblk1, mark, update_of_ne (by omega)]

/-- The image `Image.__init__` makes. -/
theorem initImage_ok (ok : LayoutOk L) (h : initImage L = .ok img) :
    Inv L img ∧ img.nextBlock = L.firstDataBlock ∧
      img.inodes = List.replicate L.numInodes (.zeros 32) ∧ img.dentries = [] ∧
      img.rootBlocks = [] := by
  obtain ⟨image, rfl, hsize, hused, hkeep⟩ := markLoop_ok h
  have hdata := ok.data
  refine ⟨⟨hsize, Nat.le_refl _, Nat.le_of_lt ok.data, ?_, ?_, ?_⟩, rfl, rfl, rfl, rfl⟩
  · intro b _
    have hblank : used (store (blankImage L)) b = false := by
      rw [used, store, blankImage, Bytes.block_zeros, Ktfs.bitOf, Block.u8_zero]
      simp
    show used (image.block 512) b = _
    rw [hused, hblank, Bool.false_or, decide_eq_decide, Nat.zero_add]
    exact and_iff_right (Nat.zero_le b)
  · intro b hb
    have hlt := ok.lt_data
    show image.block 512 b = _
    simp only [blankImage] at hb
    rw [hkeep b (by omega)]
    rfl
  · intro b hb _
    exact hkeep b hb

end MiniOs.Mkfs
