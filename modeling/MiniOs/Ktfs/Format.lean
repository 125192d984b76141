import MiniOs.Cache.Programs

/-!
# The on-disk format (`ktfs.h`)

A block is 512 bytes (`KTFS_BLKSZ`).  An inode is 32 bytes (`KTFS_INOSZ`), eight
words, so 16 inodes lie in a block.  A directory entry is 16 bytes (`KTFS_DENSZ`), an
inode number of 16 bits and a name of 14 bytes, at most 13 (`KTFS_MAX_FILENAME_LEN`)
of them before the terminator.  An index page is 128 block numbers
(`KTFS_PTRS_PER_BLOCK`).  Block numbers in inodes and index pages count from the
first data block.
-/

namespace MiniOs.Ktfs

/-- `struct ktfs_inode`. -/
@[ext] structure Inode where
  /-- Size in bytes. -/
  size : UInt32
  flags : UInt32
  /-- Direct block indices. -/
  block : Fin 3 → UInt32
  /-- Indirect block index. -/
  indirect : UInt32
  /-- Doubly-indirect block indices. -/
  dindirect : Fin 2 → UInt32
deriving DecidableEq

namespace Inode

/-- The inode of 32 zero bytes. -/
def zero : Inode := ⟨0, 0, fun _ => 0, 0, fun _ => 0⟩

/-- Direct block index `l`. -/
def direct (ino : Inode) (l : Nat) : UInt32 := if h : l < 3 then ino.block ⟨l, h⟩ else 0

/-- Doubly-indirect block index `o`. -/
def dind (ino : Inode) (o : Nat) : UInt32 := if h : o < 2 then ino.dindirect ⟨o, h⟩ else 0

/-- The inode with direct block index `l` replaced. -/
def setDirect (ino : Inode) (l : Nat) (v : UInt32) : Inode :=
  { ino with block := fun k => if k.1 = l then v else ino.block k }

/-- The inode with doubly-indirect block index `o` replaced. -/
def setDind (ino : Inode) (o : Nat) (v : UInt32) : Inode :=
  { ino with dindirect := fun k => if k.1 = o then v else ino.dindirect k }

/-- The inode as eight words. -/
def word (ino : Inode) : Nat → UInt32
  | 0 => ino.size
  | 1 => ino.flags
  | 2 => ino.direct 0
  | 3 => ino.direct 1
  | 4 => ino.direct 2
  | 5 => ino.indirect
  | 6 => ino.dind 0
  | 7 => ino.dind 1
  | _ => 0

/-- The number of blocks of a file of this size, `ceil(size / 512)`. -/
def nblks (ino : Inode) : Nat := (ino.size.toNat + 511) / 512

end Inode

/-- Inode `m` of an inode block. -/
def inodeOf (b : Blk) (m : Nat) : Inode where
  size := b.word (8 * m)
  flags := b.word (8 * m + 1)
  block k := b.word (8 * m + 2 + k)
  indirect := b.word (8 * m + 5)
  dindirect k := b.word (8 * m + 6 + k)

/-- An inode block with inode `m` replaced. -/
def putInode (b : Blk) (m : Nat) (ino : Inode) : Blk := b.setWords (8 * m) 8 ino.word

/-- `struct ktfs_dir_entry`. -/
structure Dentry where
  inode : Nat
  name : Fin 14 → UInt8
deriving DecidableEq

/-- Byte `j` of the name. -/
def Dentry.char (e : Dentry) (j : Nat) : UInt8 := if h : j < 14 then e.name ⟨j, h⟩ else 0

/-- The directory entry at byte `off` of a block. -/
def dentryOf (b : Blk) (off : Nat) : Dentry := ⟨b.half off, fun j => b.u8 (off + 2 + j)⟩

/-- A C string as its characters before the terminator, which is read back as 0. -/
def cstr (name : List UInt8) (j : Nat) : UInt8 := name.getD j 0

/-- The bytes of a directory entry. -/
def dentByte (inode : Nat) (name : List UInt8) : Nat → UInt8
  | 0 => UInt8.ofNat inode
  | 1 => UInt8.ofNat (inode / 256)
  | j + 2 => cstr name j

/-- A directory block with the entry at byte `off` replaced. -/
def putDentry (b : Blk) (off inode : Nat) (name : List UInt8) : Blk :=
  b.splice off 16 (dentByte inode name)

/-- What `ktfs_mount` keeps of the superblock, with the sums it makes of it. -/
structure Geom where
  blockCount : Nat
  bitmapBlockCount : Nat
  inodeBlockCount : Nat
  rootInodeIdx : Nat
  firstInodeBlock : Nat
  firstDataBlock : Nat
deriving DecidableEq

/-- The geometry a superblock describes. -/
def geomOf (sb : Blk) : Geom :=
  let bitmap := (sb.word 1).toNat
  let inodes := (sb.word 2).toNat
  let firstInode := (1 + bitmap) % 2 ^ 32
  { blockCount := (sb.word 0).toNat
    bitmapBlockCount := bitmap
    inodeBlockCount := inodes
    rootInodeIdx := sb.half 12
    firstInodeBlock := firstInode
    firstDataBlock := (firstInode + inodes) % 2 ^ 32 }

/-! ## Inodes -/

variable {ino : Inode}

theorem inodeOf_putInode_same {b : Blk} {m : Nat} (h : m < 16) :
    inodeOf (putInode b m ino) m = ino := by
  have hw : ∀ j, j < 8 → (putInode b m ino).word (8 * m + j) = ino.word j := by
    intro j hj
    rw [putInode, Block.word_setWords (by omega) (by omega) (by omega)]
    congr 1
    omega
  have h0 := hw 0 (by omega)
  rw [Nat.add_zero] at h0
  obtain ⟨size, flags, block, indirect, dindirect⟩ := ino
  simp only [inodeOf, Inode.mk.injEq]
  refine ⟨h0, hw 1 (by omega), ?_, hw 5 (by omega), ?_⟩
  · funext k
    fin_cases k
    · exact hw 2 (by omega)
    · exact hw 3 (by omega)
    · exact hw 4 (by omega)
  · funext k
    fin_cases k
    · exact hw 6 (by omega)
    · exact hw 7 (by omega)

theorem inodeOf_putInode_ne {b : Blk} {m k : Nat} (h : k ≠ m) :
    inodeOf (putInode b m ino) k = inodeOf b k := by
  have hw : ∀ j, j < 8 → (putInode b m ino).word (8 * k + j) = b.word (8 * k + j) := by
    intro j hj
    rw [putInode, Block.word_setWords_of_not (by omega)]
  have h0 := hw 0 (by omega)
  rw [Nat.add_zero] at h0
  simp only [inodeOf, Inode.mk.injEq]
  refine ⟨h0, hw 1 (by omega), ?_, hw 5 (by omega), ?_⟩
  · funext j
    rw [Nat.add_assoc, hw (2 + j) (by omega)]
  · funext j
    rw [Nat.add_assoc, hw (6 + j) (by omega)]

/-- An inode that is there already. -/
theorem putInode_self (b : Blk) (m : Nat) : putInode b m (inodeOf b m) = b := by
  apply Block.setWords_self
  intro j hj
  match j with
  | 0 => rfl
  | 1 => rfl
  | 2 => rfl
  | 3 => rfl
  | 4 => rfl
  | 5 => rfl
  | 6 => rfl
  | 7 => rfl

@[simp] theorem inodeOf_zero (m : Nat) : inodeOf (Block.zero : Blk) m = Inode.zero := by
  simp [inodeOf, Inode.zero]

end MiniOs.Ktfs
