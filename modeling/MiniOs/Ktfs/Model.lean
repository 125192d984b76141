import MiniOs.Ktfs.Format

/-!
# The KTFS driver (`ktfs.c`)

Each function of the driver is a block program.  A block it holds is named by its
number, so `cache_get_block(g_cache, n * KTFS_BLKSZ, &blk)` is a hold of block `n`.
The globals `ktfs_mount` sets are a `Geom`, the table `g_open_files` is a `Files`,
and both are passed explicitly.  The value of an `int` function is its error code or
its outputs; `ino` is returned by a function that changes the inode its caller
passed.  32-bit sums that may wrap are reduced modulo `2 ^ 32`.
-/

namespace MiniOs.Ktfs

open Fallible (withBlock readBlock modifyBlock attempt orFail)

/-- A driver function that holds `held`. -/
abbrev KProg (held : List Nat) := Prog Nat Blk cacheNent held

/-- A driver function that returns an error code, and holds `held`. -/
abbrev K (held : List Nat) := Fallible Nat Blk cacheNent held

/-! ## Inodes and data blocks -/

/-- `data_blk_to_pos`, as the number of the block. -/
def dataBlkToPos (g : Geom) (rel : UInt32) : Nat := (g.firstDataBlock + rel.toNat) % 2 ^ 32

/-- The number of the block of inode `i`. -/
def inodeBlk (g : Geom) (i : Nat) : Nat := (g.firstInodeBlock + i / 16) % 2 ^ 32

/-- `read_inode`. -/
def readInode (g : Geom) (i : Nat) : K [] Inode := do
  let blk ← readBlock (inodeBlk g i) (by decide) (- EIO)
  return inodeOf blk (i % 16)

/-- `write_inode`. -/
def writeInode (g : Geom) (i : Nat) (ino : Inode) : K [] Unit :=
  modifyBlock (inodeBlk g i) (by decide) (- EIO) fun blk => putInode blk (i % 16) ino

/-! ## The bitmap -/

/-- Bit `k` of a bitmap block. -/
def bitOf (b : Blk) (k : Nat) : Bool := (b.u8 (k / 8)).toBitVec.getLsbD (k % 8)

/-- A bitmap block with bit `k` set. -/
def setBit (b : Blk) (k : Nat) : Blk :=
  b.setU8 (k / 8) (b.u8 (k / 8) ||| (1 <<< UInt8.ofNat (k % 8)))

/-- A bitmap block with bit `k` cleared. -/
def clearBit (b : Blk) (k : Nat) : Blk :=
  b.setU8 (k / 8) (b.u8 (k / 8) &&& ~~~(1 <<< UInt8.ofNat (k % 8)))

/-- The loops over the bytes and bits of one bitmap block: the first clear bit that
stands for a block at or past the first data block.  A byte of ones holds none. -/
def scanBitmap (g : Geom) (bmpBlk : Nat) (b : Blk) : Option Nat :=
  (List.range 4096).find? fun k =>
    !bitOf b k && decide (g.firstDataBlock ≤ (bmpBlk * 4096 + k) % 2 ^ 32)

/-- One turn of the loop of `alloc_data_block`: the first free block that bitmap block
`bmpBlk` stands for is marked used. -/
def claimBlock {held : List Nat} (g : Geom) (room : held.length < cacheNent) (bmpBlk : Nat) :
    K held (Option Nat) :=
  withBlock (1 + bmpBlk) room (- EIO) do
    let bmp ← .load (1 + bmpBlk) (by simp)
    match scanBitmap g bmpBlk bmp with
    | none => return (none, .ok none)
    | some k =>
        let blkNum := (bmpBlk * 4096 + k) % 2 ^ 32
        if g.blockCount ≤ blkNum then return (none, .error (-ENOMEM))
        else return (some (setBit bmp k), .ok (some blkNum))

/-- The loop of `alloc_data_block` from bitmap block `bmpBlk` on, `n` blocks. -/
def allocLoop {held : List Nat} (g : Geom) (room : held.length < cacheNent) :
    (n bmpBlk : Nat) → K held UInt32
  | 0, _ => throw (-ENOMEM)
  | n + 1, bmpBlk => do
      match ← claimBlock g room bmpBlk with
      | none => allocLoop g room n (bmpBlk + 1)
      | some blkNum =>
          modifyBlock blkNum room (- EIO) fun _ => Block.zero
          return UInt32.ofNat (blkNum - g.firstDataBlock)

/-- `alloc_data_block`. -/
def allocDataBlock {held : List Nat} (g : Geom) (room : held.length < cacheNent) : K held UInt32 :=
  allocLoop g room g.bitmapBlockCount 0

/-- `free_data_block`. -/
def freeDataBlock {held : List Nat} (g : Geom) (room : held.length < cacheNent) (rel : UInt32) :
    K held Unit := do
  let blkNum := (g.firstDataBlock + rel.toNat) % 2 ^ 32
  let bmpBlk := blkNum / 8 / 512
  if g.bitmapBlockCount ≤ bmpBlk then throw (-EINVAL)
  modifyBlock (1 + bmpBlk) room (- EIO) fun bmp => clearBit bmp (blkNum % 4096)

/-! ## Logical blocks -/

/-- `resolve_block`. -/
def resolveBlock (g : Geom) (ino : Inode) (logical : Nat) : K [] UInt32 := do
  if logical < 3 then
    return ino.direct logical
  let logical := logical - 3
  if logical < 128 then
    let iblk ← readBlock (dataBlkToPos g ino.indirect) (by decide) (- EIO)
    return iblk.word logical
  let logical := logical - 128
  if 128 * 128 * 2 ≤ logical then throw (-EINVAL)
  let whichDind := logical / (128 * 128)
  let intoDind := logical % (128 * 128)
  let dblk ← readBlock (dataBlkToPos g (ino.dind whichDind)) (by decide) (- EIO)
  let iblk ← readBlock (dataBlkToPos g (dblk.word (intoDind / 128))) (by decide) (- EIO)
  return iblk.word (intoDind % 128)

/-- Entry `k` of the index page `page`.  An entry that is 0 gets a new block when
`alloc` is set, while the page is held. -/
def entryOrAlloc (g : Geom) (page : UInt32) (k : Nat) (alloc : Bool) : K [] UInt32 :=
  withBlock (dataBlkToPos g page) (by decide) (- EIO) do
    let arr ← .load (dataBlkToPos g page) (by simp)
    if arr.word k ≠ 0 then return (none, .ok (arr.word k))
    if !alloc then return (none, .error (-EINVAL))
    match ← (allocDataBlock g (by simp)).run with
    | .error rc => return (none, .error rc)
    | .ok newBlk =>
        let arr ← .load (dataBlkToPos g page) (by simp)
        return (some (arr.setWord k newBlk), .ok newBlk)

/-- A pointer of the inode to an index page, or a new page when it is 0 and `alloc` is
set. -/
def pageOrAlloc (g : Geom) (page : UInt32) (alloc : Bool) : K [] UInt32 := do
  if page ≠ 0 then return page
  if !alloc then throw (-EINVAL)
  allocDataBlock g (by decide)

/-- `resolve_or_alloc`: the data block and the inode. -/
def resolveOrAlloc (g : Geom) (ino : Inode) (logical : Nat) (alloc : Bool) :
    K [] (UInt32 × Inode) := do
  let allocatedBlocks := (ino.size.toNat + 511) % 2 ^ 32 / 512
  if logical < 3 then
    if logical < allocatedBlocks then return (ino.direct logical, ino)
    if !alloc then throw (-EINVAL)
    let newBlk ← allocDataBlock g (by decide)
    let ino := ino.setDirect logical newBlk
    -- the block counts as allocated from here on
    if ino.size.toNat < (logical + 1) * 512 then
      return (newBlk, { ino with size := UInt32.ofNat ((logical + 1) * 512) })
    return (newBlk, ino)
  let logical := logical - 3
  if logical < 128 then
    let page ← pageOrAlloc g ino.indirect alloc
    let ino := { ino with indirect := page }
    let out ← entryOrAlloc g ino.indirect logical alloc
    return (out, ino)
  let logical := logical - 128
  if 128 * 128 * 2 ≤ logical then throw (-EINVAL)
  let whichDind := logical / (128 * 128)
  let intoDind := logical % (128 * 128)
  let whichInd := intoDind / 128
  let page ← pageOrAlloc g (ino.dind whichDind) alloc
  let ino := ino.setDind whichDind page
  let _ ← entryOrAlloc g (ino.dind whichDind) whichInd alloc
  -- the page is fetched again to read the pointer back
  let dblk ← readBlock (dataBlkToPos g (ino.dind whichDind)) (by decide) (- EIO)
  let out ← entryOrAlloc g (dblk.word whichInd) (intoDind % 128) alloc
  return (out, ino)

/-! ## The directory -/

/-- The loop that compares a name with the name of a directory entry, from byte `i` on,
`n` bytes. -/
def nameLoop (a b : Nat → UInt8) : (n i : Nat) → Bool
  | 0, _ => true
  | n + 1, i =>
      if a i ≠ b i then false
      else if a i = 0 then true
      else nameLoop a b n (i + 1)

/-- Whether a directory entry has the name. -/
def nameMatches (name : List UInt8) (e : Dentry) : Bool := nameLoop e.char (cstr name) 14 0

/-- The loop of `find_dentry` from entry `d` on, `n` entries. -/
def findDentryLoop (g : Geom) (root : Inode) (name : List UInt8) : (n d : Nat) → K [] Nat
  | 0, _ => throw (-ENOENT)
  | n + 1, d => do
      let byteOff := d * 16
      let blk ← orFail (resolveBlock g root (byteOff / 512 % 2 ^ 32)) (- EIO)
      let dblk ← readBlock (dataBlkToPos g blk) (by decide) (- EIO)
      let e := dentryOf dblk (byteOff % 512)
      if nameMatches name e then return e.inode
      findDentryLoop g root name n (d + 1)

/-- `find_dentry`. -/
def findDentry (g : Geom) (name : List UInt8) : K [] Nat := do
  let root ← readInode g g.rootInodeIdx
  findDentryLoop g root name (root.size.toNat / 16) 0

/-! ## Open files -/

/-- `struct ktfs_file`. -/
structure KtfsFile where
  inodeIdx : Nat
  /-- Cached `inode.size`. -/
  size : UInt32
  inUse : Bool

/-- `KTFS_MAX_OPEN`. -/
abbrev ktfsMaxOpen : Nat := 16

/-- A pointer to an open file. -/
abbrev Fd := Fin ktfsMaxOpen

/-- `g_open_files`. -/
abbrev Files := Fd → KtfsFile

/-- No file is open. -/
def noFiles : Files := fun _ => ⟨0, 0, false⟩

/-- `ktfs_mount`, after `create_cache`: what it keeps of the superblock. -/
def ktfsMount : K [] Geom := do
  let sb ← readBlock 0 (by decide) (- EIO)
  return geomOf sb

/-- The result of a call: its value, the file it opened, the bytes it read and the end
it reported. -/
structure Reply where
  rc : Int
  fd : Option Fd := none
  data : List UInt8 := []
  endPos : Option Nat := none

/-- `ktfs_open`. -/
def ktfsOpen (g : Geom) (files : Files) (name : List UInt8) : KProg [] (Reply × Files) := do
  match ← (findDentry g name).run with
  | .error rc => return ({ rc := rc }, files)
  | .ok inodeIdx =>
      match (List.finRange ktfsMaxOpen).find? fun f => !(files f).inUse with
      | none => return ({ rc := -ENOMEM }, files)
      | some f =>
          match ← (readInode g inodeIdx).run with
          | .error rc => return ({ rc := rc }, files)
          | .ok ino =>
              return ({ rc := 0, fd := some f }, Function.update files f ⟨inodeIdx, ino.size, true⟩)

/-- `ktfs_close`. -/
def ktfsClose (files : Files) (f : Fd) : Files :=
  Function.update files f { files f with inUse := false }

/-- The loop of `ktfs_readat`: the bytes copied from `copied` on. -/
def readLoop (g : Geom) (ino : Inode) (pos len : Nat) : (fuel copied : Nat) → K [] (List UInt8)
  | 0, _ => return []
  | fuel + 1, copied => do
      if len ≤ copied then return []
      let byteOff := (pos + copied) % 2 ^ 64
      let dataBlk ← resolveBlock g ino (byteOff / 512 % 2 ^ 32)
      let blkOff := byteOff % 512
      let chunk := min (512 - blkOff) (len - copied)
      let blk ← readBlock (dataBlkToPos g dataBlk) (by decide) (- EIO)
      let rest ← readLoop g ino pos len fuel (copied + chunk)
      return (List.range chunk).map (fun j => blk.u8 (blkOff + j)) ++ rest

/-- `ktfs_readat`. -/
def ktfsReadat (g : Geom) (files : Files) (f : Fd) (pos : Nat) (len : Int) : KProg [] Reply := do
  if len ≤ 0 then return { rc := 0 }
  if (files f).size.toNat ≤ pos then return { rc := 0 }
  let avail := (files f).size.toNat - pos
  let len := min len.toNat avail
  let r ← (do
    let ino ← readInode g (files f).inodeIdx
    readLoop g ino pos len len 0 : K [] (List UInt8)).run
  match r with
  | .error rc => return { rc := rc }
  | .ok data => return { rc := len, data := data }

/-- The loop of `ktfs_writeat`.  `buf j` is byte `j` of the caller's buffer. -/
def writeLoop (g : Geom) (pos : Nat) (buf : Nat → UInt8) (len : Nat) :
    (fuel copied : Nat) → Inode → K [] Inode
  | 0, _, ino => return ino
  | fuel + 1, copied, ino => do
      if len ≤ copied then return ino
      let byteOff := (pos + copied) % 2 ^ 64
      let (dataBlk, ino) ← resolveOrAlloc g ino (byteOff / 512 % 2 ^ 32) true
      let blkOff := byteOff % 512
      let chunk := min (512 - blkOff) (len - copied)
      modifyBlock (dataBlkToPos g dataBlk) (by decide) (- EIO) fun blk =>
        blk.splice blkOff chunk fun j => buf (copied + j)
      writeLoop g pos buf len fuel (copied + chunk) ino

/-- The end of a call that changes an inode: it is written, and then the cache is
flushed. -/
def saveInode (g : Geom) (i : Nat) (ino : Inode) (onErr onOk : Reply × Files) :
    KProg [] (Reply × Files) := do
  match ← (writeInode g i ino).run with
  | .error _ => return onErr
  | .ok () =>
      let _ ← .flush
      return onOk

/-- `ktfs_writeat`. -/
def ktfsWriteat (g : Geom) (files : Files) (f : Fd) (pos : Nat) (buf : Nat → UInt8) (len : Int) :
    KProg [] (Reply × Files) := do
  if len ≤ 0 then return ({ rc := 0 }, files)
  let r ← (do
    let ino ← readInode g (files f).inodeIdx
    writeLoop g pos buf len.toNat len.toNat 0 ino : K [] Inode).run
  match r with
  | .error rc => return ({ rc := rc }, files)
  | .ok ino =>
      let newSize := (pos + len.toNat) % 2 ^ 64
      let grows := ino.size.toNat < newSize
      let ino := if grows then { ino with size := UInt32.ofNat newSize } else ino
      let files := if grows then Function.update files f { files f with size := ino.size } else files
      saveInode g (files f).inodeIdx ino ({ rc := - EIO }, files) ({ rc := len }, files)

/-- The commands of `ktfs_cntl` and their argument, `none` for a null pointer. -/
inductive Ioctl where
  | getBlksz
  | getEnd (arg : Option Unit)
  | setEnd (arg : Option Nat)
  | other

/-- The loop of a shrinking `IOCTL_SETEND` that frees the blocks from `lb` on, `n`
blocks.  What cannot be resolved is passed over. -/
def freeLoop (g : Geom) (ino : Inode) : (n lb : Nat) → KProg [] Unit
  | 0, _ => return ()
  | n + 1, lb => do
      match ← (resolveOrAlloc g ino lb false).run with
      | .error _ => pure ()
      | .ok (blk, _) =>
          let _ ← (freeDataBlock g (by decide) blk : K [] Unit).run
      freeLoop g ino n (lb + 1)

/-- What a shrinking `IOCTL_SETEND` does before it writes the inode: the tail of the last
block that stays is cleared, the blocks after it are freed. -/
def shrink (g : Geom) (ino : Inode) (newSize : Nat) : KProg [] Unit := do
  let oldLastBlk := (ino.size.toNat + 511) / 512
  let newLastBlk := (newSize + 511) / 512
  if newSize % 512 ≠ 0 ∧ 0 < newLastBlk then
    match ← (resolveOrAlloc g ino (newLastBlk - 1) false).run with
    | .error _ => pure ()
    | .ok (blk, _) =>
        let _ ← (modifyBlock (dataBlkToPos g blk) (by decide) (- EIO) fun b =>
          b.splice (newSize % 512) (512 - newSize % 512) fun _ => 0 : K [] Unit).run
  freeLoop g ino (oldLastBlk - newLastBlk) newLastBlk

/-- `ktfs_cntl`. -/
def ktfsCntl (g : Geom) (files : Files) (f : Fd) : Ioctl → KProg [] (Reply × Files)
  | .getBlksz => return ({ rc := 1 }, files)
  | .getEnd none => return ({ rc := -EINVAL }, files)
  | .getEnd (some ()) => return ({ rc := 0, endPos := some (files f).size.toNat }, files)
  | .setEnd none => return ({ rc := -EINVAL }, files)
  | .setEnd (some newSize) => do
      if 0xFFFFFFFF < newSize then return ({ rc := -EINVAL }, files)
      match ← (readInode g (files f).inodeIdx).run with
      | .error _ => return ({ rc := - EIO }, files)
      | .ok ino =>
          if newSize < ino.size.toNat then shrink g ino newSize
          let ino := { ino with size := UInt32.ofNat newSize }
          saveInode g (files f).inodeIdx ino ({ rc := - EIO }, files) ({ rc := 0 },
            Function.update files f { files f with size := UInt32.ofNat newSize })
  | .other => return ({ rc := -ENOTSUP }, files)

/-! ## Creating and deleting files -/

/-- The loop of `find_free_inode` over the inodes of one block: the first one whose
bytes are all zero, the root apart. -/
def scanInodes (g : Geom) (blk : Nat) (b : Blk) : Option Nat :=
  ((List.range 16).find? fun i =>
    decide ((blk * 16 + i) % 2 ^ 16 ≠ g.rootInodeIdx) &&
      (List.range 32).all fun k => b.u8 (32 * i + k) == 0).map
    fun i => (blk * 16 + i) % 2 ^ 16

/-- The loop of `find_free_inode` from inode block `blk` on, `n` blocks. -/
def findFreeLoop (g : Geom) : (n blk : Nat) → K [] Nat
  | 0, _ => throw (-ENOMEM)
  | n + 1, blk => do
      let b ← readBlock ((g.firstInodeBlock + blk) % 2 ^ 32) (by decide) (- EIO)
      match scanInodes g blk b with
      | some i => return i
      | none => findFreeLoop g n (blk + 1)

/-- `find_free_inode`. -/
def findFreeInode (g : Geom) : K [] Nat := findFreeLoop g g.inodeBlockCount 0

/-- The end of `ktfs_create`: a directory entry is appended. -/
def appendDentry (g : Geom) (newInode : Nat) (name : List UInt8) : K [] Unit := do
  let root ← readInode g g.rootInodeIdx
  let dentNo := root.size.toNat / 16
  let (dataBlk, root) ← resolveOrAlloc g root (dentNo * 16 / 512) true
  modifyBlock (dataBlkToPos g dataBlk) (by decide) (- EIO) fun blk =>
    putDentry blk (dentNo * 16 % 512) newInode name
  writeInode g g.rootInodeIdx { root with size := root.size + 16 }

/-- `ktfs_create` up to the flush. -/
def createEntry (g : Geom) (name : List UInt8) : K [] Unit := do
  let nlen := min name.length 14
  if nlen = 0 ∨ 13 < nlen then throw (-EINVAL)
  match ← attempt (findDentry g name) with
  | .ok _ => throw (-EINVAL)
  | .error _ => pure ()
  let newInode ← findFreeInode g
  writeInode g newInode Inode.zero
  appendDentry g newInode name

/-- The error code of a change of the directory, or 0 after a flush. -/
def commit (change : K [] Unit) : KProg [] Reply := do
  match ← change.run with
  | .error rc => return { rc := rc }
  | .ok () =>
      let _ ← .flush
      return { rc := 0 }

/-- `ktfs_create`. -/
def ktfsCreate (g : Geom) (name : List UInt8) : KProg [] Reply := commit (createEntry g name)

/-- The loop of `ktfs_delete` over the direct blocks from `k` on, `n` of them. -/
def freeDirect (g : Geom) (ino : Inode) : (n k : Nat) → KProg [] Unit
  | 0, _ => return ()
  | n + 1, k => do
      if ino.direct k ≠ 0 then
        let _ ← (freeDataBlock g (by decide) (ino.direct k) : K [] Unit).run
      freeDirect g ino n (k + 1)

/-- The loop of `ktfs_delete` over the entries of the held index page from `k` on, `n`
of them. -/
def freeEntries (g : Geom) (page : Nat) : (n k : Nat) → KProg [page] Unit
  | 0, _ => return ()
  | n + 1, k => do
      let arr ← .load page (by simp)
      if arr.word k ≠ 0 then
        let _ ← (freeDataBlock g (by simp) (arr.word k) : K [page] Unit).run
      freeEntries g page n (k + 1)

/-- The blocks of a file that `ktfs_delete` frees. -/
def freeFile (g : Geom) (ino : Inode) : KProg [] Unit := do
  freeDirect g ino 3 0
  if ino.indirect ≠ 0 then
    let page := dataBlkToPos g ino.indirect
    let _ ← (withBlock page (by decide) (- EIO) (do
      freeEntries g page 128 0
      return (none, .ok ())) : K [] Unit).run
    let _ ← (freeDataBlock g (by decide) ino.indirect : K [] Unit).run

/-- The loop of `ktfs_delete` that looks for the directory entry of an inode, from entry
`i` on, `n` entries.  What cannot be read is passed over. -/
def findInodeLoop (g : Geom) (root : Inode) (target : Nat) : (n i : Nat) → KProg [] (Option Nat)
  | 0, _ => return none
  | n + 1, i => do
      let off := i * 16
      let r ← (do
        let (blk, _) ← resolveOrAlloc g root (off / 512 % 2 ^ 32) false
        let d ← readBlock (dataBlkToPos g blk) (by decide) (- EIO)
        return (dentryOf d (off % 512)).inode : K [] Nat).run
      match r with
      | .ok inode => if inode = target then return some i else findInodeLoop g root target n (i + 1)
      | .error _ => findInodeLoop g root target n (i + 1)

/-- The last directory entry moves to the place of entry `found`. -/
def moveLast (g : Geom) (root : Inode) (total found : Nat) : K [] Unit := do
  let lastoff := (total - 1) * 16
  let (lblk, _) ← orFail (resolveOrAlloc g root (lastoff / 512 % 2 ^ 32) false) (- EIO)
  let d ← readBlock (dataBlkToPos g lblk) (by decide) (- EIO)
  let fndoff := found * 16
  let (fblk, _) ← orFail (resolveOrAlloc g root (fndoff / 512 % 2 ^ 32) false) (- EIO)
  modifyBlock (dataBlkToPos g fblk) (by decide) (- EIO) fun fd =>
    fd.splice (fndoff % 512) 16 fun j => d.u8 (lastoff % 512 + j)

/-- `ktfs_delete` up to the flush. -/
def deleteEntry (g : Geom) (name : List UInt8) : K [] Unit := do
  let target ← findDentry g name
  let ino ← readInode g target
  let _ ← liftM (freeFile g ino)
  writeInode g target Inode.zero
  let root ← readInode g g.rootInodeIdx
  let total := root.size.toNat / 16
  match ← liftM (findInodeLoop g root target total 0) with
  | none => throw (-ENOENT)
  | some found =>
      if found ≠ total - 1 then moveLast g root total found
      writeInode g g.rootInodeIdx { root with size := root.size - 16 }

/-- `ktfs_delete`. -/
def ktfsDelete (g : Geom) (name : List UInt8) : KProg [] Reply := commit (deleteEntry g name)

/-- `ktfs_flush`. -/
def ktfsFlush : KProg [] Reply := do
  let rc ← .flush
  return { rc := rc }

/-! ## The calls of the driver -/

/-- A call, with its arguments. -/
inductive FsOp where
  | «open» (name : List UInt8)
  | close (f : Fd)
  | readat (f : Fd) (pos : Nat) (len : Int)
  | writeat (f : Fd) (pos : Nat) (buf : Nat → UInt8) (len : Int)
  | cntl (f : Fd) (cmd : Ioctl)
  | create (name : List UInt8)
  | delete (name : List UInt8)
  | flush

/-- The block program of a call. -/
def FsOp.prog (g : Geom) (files : Files) : FsOp → KProg [] (Reply × Files)
  | .open name => ktfsOpen g files name
  | .close f => return ({ rc := 0 }, ktfsClose files f)
  | .readat f pos len => do
      let r ← ktfsReadat g files f pos len
      return (r, files)
  | .writeat f pos buf len => ktfsWriteat g files f pos buf len
  | .cntl f cmd => ktfsCntl g files f cmd
  | .create name => do
      let r ← ktfsCreate g name
      return (r, files)
  | .delete name => do
      let r ← ktfsDelete g name
      return (r, files)
  | .flush => do
      let r ← ktfsFlush
      return (r, files)

end MiniOs.Ktfs
