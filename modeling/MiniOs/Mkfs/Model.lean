import MiniOs.Base.Python

/-!
# The image builder (`mkfs_ktfs.py`)

`main` builds an image in memory and writes it out.  Its result is the bytes of the
image, or the exception that ended it.  The methods of `Image` take the image and return
it.  A file is its name and its content, in place of the path that is opened, and the
sizes are integers, in place of the text `parse_size` reads; what is printed is left out.
-/

namespace MiniOs.Mkfs

/-- The exceptions that end a run, with their message where the program gives one. -/
inductive PyError where
  | valueError (msg : String)
  | runtimeError (msg : String)
  | systemExit (msg : String)
  | structError
  | indexError
  | unicodeEncodeError

/-- A name, as its characters. -/
abbrev Name := List Char

/-- What `Image.__init__` computes and no method changes. -/
structure Layout where
  blockCount : Nat
  numInodes : Nat
  bitmapBlockCount : Nat
  inodeBlockCount : Nat
  firstInodeBlock : Nat
  firstDataBlock : Nat

/-- `class Image`, apart from its layout. -/
structure Image where
  image : Bytes
  inodes : List Bytes
  nextBlock : Nat
  /-- Inode numbers and names. -/
  dentries : List (Nat × Name)
  /-- Absolute block numbers. -/
  rootBlocks : List Nat

/-! ## Packing -/

/-- A value packed as `I`. -/
def packI (v : Nat) : Except PyError UInt32 :=
  if v < 2 ^ 32 then return UInt32.ofNat v else throw .structError

/-- `struct.pack` of words. -/
def packWords (vs : List Nat) : Except PyError Bytes := do
  let ws ← vs.mapM packI
  return Bytes.ofWords ws

/-- `struct.pack_into("<I", buf, off, v)`. -/
def packInto (buf : Bytes) (off v : Nat) : Except PyError Bytes := do
  let w ← packI v
  if buf.size < off + 4 then throw .structError
  return buf.setSlice off (off + 4) (Bytes.ofWords [w])

/-- A value packed as `H`. -/
def packH (v : Nat) : Except PyError Bytes :=
  if v < 2 ^ 16 then return Bytes.ofHalf v else throw .structError

/-- `struct.pack_into("<H", buf, off, v)`. -/
def packIntoH (buf : Bytes) (off v : Nat) : Except PyError Bytes := do
  let h ← packH v
  if buf.size < off + 2 then throw .structError
  return buf.setSlice off (off + 2) h

/-- `name.encode("ascii")`. -/
def encodeAscii (name : Name) : Except PyError (List UInt8) :=
  name.mapM fun c => if c.toNat < 128 then return UInt8.ofNat c.toNat else throw .unicodeEncodeError

/-! ## Blocks -/

/-- `Image._mark_used`. -/
def markUsed (L : Layout) (img : Image) (blk : Nat) : Except PyError Image := do
  let byteIdx := blk / 8
  let bit := blk % 8
  let bmpBlk := byteIdx / 512
  let bmpOff := byteIdx % 512
  if L.bitmapBlockCount ≤ bmpBlk then throw (.runtimeError s!"block {blk} outside bitmap range")
  let pos := (1 + bmpBlk) * 512 + bmpOff
  if img.image.size ≤ pos then throw .indexError
  return { img with
    image := img.image.setItem pos (img.image.get pos ||| (1 <<< UInt8.ofNat bit)) }

/-- `Image._alloc_block`. -/
def allocBlock (L : Layout) (img : Image) : Except PyError (Nat × Image) := do
  if L.blockCount ≤ img.nextBlock then throw (.runtimeError "out of data blocks")
  let blk := img.nextBlock
  let img ← markUsed L { img with nextBlock := img.nextBlock + 1 } blk
  return (blk, img)

/-- `Image._data_rel`. -/
def dataRel (L : Layout) (blk : Nat) : Nat := blk - L.firstDataBlock

/-- `Image._write_block`. -/
def writeBlock (img : Image) (blk : Nat) (data : Bytes) : Except PyError Image := do
  if 512 < data.size then throw (.valueError "write_block oversize")
  let pos := blk * 512
  return { img with image := img.image.setSlice pos (pos + data.size) data }

/-- The layout `Image.__init__` computes. -/
def layoutOf (sizeBytes numInodes : Int) : Except PyError Layout := do
  if sizeBytes ≤ 0 ∨ sizeBytes % 512 ≠ 0 then
    throw (.valueError "size must be a positive multiple of 512")
  if numInodes < 1 then throw (.valueError "need at least 1 inode (the root)")
  let blockCount := (sizeBytes / 512).toNat
  let bitmapBlockCount := (blockCount + 4095) / 4096
  let inodeBlockCount := (numInodes.toNat + 15) / 16
  let firstInodeBlock := 1 + bitmapBlockCount
  let firstDataBlock := firstInodeBlock + inodeBlockCount
  if blockCount ≤ firstDataBlock then
    throw (.valueError "image too small for the requested layout")
  return ⟨blockCount, numInodes.toNat, bitmapBlockCount, inodeBlockCount, firstInodeBlock,
    firstDataBlock⟩

/-- The loop of `Image.__init__` that marks the metadata used, from block `blk` on, `n`
blocks. -/
def markLoop (L : Layout) : (n blk : Nat) → Image → Except PyError Image
  | 0, _, img => return img
  | n + 1, blk, img => do
      let img ← markUsed L img blk
      markLoop L n (blk + 1) img

/-- The image before anything is marked. -/
def blankImage (L : Layout) : Image where
  image := .zeros (512 * L.blockCount)
  inodes := List.replicate L.numInodes (.zeros 32)
  nextBlock := L.firstDataBlock
  dentries := []
  rootBlocks := []

/-- `Image.__init__`, for its layout. -/
def initImage (L : Layout) : Except PyError Image := markLoop L L.firstDataBlock 0 (blankImage L)

/-! ## The root directory -/

/-- The loop of `Image.reserve_root`. -/
def reserveLoop (L : Layout) : (n : Nat) → Image → Except PyError Image
  | 0, img => return img
  | n + 1, img => do
      let (blk, img) ← allocBlock L img
      reserveLoop L n { img with rootBlocks := img.rootBlocks ++ [blk] }

/-- A list of names, as it is printed. -/
def showNames (names : List Name) : String :=
  "[" ++ ", ".intercalate (names.map fun name => "'" ++ String.ofList name ++ "'") ++ "]"

/-- `Image.reserve_root`. -/
def reserveRoot (L : Layout) (img : Image) (names : List Name) : Except PyError Image := do
  if names.any fun name => 13 < name.length then
    let bad := showNames (names.filter fun name => 13 < name.length)
    throw (.valueError s!"filename(s) too long (>13 chars): {bad}")
  let nblks := (names.length * 16 + 511) / 512
  if 3 < nblks then
    throw (.runtimeError s!"root needs {nblks} dentry blocks; only 3 direct slots")
  reserveLoop L nblks img

/-! ## Files -/

/-- The block pointers `Image.add_file` collects.  The keys of the dictionaries in
`dindirect_outer_ptrs` are below 128, and a key is there when its list is not empty. -/
structure FilePtrs where
  direct : Nat → Nat
  indirectPtrs : List Nat
  dindirectOuterPtrs : Nat → Nat → List Nat

/-- The pointers before any block. -/
def FilePtrs.empty : FilePtrs := ⟨fun _ => 0, [], fun _ _ => []⟩

/-- The branches of the loop of `Image.add_file`: the pointer to block `logical`. -/
def FilePtrs.add (ptrs : FilePtrs) (name : Name) (logical rel : Nat) :
    Except PyError FilePtrs :=
  if logical < 3 then
    return { ptrs with direct := Function.update ptrs.direct logical rel }
  else if logical < 3 + 128 then
    return { ptrs with indirectPtrs := ptrs.indirectPtrs ++ [rel] }
  else
    let dindOff := logical - 3 - 128
    let outer := dindOff / (128 * 128)
    let innerIdx := dindOff / 128 % 128
    if 2 ≤ outer then
      let file := String.ofList name
      throw (.runtimeError s!"file '{file}' exceeds dindirect capacity")
    else
      let innerMap := ptrs.dindirectOuterPtrs outer
      return { ptrs with
        dindirectOuterPtrs := Function.update ptrs.dindirectOuterPtrs outer
          (Function.update innerMap innerIdx (innerMap innerIdx ++ [rel])) }

/-- The loop of `Image.add_file` over the blocks of the file from `logical` on, `n`
blocks. -/
def dataLoop (L : Layout) (name : Name) (data : Bytes) :
    (n logical : Nat) → Image → FilePtrs → Except PyError (Image × FilePtrs)
  | 0, _, img, ptrs => return (img, ptrs)
  | n + 1, logical, img, ptrs => do
      let (blk, img) ← allocBlock L img
      let chunk := data.slice (logical * 512) ((logical + 1) * 512)
      let img ← writeBlock img blk chunk
      let ptrs ← ptrs.add name logical (dataRel L blk)
      dataLoop L name data n (logical + 1) img ptrs

/-- Pointers packed into a page from entry `i` on. -/
def packPtrs (buf : Bytes) : (ptrs : List Nat) → (i : Nat) → Except PyError Bytes
  | [], _ => return buf
  | p :: ptrs, i => do
      let buf ← packInto buf (i * 4) p
      packPtrs buf ptrs (i + 1)

/-- An index page of pointers, in a new block. -/
def addPage (L : Layout) (img : Image) (ptrs : List Nat) : Except PyError (Nat × Image) := do
  let (blk, img) ← allocBlock L img
  let buf ← packPtrs (.zeros 512) ptrs 0
  let img ← writeBlock img blk buf
  return (blk, img)

/-- The indirect page of `Image.add_file`: its pointer. -/
def addIndirect (L : Layout) (img : Image) (ptrs : List Nat) : Except PyError (Nat × Image) := do
  if ptrs.isEmpty then return (0, img)
  let (indBlk, img) ← addPage L img ptrs
  return (dataRel L indBlk, img)

/-- `sorted(inner_map)`. -/
def innerKeys (innerMap : Nat → List Nat) : List Nat :=
  (List.range 128).filter fun k => !(innerMap k).isEmpty

/-- The loop of `Image.add_file` over the inner pages of a doubly-indirect page. -/
def innerLoop (L : Layout) (innerMap : Nat → List Nat) :
    (keys : List Nat) → Image → Bytes → Except PyError (Image × Bytes)
  | [], img, outerBuf => return (img, outerBuf)
  | innerIdx :: keys, img, outerBuf => do
      let (innerBlk, img) ← addPage L img (innerMap innerIdx)
      let outerBuf ← packInto outerBuf (innerIdx * 4) (dataRel L innerBlk)
      innerLoop L innerMap keys img outerBuf

/-- A doubly-indirect page of `Image.add_file`: its pointer. -/
def addDindirect (L : Layout) (img : Image) (innerMap : Nat → List Nat) :
    Except PyError (Nat × Image) := do
  if (innerKeys innerMap).isEmpty then return (0, img)
  let (outerBlk, img) ← allocBlock L img
  let (img, outerBuf) ← innerLoop L innerMap (innerKeys innerMap) img (.zeros 512)
  let img ← writeBlock img outerBlk outerBuf
  return (dataRel L outerBlk, img)

/-- `Image.add_file`. -/
def addFile (L : Layout) (img : Image) (name : Name) (data : List UInt8) (inodeIdx : Nat) :
    Except PyError Image := do
  let size := data.length
  let nblks := (size + 511) / 512
  let (img, ptrs) ← dataLoop L name (.ofList data) nblks 0 img .empty
  let (indirectRel, img) ← addIndirect L img ptrs.indirectPtrs
  let (dindirectRel₀, img) ← addDindirect L img (ptrs.dindirectOuterPtrs 0)
  let (dindirectRel₁, img) ← addDindirect L img (ptrs.dindirectOuterPtrs 1)
  let ino ← packWords [size, 0, ptrs.direct 0, ptrs.direct 1, ptrs.direct 2, indirectRel,
    dindirectRel₀, dindirectRel₁]
  if img.inodes.length ≤ inodeIdx then throw .indexError
  return { img with
    inodes := img.inodes.set inodeIdx ino
    dentries := img.dentries ++ [(inodeIdx, name)] }

/-- The loop of `main` over the files, with inode numbers from `i` on. -/
def addFiles (L : Layout) : (files : List (Name × List UInt8)) → (i : Nat) → Image →
    Except PyError Image
  | [], _, img => return img
  | (name, data) :: files, i, img => do
      let img ← addFile L img name data i
      addFiles L files (i + 1) img

/-! ## Finalization -/

/-- The loop of `Image.finalize` over the directory entries, from entry `i` on. -/
def packDentries : (dentries : List (Nat × Name)) → (i : Nat) → Bytes → Except PyError Bytes
  | [], _, buf => return buf
  | (inoIdx, name) :: dentries, i, buf => do
      let off := i * 16
      let ascii ← encodeAscii name
      let nameBytes := Bytes.ofList (ascii ++ [0])
      let buf ← packIntoH buf off inoIdx
      packDentries dentries (i + 1) (buf.setSlice (off + 2) (off + 2 + nameBytes.size) nameBytes)

/-- The loop of `Image.finalize` over the blocks of the root, from block `i` on: the image
and the direct pointers. -/
def rootLoop (L : Layout) (dentryBuf : Bytes) :
    (blks : List Nat) → (i : Nat) → Image → (Nat → Nat) → Except PyError (Image × (Nat → Nat))
  | [], _, img, direct => return (img, direct)
  | blk :: blks, i, img, direct => do
      let img ← writeBlock img blk (dentryBuf.slice (i * 512) ((i + 1) * 512))
      if 3 ≤ i then throw .indexError
      rootLoop L dentryBuf blks (i + 1) img (Function.update direct i (dataRel L blk))

/-- The loop of `Image.finalize` over the inodes from `inoIdx` on. -/
def inodeLoop (L : Layout) : (inodes : List Bytes) → (inoIdx : Nat) → Bytes → Bytes
  | [], _, image => image
  | ino :: inodes, inoIdx, image =>
      let blk := L.firstInodeBlock + inoIdx / 16
      let off := inoIdx % 16 * 32
      let pos := blk * 512 + off
      inodeLoop L inodes (inoIdx + 1) (image.setSlice pos (pos + 32) ino)

/-- The superblock. -/
def superblock (L : Layout) : Except PyError Bytes := do
  let counts ← packWords [L.blockCount, L.bitmapBlockCount, L.inodeBlockCount]
  let root ← packH 0
  return counts.append root

/-- `Image.finalize`. -/
def finalize (L : Layout) (img : Image) : Except PyError Image := do
  let ndents := img.dentries.length
  if ndents ≠ 0 ∧ img.rootBlocks.isEmpty then
    throw (.runtimeError "must call reserve_root() before finalize()")
  if img.rootBlocks.length * 32 < ndents then
    throw (.runtimeError "dentry count exceeds reserved root capacity")
  let dentryBuf ← packDentries img.dentries 0 (.zeros (img.rootBlocks.length * 512))
  let (img, direct) ← rootLoop L dentryBuf img.rootBlocks 0 img fun _ => 0
  let rootIno ← packWords [ndents * 16, 0, direct 0, direct 1, direct 2, 0, 0, 0]
  let inodes := img.inodes.set 0 rootIno
  let img := { img with inodes := inodes, image := inodeLoop L inodes 0 img.image }
  let sb ← superblock L
  writeBlock img 0 sb

/-- `main`, up to writing the file: the bytes of the image.  The parser of the arguments
asks for one file at least. -/
def main (size numInodes : Int) (files : List (Name × List UInt8)) : Except PyError Bytes := do
  if files.isEmpty then throw (.systemExit "the following arguments are required: files")
  if numInodes - 1 < files.length then
    let n := files.length
    throw (.systemExit s!"too many files ({n}) for {numInodes} inodes (root takes 1)")
  let L ← layoutOf size numInodes
  let img ← initImage L
  let img ← reserveRoot L img (files.map Prod.fst)
  let img ← addFiles L files 1 img
  let img ← finalize L img
  return img.image

end MiniOs.Mkfs
