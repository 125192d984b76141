import MiniOs.Base.MemProg
import MiniOs.Io.Device
import MiniOs.Memory.Model

/-!
# The ELF loader (`elf.c`)

A file is the list of its bytes, and `ioreadat` reads it as `memio_readat` does.  `elf_load` reads
nothing but the file, so it is a function of the file: its value, what it stores through `eptr`, and
what it writes to memory, in order.  The writes are to 64-bit addresses that may wrap around, and
their meaning is that of `memcpy` and `memset` on a memory of bytes.

Of the headers the fields that `elf_load` reads are kept.
-/

namespace MiniOs

/-- A file, as bytes. -/
abbrev File := List UInt8

/-- `ioreadat` of a file, with `bufsz` read as a `long`: the value, and the bytes put in the
buffer. -/
def ioreadat (file : File) (pos bufsz : Word) : Int × List UInt8 :=
  if bufsz.toInt < 0 then (-EINVAL, [])
  else if file.length ≤ pos.toNat then (0, [])
  else
    let n := min bufsz.toNat (file.length - pos.toNat)
    (n, (file.drop pos.toNat).take n)

namespace Elf

/-! ## Headers -/

/-- The little-endian number of `n` bytes from `off` on. -/
def leNat (bs : List UInt8) (off : Nat) : Nat → Nat
  | 0 => 0
  | n + 1 => (bs.getD off 0).toNat + 256 * leNat bs (off + 1) n

/-- `struct elf64_ehdr`. -/
structure Ehdr where
  ident : List UInt8
  type : Nat
  machine : Nat
  version : Nat
  entry : Word
  phoff : Word
  phentsize : Nat
  phnum : Nat

/-- `struct elf64_phdr`. -/
structure Phdr where
  type : Nat
  offset : Word
  vaddr : Word
  filesz : Word
  memsz : Word
deriving DecidableEq

/-- `sizeof(struct elf64_ehdr)`. -/
abbrev ehdrSize : Nat := 64

/-- `sizeof(struct elf64_phdr)`. -/
abbrev phdrSize : Nat := 56

/-- The header in a buffer. -/
def ehdrOf (bs : List UInt8) : Ehdr where
  ident := bs.take 16
  type := leNat bs 16 2
  machine := leNat bs 18 2
  version := leNat bs 20 4
  entry := BitVec.ofNat 64 (leNat bs 24 8)
  phoff := BitVec.ofNat 64 (leNat bs 32 8)
  phentsize := leNat bs 54 2
  phnum := leNat bs 56 2

/-- The program header in a buffer. -/
def phdrOf (bs : List UInt8) : Phdr where
  type := leNat bs 0 4
  offset := BitVec.ofNat 64 (leNat bs 8 8)
  vaddr := BitVec.ofNat 64 (leNat bs 16 8)
  filesz := BitVec.ofNat 64 (leNat bs 32 8)
  memsz := BitVec.ofNat 64 (leNat bs 40 8)

/-- `ELFCLASS64`. -/
abbrev elfClass64 : UInt8 := 2

/-- `ELFDATA2LSB`. -/
abbrev elfData2Lsb : UInt8 := 1

/-- `EV_CURRENT`. -/
abbrev evCurrent : Nat := 1

/-- `ET_EXEC`. -/
abbrev etExec : Nat := 2

/-- `EM_RISCV`. -/
abbrev emRiscv : Nat := 243

/-- `PT_LOAD`. -/
abbrev ptLoad : Nat := 1

/-- The checks of the header, each of which fails with `-EINVAL`. -/
def Ehdr.Valid (eh : Ehdr) : Prop :=
  eh.ident.getD 0 0 = 0x7F ∧ eh.ident.getD 1 0 = 'E'.toUInt8 ∧ eh.ident.getD 2 0 = 'L'.toUInt8 ∧
    eh.ident.getD 3 0 = 'F'.toUInt8 ∧ eh.ident.getD 4 0 = elfClass64 ∧
    eh.ident.getD 5 0 = elfData2Lsb ∧ eh.ident.getD 6 0 = UInt8.ofNat evCurrent ∧
    eh.type = etExec ∧ eh.machine = emRiscv ∧ eh.version = evCurrent ∧ eh.phentsize = phdrSize

instance (eh : Ehdr) : Decidable eh.Valid := inferInstanceAs (Decidable (_ ∧ _))

/-! ## Loading -/

/-- `UMEM_START_VMA` as an address. -/
abbrev umemStartVma : Word := BitVec.ofNat 64 Memory.umemStart

/-- `UMEM_END_VMA` as an address. -/
abbrev umemEndVma : Word := BitVec.ofNat 64 Memory.umemEnd

/-- The checks of a `PT_LOAD` header, each of which fails with `-EINVAL`.  The sum may wrap around. -/
def Phdr.Checked (ph : Phdr) : Prop :=
  umemStartVma ≤ ph.vaddr ∧ ph.vaddr + ph.memsz ≤ umemEndVma ∧ ph.filesz ≤ ph.memsz

instance (ph : Phdr) : Decidable ph.Checked := inferInstanceAs (Decidable (_ ∧ _))

/-- The body of the loop for a `PT_LOAD` header: 0 or an error code, and what is written. -/
def loadSegment (file : File) (ph : Phdr) : Int × List MemWrite :=
  if ph.Checked then
    let read := ioreadat file ph.offset ph.filesz
    let copied := if 0 < ph.filesz then [.copy ph.vaddr read.2] else []
    if 0 < ph.filesz ∧ read.1 ≠ ph.filesz.toInt then (- EIO, copied)
    else
      (0, copied ++ if ph.filesz < ph.memsz
        then [.zero (ph.vaddr + ph.filesz) (ph.memsz - ph.filesz).toNat] else [])
  else (-EINVAL, [])

/-- `ioreadat` of program header `i`. -/
def readPhdr (file : File) (phoff : Word) (i : Nat) : Int × List UInt8 :=
  ioreadat file (phoff + BitVec.ofNat 64 i * BitVec.ofNat 64 phdrSize) (BitVec.ofNat 64 phdrSize)

/-- The loop over the program headers from `i` on, `n` headers. -/
def loadLoop (file : File) (phoff : Word) : (n i : Nat) → Int × List MemWrite
  | 0, _ => (0, [])
  | n + 1, i =>
      let read := readPhdr file phoff i
      if read.1 ≠ phdrSize then (- EIO, [])
      else if (phdrOf read.2).type ≠ ptLoad then loadLoop file phoff n (i + 1)
      else
        let seg := loadSegment file (phdrOf read.2)
        if seg.1 ≠ 0 then seg
        else
          let rest := loadLoop file phoff n (i + 1)
          (rest.1, seg.2 ++ rest.2)

/-- What `elf_load` does: its value, what it stores through `eptr`, and what it writes. -/
structure Loaded where
  rc : Int
  entry : Option Word
  writes : List MemWrite

/-- `elf_load`. -/
def elfLoad (file : File) : Loaded :=
  let read := ioreadat file 0 (BitVec.ofNat 64 ehdrSize)
  if read.1 ≠ ehdrSize then ⟨- EIO, none, []⟩
  else
    let eh := ehdrOf read.2
    if eh.Valid then
      let r := loadLoop file eh.phoff eh.phnum 0
      ⟨r.1, if r.1 = 0 then some eh.entry else none, r.2⟩
    else ⟨-EINVAL, none, []⟩

end Elf

end MiniOs
