import Mathlib.Data.BitVec
import Mathlib.Logic.Function.Basic

/-!
# Physical and virtual memory (`memory.c`)

Memory is the function from the number of a 64-bit word to the word.  A pointer is a 64-bit
address, and `load p i` is the word `i` words behind it.  RAM is mapped at its physical
addresses, so the kernel's pointers to pages are physical addresses.

The header of a free chunk is in the chunk's first page: word 0 is `next` and word 1 is
`pagecnt`.  An entry of a page table is a word with the bit fields of `struct pte`.  The global
`free_chunk_list` and the register `satp` stand beside the words.

A loop over the chunk list has no result when the list does not end; there are fewer than
`2 ^ 52` pages, so a list that ends does so before its fuel does.
-/

namespace MiniOs

abbrev Word := BitVec 64

/-- A pointer; the null pointer is 0. -/
abbrev Ptr := BitVec 64

/-- `PAGE_SIZE`. -/
abbrev pageSize : Nat := 4096

/-- `PTE_CNT`, the words of a page. -/
abbrev pteCnt : Nat := 512

/-- The memory, and what the memory manager keeps outside of it. -/
structure Memory where
  word : Nat → Word
  freeChunkList : Ptr
  satp : Word

namespace Memory

def load (m : Memory) (p : Ptr) (i : Nat) : Word := m.word (p.toNat / 8 + i)

def store (m : Memory) (p : Ptr) (i : Nat) (w : Word) : Memory :=
  { m with word := Function.update m.word (p.toNat / 8 + i) w }

/-- `memset(p, 0, PAGE_SIZE)`. -/
def zeroPage (m : Memory) (p : Ptr) : Memory :=
  { m with word := fun j =>
      if p.toNat / 8 ≤ j ∧ j < p.toNat / 8 + pteCnt then 0 else m.word j }

/-- `memcpy(dst, src, PAGE_SIZE)`. -/
def copyPage (m : Memory) (dst src : Ptr) : Memory :=
  { m with word := fun j =>
      if dst.toNat / 8 ≤ j ∧ j < dst.toNat / 8 + pteCnt
      then m.word (src.toNat / 8 + (j - dst.toNat / 8)) else m.word j }

/-! ## Physical pages -/

/-- The link at a place of the chunk list: `free_chunk_list`, or `next` of a chunk. -/
def readLink (m : Memory) : Option Ptr → Ptr
  | none => m.freeChunkList
  | some c => m.load c 0

def writeLink (m : Memory) (link : Option Ptr) (v : Ptr) : Memory :=
  match link with
  | none => { m with freeChunkList := v }
  | some c => m.store c 0 v

/-- The number of steps in which every chunk list ends. -/
abbrev listFuel : Nat := 2 ^ 52

/-- Chunk `c` is smaller than the best one so far, or there is none yet. -/
def better (m : Memory) (c : Ptr) : Option (Option Ptr × Ptr) → Bool
  | none => true
  | some (_, best) => m.load c 1 < m.load best 1

/-- The loop of `alloc_phys_pages`: the link to the best chunk so far, and that chunk. -/
def bestFit (m : Memory) (cnt : Word) :
    Nat → Option Ptr → Option (Option Ptr × Ptr) → Option (Option (Option Ptr × Ptr))
  | 0, _, _ => none
  | fuel + 1, link, best =>
      let c := m.readLink link
      if c = 0 then some best
      else
        bestFit m cnt fuel (some c)
          (if cnt ≤ m.load c 1 ∧ m.better c best = true then some (link, c) else best)

/-- The end of `alloc_phys_pages`: the chunk `best` is split or unlinked. -/
def takeChunk (m : Memory) (cnt : Word) (link : Option Ptr) (best : Ptr) : Memory :=
  if cnt < m.load best 1 then
    let remainder := best + cnt * BitVec.ofNat 64 pageSize
    let m := m.store remainder 0 (m.load best 0)
    let m := m.store remainder 1 (m.load best 1 - cnt)
    m.writeLink link remainder
  else m.writeLink link (m.load best 0)

/-- `alloc_phys_pages`. -/
def allocPhysPages (m : Memory) (cnt : BitVec 32) : Option (Ptr × Memory) :=
  if cnt = 0 then some (0, m)
  else
    (m.bestFit (cnt.setWidth 64) listFuel none none).map fun best =>
      match best with
      | none => (0, m)
      | some (link, c) => (c, m.takeChunk (cnt.setWidth 64) link c)

/-- `free_phys_pages`. -/
def freePhysPages (m : Memory) (pp : Ptr) (cnt : BitVec 32) : Memory :=
  if pp = 0 ∨ cnt = 0 then m
  else
    let m := m.store pp 1 (cnt.setWidth 64)
    let m := m.store pp 0 m.freeChunkList
    { m with freeChunkList := pp }

/-- The loop of `free_phys_page_count`. -/
def countLoop (m : Memory) : Nat → Ptr → Word → Option Word
  | 0, _, _ => none
  | fuel + 1, c, total =>
      if c = 0 then some total else countLoop m fuel (m.load c 0) (total + m.load c 1)

/-- `free_phys_page_count`. -/
def freePhysPageCount (m : Memory) : Option Word := m.countLoop listFuel m.freeChunkList 0

/-- `alloc_phys_page`. -/
def allocPhysPage (m : Memory) : Option (Ptr × Memory) := m.allocPhysPages 1

/-- `free_phys_page`. -/
def freePhysPage (m : Memory) (pp : Ptr) : Memory := m.freePhysPages pp 1

/-- The part of `memory_init` that makes the chunk list. -/
def initChunks (m : Memory) (heapEnd ramEnd : Ptr) : Memory :=
  if heapEnd < ramEnd then
    let m := m.store heapEnd 0 0
    let m := m.store heapEnd 1 ((ramEnd - heapEnd) / BitVec.ofNat 64 pageSize)
    { m with freeChunkList := heapEnd }
  else { m with freeChunkList := 0 }

end Memory

/-! ## Page table entries -/

abbrev PTE_V : BitVec 8 := 1
abbrev PTE_R : BitVec 8 := 2
abbrev PTE_W : BitVec 8 := 4
abbrev PTE_X : BitVec 8 := 8
abbrev PTE_U : BitVec 8 := 16
abbrev PTE_G : BitVec 8 := 32
abbrev PTE_A : BitVec 8 := 64
abbrev PTE_D : BitVec 8 := 128

/-- The bit field `flags` of `struct pte`. -/
def pteFlags (e : Word) : BitVec 8 := e.extractLsb' 0 8

/-- The bit field `ppn`. -/
def ptePpn (e : Word) : BitVec 44 := e.extractLsb' 10 44

/-- A `struct pte` with the given `flags` and `ppn` and zeros elsewhere. -/
def mkPte (flags : BitVec 8) (ppn : BitVec 44) : Word := (0#10 ++ ppn) ++ (0#2 ++ flags)

/-- Assignment to the bit field `ppn`. -/
def setPtePpn (e : Word) (ppn : BitVec 44) : Word :=
  (e.extractLsb' 54 10 ++ ppn) ++ e.extractLsb' 0 10

/-- `PTE_VALID`. -/
def pteValid (e : Word) : Bool := pteFlags e &&& PTE_V ≠ 0

/-- `PTE_GLOBAL`. -/
def pteGlobal (e : Word) : Bool := pteFlags e &&& PTE_G ≠ 0

/-- `PTE_LEAF`. -/
def pteLeaf (e : Word) : Bool := pteFlags e &&& (PTE_R ||| PTE_W ||| PTE_X) ≠ 0

def pageptr (n : BitVec 44) : Ptr := (0#8 ++ n) ++ 0#12

/-- `pagenum`, as the bit field `ppn` takes it. -/
def pagenum (p : Ptr) : BitVec 44 := p.extractLsb' 12 44

def leafPte (pp : Ptr) (flags : BitVec 8) : Word :=
  mkPte (flags ||| PTE_A ||| PTE_D ||| PTE_V) (pagenum pp)

def ptabPte (pt : Ptr) (g : BitVec 8) : Word := mkPte (g ||| PTE_V) (pagenum pt)

def nullPte : Word := 0

/-- The index of a virtual address into the table of a level: `VPN0`, `VPN1` and `VPN2`. -/
def vpnIndex (level : Nat) (vma : Word) : Fin pteCnt :=
  ⟨(vma.toNat / pageSize) >>> (9 * level) % pteCnt, Nat.mod_lt _ (by decide)⟩

/-- `wellformed`: the address bits 63 to 38 are all 0 or all 1. -/
def wellformed (vma : Word) : Bool :=
  let bits := vma.sshiftRight 38
  bits = 0 || bits + 1 = 0

namespace Memory

/-! ## Mapping -/

/-- `active_space_ptab`. -/
def activeSpacePtab (m : Memory) : Ptr := (m.satp <<< 20) >>> 8

/-- The part of `walk` that makes entry `idx` of the table `pt` valid: the memory, and whether
it was done. -/
def needEntry (m : Memory) (pt : Ptr) (idx : Fin pteCnt) (alloc : Bool) : Option (Bool × Memory) :=
  if pteValid (m.load pt idx) then some (true, m)
  else if alloc = false then some (false, m)
  else
    m.allocPhysPage.map fun (sub, m) =>
      if sub = 0 then (false, m)
      else (true, (m.zeroPage sub).store pt idx (ptabPte sub 0))

/-- One level of `walk`: the table that entry `idx` of `pt` leads to, or null. -/
def descend (m : Memory) (pt : Ptr) (idx : Fin pteCnt) (alloc : Bool) :
    Option (Option Ptr × Memory) :=
  (m.needEntry pt idx alloc).map fun (found, m) =>
    if found = false ∨ pteLeaf (m.load pt idx) = true then (none, m)
    else (some (pageptr (ptePpn (m.load pt idx))), m)

/-- `walk`: the level-0 table for `vma`, or null.  The entry is number `VPN0(vma)` of it. -/
def walk (m : Memory) (vma : Word) (alloc : Bool) : Option (Option Ptr × Memory) :=
  (m.descend m.activeSpacePtab (vpnIndex 2 vma) alloc).bind fun
    | (none, m) => some (none, m)
    | (some pt, m) => m.descend pt (vpnIndex 1 vma) alloc

/-- `map_page`. -/
def mapPage (m : Memory) (vma : Word) (pp : Ptr) (flags : BitVec 8) : Option (Ptr × Memory) :=
  if wellformed vma = false ∨ vma.toNat % pageSize ≠ 0 then some (0, m)
  else
    (m.walk vma true).map fun
      | (none, m) => (0, m)
      | (some pt, m) => (vma, m.store pt (vpnIndex 0 vma) (leafPte pp flags))

/-- The pages of a range of `size` bytes: `ROUND_UP(size, PAGE_SIZE) / PAGE_SIZE`. -/
def pageCount (size : Word) : Nat := (size + BitVec.ofNat 64 (pageSize - 1)).toNat / pageSize

/-- The address one page on. -/
def nextPage (vma : Word) : Word := vma + BitVec.ofNat 64 pageSize

/-- The loop of `alloc_and_map_range`: whether all pages were mapped. -/
def allocAndMapLoop (flags : BitVec 8) : Nat → Word → Memory → Option (Bool × Memory)
  | 0, _, m => some (true, m)
  | n + 1, vma, m =>
      m.allocPhysPage.bind fun (pp, m) =>
        if pp = 0 then some (false, m)
        else
          (m.mapPage vma pp flags).bind fun (r, m) =>
            if r = 0 then some (false, m.freePhysPage pp)
            else allocAndMapLoop flags n (nextPage vma) m

/-- `alloc_and_map_range`. -/
def allocAndMapRange (m : Memory) (vma size : Word) (flags : BitVec 8) : Option (Ptr × Memory) :=
  (allocAndMapLoop flags (pageCount size) vma m).map fun (done, m) => (if done then vma else 0, m)

/-- One turn of the loop of `unmap_and_free_range`. -/
def unmapPage (m : Memory) (vma : Word) : Option Memory :=
  (m.walk vma false).map fun
    | (none, m) => m
    | (some pt, m) =>
        let e := m.load pt (vpnIndex 0 vma)
        if pteValid e then
          (m.store pt (vpnIndex 0 vma) nullPte).freePhysPage (pageptr (ptePpn e))
        else m

/-- A loop over the pages of a range. -/
def rangeLoop (f : Memory → Word → Option Memory) : Nat → Word → Memory → Option Memory
  | 0, _, m => some m
  | n + 1, vma, m => (f m vma).bind (rangeLoop f n (nextPage vma))

/-- `unmap_and_free_range`. -/
def unmapAndFreeRange (m : Memory) (vma size : Word) : Option Memory :=
  rangeLoop unmapPage (pageCount size) vma m

/-- `UMEM_START_VMA`. -/
abbrev umemStart : Nat := 0xC0000000

/-- `UMEM_END_VMA`. -/
abbrev umemEnd : Nat := 0xF0000000

/-- `handle_umode_page_fault`: whether the fault was handled. -/
def handleUmodePageFault (m : Memory) (vma : Word) : Option (Bool × Memory) :=
  if vma.toNat < umemStart ∨ umemEnd ≤ vma.toNat then some (false, m)
  else
    let pageVma := vma &&& ~~~BitVec.ofNat 64 (pageSize - 1)
    m.allocPhysPage.bind fun (pp, m) =>
      if pp = 0 then some (false, m)
      else
        ((m.zeroPage pp).mapPage pageVma pp (PTE_R ||| PTE_W ||| PTE_X ||| PTE_U)).map
          fun (r, m) => if r = 0 then (false, m.freePhysPage pp) else (true, m)

/-! ## Cloning -/

/-- One turn of the loop of `clone_pt`, for entry `i`: whether the loop goes on.  `clone` makes
the copy of a subtable. -/
def cloneEntry (clone : Ptr → Memory → Option (Ptr × Memory)) (old new : Ptr) (i : Fin pteCnt)
    (m : Memory) : Option (Bool × Memory) :=
  let e := m.load old i
  if pteValid e = false then some (true, m)
  else if pteGlobal e = true then some (true, m.store new i e)
  else if pteLeaf e = true then
    m.allocPhysPage.map fun (newPp, m) =>
      if newPp = 0 then (false, m)
      else (true, (m.copyPage newPp (pageptr (ptePpn e))).store new i (setPtePpn e (pagenum newPp)))
  else
    (clone (pageptr (ptePpn e)) m).map fun (newChild, m) =>
      if newChild = 0 then (false, m)
      else (true, m.store new i (ptabPte newChild (pteFlags e &&& PTE_G)))

/-- The loop of `clone_pt` over the entries `is`. -/
def cloneLoop (clone : Ptr → Memory → Option (Ptr × Memory)) (old new : Ptr) :
    List (Fin pteCnt) → Memory → Option (Bool × Memory)
  | [], m => some (true, m)
  | i :: is, m =>
      (cloneEntry clone old new i m).bind fun (more, m) =>
        if more then cloneLoop clone old new is m else some (false, m)

/-- `clone_pt` of a table with `levels` levels of tables; there is no result when the tables
are deeper than that. -/
def clonePt : Nat → Ptr → Memory → Option (Ptr × Memory)
  | 0, _, _ => none
  | levels + 1, old, m =>
      m.allocPhysPage.bind fun (new, m) =>
        if new = 0 then some (0, m)
        else
          (cloneLoop (clonePt levels) old new (List.finRange pteCnt) (m.zeroPage new)).map
            fun (done, m) => (if done then new else 0, m)

/-- `ptab_to_mtag` with address space identifier 0. -/
def ptabToMtag (pt : Ptr) : Word := 8#4 ++ (0#16 ++ pagenum pt)

/-- `mtag_to_ptab`. -/
def mtagToPtab (mtag : Word) : Ptr := (mtag <<< 20) >>> 8

/-- `clone_active_mspace`. -/
def cloneActiveMspace (m : Memory) : Option (Word × Memory) :=
  (clonePt 3 m.activeSpacePtab m).map fun (root, m) =>
    (if root = 0 then 0 else ptabToMtag root, m)

/-! ## Giving a space back -/

/-- One turn of the loop of `free_user_pt`, for entry `i`: whether the entry is global.  `free`
takes a subtable apart. -/
def freeUserEntry (free : Ptr → Memory → Option (Bool × Memory)) (pt : Ptr) (i : Fin pteCnt)
    (m : Memory) : Option (Bool × Memory) :=
  let e := m.load pt i
  if pteValid e = false then some (false, m)
  else if pteGlobal e = true then some (true, m)
  else if pteLeaf e = true then
    some (false, (m.freePhysPage (pageptr (ptePpn e))).store pt i nullPte)
  else
    (free (pageptr (ptePpn e)) m).map fun (childHasGlobal, m) =>
      let m := if childHasGlobal then m else m.freePhysPage (pageptr (ptePpn e))
      (false, m.store pt i nullPte)

/-- The loop of `free_user_pt` over the entries `is`. -/
def freeUserLoop (free : Ptr → Memory → Option (Bool × Memory)) (pt : Ptr) :
    List (Fin pteCnt) → Bool → Memory → Option (Bool × Memory)
  | [], hasGlobal, m => some (hasGlobal, m)
  | i :: is, hasGlobal, m =>
      (freeUserEntry free pt i m).bind fun (isGlobal, m) =>
        freeUserLoop free pt is (hasGlobal || isGlobal) m

/-- `free_user_pt` on a table with `levels` levels of tables; there is no result when the tables
are deeper than that. -/
def freeUserPt : Nat → Ptr → Memory → Option (Bool × Memory)
  | 0, _, _ => none
  | levels + 1, pt, m => freeUserLoop (freeUserPt levels) pt (List.finRange pteCnt) false m

/-- `reset_active_mspace`. -/
def resetActiveMspace (m : Memory) : Option Memory :=
  (freeUserPt 3 m.activeSpacePtab m).map fun (_, m) => m

/-- `discard_active_mspace`; `mainMtag` is the global `main_mtag`. -/
def discardActiveMspace (m : Memory) (mainMtag : Word) : Option (Word × Memory) :=
  let oldRoot := mtagToPtab m.satp
  (freeUserPt 3 oldRoot { m with satp := mainMtag }).map fun (_, m') =>
    (m.satp, m'.freePhysPage oldRoot)

/-- `switch_mspace`. -/
def switchMspace (m : Memory) (mtag : Word) : Memory := { m with satp := mtag }

end Memory

/-- An address of user memory. -/
def IsUser (va : Word) : Prop := Memory.umemStart ≤ va.toNat ∧ va.toNat < Memory.umemEnd

end MiniOs
