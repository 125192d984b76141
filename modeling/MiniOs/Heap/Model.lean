import MiniOs.Base.ByteMem
import MiniOs.Memory.Model

/-!
# The kernel heap (`heap0.c`)

Blocks are carved from the end of the current region `[heap_low, heap_end)`, or from a page of
the page allocator; a block that is freed is never used again.  The 16 bytes before a block
are its header.  A panic and an assertion that fails give no result.

The page that `alloc_phys_page` would return is an argument, and is used only when the current
region is too small.

A run is a sequence of calls and of writes by the rest of the kernel.  Beside the heap it keeps
every block that was ever returned, and the regions the heap was given.
-/

namespace MiniOs

/-- `ROUND_UP` and `ROUND_DOWN`. -/
def roundUp (n k : Word) : Word := (n + k - 1) / k * k

def roundDown (n k : Word) : Word := n / k * k

/-- `HEAP_ALIGN`. -/
def heapAlign : Word := 16

/-- `HEAP_ALLOC_MAX`. -/
def heapAllocMax : Word := 4000

/-- `sizeof(struct heap_alloc_header)`. -/
def headerSize : Word := 16

/-- `HEAP_ALLOC_MAGIC` and `HEAP_FREE_MAGIC`. -/
def heapAllocMagic : UInt32 := 0xEAEAEAEA

def heapFreeMagic : UInt32 := 0x25252525

/-- The memory, and the globals of the heap manager. -/
structure Heap where
  bytes : ByteMem
  /-- `heap_low` and `heap_end`. -/
  low : Ptr
  fin : Ptr

namespace Heap

/-- `heap_init`. -/
def init (bytes : ByteMem) (start fin : Ptr) : Option Heap :=
  let start := roundUp start heapAlign
  let fin := roundDown fin heapAlign
  if start < fin then some ⟨bytes, start, fin⟩ else none

/-- A conversion to `uint32_t`. -/
def toU32 (w : Word) : UInt32 := UInt32.ofNat w.toNat

/-- `magic`, `size`, `size_inv` and `ra32` of the header of the block at `ptr`. -/
def magicAddr (ptr : Ptr) : Ptr := ptr - 16

def sizeAddr (ptr : Ptr) : Ptr := ptr - 12

def sizeInvAddr (ptr : Ptr) : Ptr := ptr - 8

def raAddr (ptr : Ptr) : Ptr := ptr - 4

/-- The current region has room for a block of `size` bytes and its header. -/
def fits (h : Heap) (size : Word) : Bool := size + headerSize ≤ h.fin - h.low

/-- The part of `heap_malloc_actual` that finds the place of a block whose size is rounded up. -/
def place (h : Heap) (size : Word) (newpage : Ptr) : Option (Ptr × Heap) :=
  if h.fits size then
    let ptr := h.fin - size
    some (ptr, { h with fin := ptr - headerSize })
  else if (pageSize : Word) - headerSize < size then none
  else
    let ptr := newpage + pageSize - size
    let leftover := (pageSize : Word) - size - headerSize
    -- switch to the new page when more is left there than in the current region
    if h.fin - h.low < leftover then
      some (ptr, { h with fin := ptr - headerSize, low := newpage })
    else some (ptr, h)

/-- The header of the block at `ptr` is written, and the block is filled. -/
def setBlock (bytes : ByteMem) (ptr : Ptr) (size : Word) (ra : Ptr) : ByteMem :=
  let bytes := bytes.setWord (magicAddr ptr) heapAllocMagic
  let bytes := bytes.setWord (sizeAddr ptr) (toU32 size)
  let bytes := bytes.setWord (sizeInvAddr ptr) (toU32 (~~~ size))
  let bytes := bytes.setWord (raAddr ptr) (toU32 ra)
  bytes.fill ptr 0x33 size.toNat

/-- `heap_malloc_actual`. -/
def heapMallocActual (h : Heap) (size : Word) (ra newpage : Ptr) : Option (Ptr × Heap) :=
  if size = 0 then some (0, h)
  else
    let size := roundUp size heapAlign
    if heapAllocMax < size then none
    else (h.place size newpage).map fun (ptr, h) =>
      (ptr, { h with bytes := setBlock h.bytes ptr size ra })

/-- `heap_calloc_actual`. -/
def heapCallocActual (h : Heap) (nelts eltsz : Word) (ra newpage : Ptr) : Option (Ptr × Heap) :=
  if nelts ≤ heapAllocMax / eltsz then
    let size := nelts * eltsz
    (h.heapMallocActual size ra newpage).map fun (ptr, h) =>
      (ptr, { h with bytes := h.bytes.fill ptr 0 size.toNat })
  else none

/-- `heap_free_actual`. -/
def heapFreeActual (h : Heap) (ptr ra : Ptr) : Option Heap :=
  let size := h.bytes.word (sizeAddr ptr)
  -- three panics, which differ in what they could report
  if size ≠ ~~~ (h.bytes.word (sizeInvAddr ptr)) then none
  else
    let bytes := h.bytes.fill (ptr + 8) 0x11 (BitVec.ofNat 64 size.toNat - 8 : Word).toNat
    let bytes := bytes.setWord ptr heapFreeMagic
    let bytes := bytes.setWord (ptr + 4) (toU32 ra)
    some { h with bytes := bytes.setWord (sizeInvAddr ptr) 0 }

end Heap

/-! ## Runs -/

/-- A block that was returned: its address, and the number of bytes asked for. -/
structure HeapBlock where
  ptr : Ptr
  req : Nat
  live : Bool

namespace HeapBlock

/-- The bytes of the block. -/
def size (b : HeapBlock) : Nat := (b.req + 15) / 16 * 16

/-- Where the header begins, and where the block ends. -/
def lo (b : HeapBlock) : Nat := b.ptr.toNat - 16

def hi (b : HeapBlock) : Nat := b.ptr.toNat + b.size

/-- Neither block or header meets the other block or header. -/
def Apart (b c : HeapBlock) : Prop := b.hi ≤ c.lo ∨ c.hi ≤ b.lo

end HeapBlock

/-- The heap, the blocks it returned, and the regions it was given. -/
structure HeapRun where
  heap : Heap
  blocks : List HeapBlock
  regions : List (Nat × Nat)

inductive HeapLabel where
  | kmalloc (size : Word) (ra newpage : Ptr)
  | kcalloc (nelts eltsz : Word) (ra newpage : Ptr)
  | kfree (ptr ra : Ptr)
  /-- A write outside of the heap manager. -/
  | write (a : Ptr) (v : UInt8)

namespace HeapRun

/-- The page is not part of the memory the heap was given before. -/
def Fresh (s : HeapRun) (newpage : Ptr) : Prop :=
  newpage.toNat % pageSize = 0 ∧
    ∀ r ∈ s.regions, r.2 ≤ newpage.toNat ∨ newpage.toNat + pageSize ≤ r.1

/-- What the callers promise.  A client writes inside blocks it was given, also when they were
freed since; other code writes outside of the heap's memory. -/
def Enabled (s : HeapRun) : HeapLabel → Prop
  | .kmalloc size _ newpage => 1 ≤ size.toNat ∧ size.toNat ≤ 4000 ∧
      (s.heap.fits (roundUp size heapAlign) = false → s.Fresh newpage)
  | .kcalloc nelts eltsz _ newpage =>
      1 ≤ nelts.toNat * eltsz.toNat ∧ nelts.toNat * eltsz.toNat ≤ 4000 ∧
      (s.heap.fits (roundUp (nelts * eltsz) heapAlign) = false → s.Fresh newpage)
  | .kfree ptr _ => ∃ b ∈ s.blocks, b.ptr = ptr ∧ b.live = true
  | .write a _ => (∃ b ∈ s.blocks, b.ptr.toNat ≤ a.toNat ∧ a.toNat < b.hi) ∨
      ∀ r ∈ s.regions, a.toNat < r.1 ∨ r.2 ≤ a.toNat

/-- A block is returned, from the current region or from a new page. -/
def returned (s : HeapRun) (req : Word) (newpage : Ptr) (x : Ptr × Heap) : HeapRun where
  heap := x.2
  blocks := ⟨x.1, req.toNat, true⟩ :: s.blocks
  regions := if s.heap.fits (roundUp req heapAlign) then s.regions
    else (newpage.toNat, newpage.toNat + pageSize) :: s.regions

/-- One step.  There is no result when the kernel panics. -/
def step (s : HeapRun) : HeapLabel → Option HeapRun
  | .kmalloc size ra newpage =>
      (s.heap.heapMallocActual size ra newpage).map (s.returned size newpage)
  | .kcalloc nelts eltsz ra newpage =>
      (s.heap.heapCallocActual nelts eltsz ra newpage).map (s.returned (nelts * eltsz) newpage)
  | .kfree ptr ra => (s.heap.heapFreeActual ptr ra).map fun h =>
      { s with
        heap := h
        blocks := s.blocks.map fun b => if b.ptr = ptr then { b with live := false } else b }
  | .write a v => some { s with heap := { s.heap with bytes := Function.update s.heap.bytes a v } }

/-- The states that runs reach from `heap_init`. -/
inductive Run : HeapRun → Prop where
  | init {bytes : ByteMem} {start fin : Ptr} {h : Heap} : Heap.init bytes start fin = some h →
      Run ⟨h, [], [(h.low.toNat, h.fin.toNat)]⟩
  | step {s s' : HeapRun} (lbl : HeapLabel) : Run s → s.Enabled lbl → s.step lbl = some s' → Run s'

end HeapRun

end MiniOs
