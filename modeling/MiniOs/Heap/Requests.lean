import MiniOs.Heap.Blocks
import MiniOs.Memory.Allocator

/-!
# Requests of every size

The heap with the page pool behind it.  `heap_malloc_actual` rounds the size before it
compares it with the limit, so the sizes just below `2 ^ 64` pass as 0, and it uses the
page of `alloc_phys_page` without looking whether there was one.  Other requests panic or
get a block inside the memory of the heap.

`create_pipe` asks for a `struct pipe_state` with its buffer inside, which is larger than
the limit.
-/

namespace MiniOs

namespace Heap

/-- `heap_malloc_actual` gets to its call of `alloc_phys_page`. -/
def takesPage (h : Heap) (size : Word) : Bool :=
  size ≠ 0 && !decide (heapAllocMax < roundUp size heapAlign) && !h.fits (roundUp size heapAlign)

/-- A call that takes a page from the pool when it gets there. -/
def withPage (h : Heap) (pool : Memory) (size : Word) (call : Ptr → Option (Ptr × Heap)) :
    Option (Ptr × Heap × Memory) :=
  if h.takesPage size then
    pool.allocPhysPage.bind fun (newpage, pool) => (call newpage).map fun (ptr, h) => (ptr, h, pool)
  else (call 0).map fun (ptr, h) => (ptr, h, pool)

/-- `kmalloc`. -/
def kmalloc (h : Heap) (pool : Memory) (size : Word) (ra : Ptr) : Option (Ptr × Heap × Memory) :=
  h.withPage pool size (h.heapMallocActual size ra)

/-- `kcalloc`. -/
def kcalloc (h : Heap) (pool : Memory) (nelts eltsz : Word) (ra : Ptr) :
    Option (Ptr × Heap × Memory) :=
  h.withPage pool (nelts * eltsz) (h.heapCallocActual nelts eltsz ra)

variable {h : Heap} {pool pool' : Memory} {size : Word} {newpage : Ptr}
  {call : Ptr → Option (Ptr × Heap)}

theorem takesPage_eq (hne : size ≠ 0) (hle : ¬ heapAllocMax < roundUp size heapAlign) :
    h.takesPage size = !h.fits (roundUp size heapAlign) := by
  rw [takesPage, decide_eq_true hne, decide_eq_false hle]
  simp

theorem withPage_given (ht : h.takesPage size = false) :
    h.withPage pool size call = (call 0).map fun (ptr, h) => (ptr, h, pool) := by
  rw [withPage, ht]
  rfl

theorem withPage_taken (ht : h.takesPage size = true)
    (halloc : pool.allocPhysPage = some (newpage, pool')) :
    h.withPage pool size call = (call newpage).map fun (ptr, h) => (ptr, h, pool') := by
  rw [withPage, ht, halloc]
  rfl

/-- A block of no bytes. -/
theorem place_zero (h : Heap) (newpage : Ptr) :
    ∃ h', h.place 0 newpage = some (if h.fits 0 then h.fin else newpage + 4096, h') := by
  rw [place]
  cases hfits : h.fits 0 with
  | true => exact ⟨_, by simp; rfl⟩
  | false =>
    have hsmall : ¬ (pageSize : Word) - headerSize < 0 := by decide
    have hptr : newpage + (pageSize : Word) - 0 = newpage + 4096 := BitVec.sub_zero _
    simp only [Bool.false_eq_true, if_false, if_neg hsmall]
    rw [hptr]
    split
    · exact ⟨_, rfl⟩
    · exact ⟨_, rfl⟩

end Heap

/-! ## `kmalloc` -/

namespace HeapRun

variable {s s' : HeapRun} {pool pool' : Memory} {size : Word} {regions : List (Nat × Nat)}

/-- The regions of the heap end inside the address space. -/
theorem Run.region_le (h : Run s) : ∀ r ∈ s.regions, r.2 ≤ 2 ^ 64 := by
  have hreturned : ∀ {s : HeapRun} {req : Word} {newpage : Ptr} (x : Ptr × Heap),
      (∀ r ∈ s.regions, r.2 ≤ 2 ^ 64) →
      (s.heap.fits (roundUp req heapAlign) = false → s.Fresh newpage) →
      ∀ r ∈ (s.returned req newpage x).regions, r.2 ≤ 2 ^ 64 := by
    intro s req newpage x ih hfresh r hr
    rw [returned] at hr
    cases hfits : s.heap.fits (roundUp req heapAlign) with
    | true =>
      rw [hfits] at hr
      exact ih r hr
    | false =>
      rw [hfits] at hr
      rcases List.mem_cons.mp hr with rfl | hr
      · have hal := (hfresh hfits).1
        have hlt := newpage.isLt
        simp only [pageSize] at hal ⊢
        omega
      · exact ih r hr
  induction h with
  | init _ =>
    intro r hr
    rw [List.mem_singleton.mp hr]
    exact Nat.le_of_lt (BitVec.isLt _)
  | @step s s' lbl hrun hen hst ih =>
    cases lbl with
    | kmalloc size ra newpage =>
      obtain ⟨x, -, rfl⟩ := Option.map_eq_some_iff.mp hst
      exact hreturned x ih hen.2.2
    | kcalloc nelts eltsz ra newpage =>
      obtain ⟨x, -, rfl⟩ := Option.map_eq_some_iff.mp hst
      exact hreturned x ih hen.2.2
    | kfree ptr ra =>
      obtain ⟨x, -, rfl⟩ := Option.map_eq_some_iff.mp hst
      exact ih
    | write a v =>
      cases hst
      exact ih

/-- The memory a call may use: what the heap was given, and the page it took. -/
inductive Usable (s : HeapRun) (pool : Memory) : List (Nat × Nat) → Memory → Prop where
  | given : Usable s pool s.regions pool
  | taken {newpage : Ptr} {pool' : Memory} : pool.allocPhysPage = some (newpage, pool') →
      newpage ≠ 0 →
      Usable s pool ((newpage.toNat, newpage.toNat + pageSize) :: s.regions) pool'

/-- What `kmalloc` of `size` bytes may do: panic, return a null pointer, or return a block that
lies with its header inside usable memory, and write nowhere else. -/
inductive Proper (s : HeapRun) (pool : Memory) (size : Word) : Option (Ptr × Heap × Memory) → Prop where
  | panic : Proper s pool size none
  | null {h : Heap} {pool' : Memory} : h.bytes = s.heap.bytes → Proper s pool size (some (0, h, pool'))
  | block {ptr : Ptr} {h : Heap} {pool' : Memory} {regions : List (Nat × Nat)} :
      Usable s pool regions pool' → 16 ≤ ptr.toNat →
      InRegion regions (ptr.toNat - 16) (ptr.toNat + size.toNat) →
      (∀ a, h.bytes a ≠ s.heap.bytes a → InRegion regions a.toNat (a.toNat + 1)) →
      Proper s pool size (some (ptr, h, pool'))

/-- A request up to the limit gets a block of the current region or of the page. -/
theorem Sound.malloc_block (hs : Sound s) (hpos : 1 ≤ size.toNat) (hle : size.toNat ≤ 4000)
    (ra newpage : Ptr)
    (hpage : s.heap.fits (roundUp size heapAlign) = false → newpage.toNat % 4096 = 0) :
    ∃ ptr h, s.heap.heapMallocActual size ra newpage = some (ptr, h) ∧ 16 ≤ ptr.toNat ∧
      ByteMem.EqOff (ptr.toNat - 16) (ptr.toNat + (size.toNat + 15) / 16 * 16) s.heap.bytes h.bytes ∧
      (s.heap.fits (roundUp size heapAlign) = true →
        InRegion s.regions (ptr.toNat - 16) (ptr.toNat + (size.toNat + 15) / 16 * 16)) ∧
      (s.heap.fits (roundUp size heapAlign) = false →
        ptr.toNat = newpage.toNat + 4096 - (size.toNat + 15) / 16 * 16) := by
  have hsize := Heap.toNat_roundUp hle
  obtain ⟨ptr, h', hplace, hbytes, hcase⟩ := Heap.place_spec (roundUp size heapAlign)
    (by omega) (by omega) hs.layout.low_le_fin hpage
  have hfin := s.heap.fin.isLt
  have hnew := newpage.isLt
  have hhead : 16 ≤ ptr.toNat ∧ ptr.toNat + (roundUp size heapAlign).toNat ≤ 2 ^ 64 := by
    rcases hcase with ⟨-, hroom, hptr, -⟩ | ⟨hfits, hptr, -⟩
    · omega
    · have := hpage hfits
      omega
  refine ⟨ptr, { h' with bytes := Heap.setBlock h'.bytes ptr (roundUp size heapAlign) ra }, ?_,
    hhead.1, ?_, fun hf => ?_, fun hf => ?_⟩
  · rw [Heap.heapMallocActual, if_neg (by rintro rfl; simp at hpos)]
    dsimp only
    rw [if_neg, hplace]
    · rfl
    · show ¬ 4000#64 < _
      bv_omega
  · have hoff := Heap.setBlock_eqOff (m := h'.bytes) hhead.1 hhead.2 ra
    rw [hbytes, hsize] at hoff
    rw [hbytes]
    exact hoff
  · rcases hcase with ⟨-, hroom, hptr, -⟩ | ⟨hf', -⟩
    · obtain ⟨r, hr, hrlo, hrhi⟩ := hs.layout.inside
      exact ⟨r, hr, by omega, by omega⟩
    · rw [hf] at hf'
      cases hf'
  · rcases hcase with ⟨hf', -⟩ | ⟨-, hptr, -⟩
    · rw [hf] at hf'
      cases hf'
    · rw [hptr, hsize]

/-- A block inside usable memory. -/
theorem Proper.of_eqOff {ptr : Ptr} {h : Heap}
    (hu : Usable s pool regions pool') (hhead : 16 ≤ ptr.toNat)
    (hoff : ByteMem.EqOff (ptr.toNat - 16) (ptr.toNat + (size.toNat + 15) / 16 * 16) s.heap.bytes h.bytes)
    (hin : InRegion regions (ptr.toNat - 16) (ptr.toNat + (size.toNat + 15) / 16 * 16)) :
    Proper s pool size (some (ptr, h, pool')) := by
  obtain ⟨r, hr, hlo, hhi⟩ := hin
  refine .block hu hhead ⟨r, hr, hlo, by omega⟩ fun a ha => ⟨r, hr, ?_, ?_⟩ <;>
  · by_contra hout
    exact ha (hoff a (by omega))

section Pool

variable {lo hi : Nat} {cs : List Ptr} {free : Finset Nat}

/-- What a call gets from the pool: nothing, or a page that ends below `2 ^ 64`. -/
theorem allocPhysPage_cases (hpool : pool.FreeList lo hi cs free) (hlo : 0 < lo) (hhi : hi < 2 ^ 52) :
    (free = ∅ ∧ pool.allocPhysPage = some (0, pool)) ∨
      (free.Nonempty ∧ ∃ newpage pool', pool.allocPhysPage = some (newpage, pool') ∧ newpage ≠ 0 ∧
        newpage.toNat % 4096 = 0 ∧ newpage.toNat + 4096 < 2 ^ 64) := by
  rcases hpool.allocPhysPage hlo hhi with heq | ⟨pp, pool', -, heq, hne, hal, hmem, -⟩
  · exact .inl ⟨hpool.eq_empty_of_allocPhysPage hlo hhi heq, heq⟩
  · have hb := (hpool.bounds hmem).2
    have hpp := hal.toNat_eq
    simp only [pageSize] at hpp
    exact .inr ⟨⟨_, hmem⟩, pp, pool', heq, hne, hal, by omega⟩

/-- A size that is rounded to 0 gets a pointer. -/
theorem kmalloc_wrapped (hs : Sound s) (hpool : pool.FreeList lo hi cs free) (hlo : 0 < lo)
    (hhi : hi < 2 ^ 52) (hsize : 2 ^ 64 - 15 ≤ size.toNat) (ra : Ptr) :
    ∃ ptr h pool', s.heap.kmalloc pool size ra = some (ptr, h, pool') ∧ ptr ≠ 0 := by
  have hround := Heap.roundUp_of_le hsize
  have hne : size ≠ 0 := by
    rintro rfl
    exact absurd hsize (by decide)
  have htakes : s.heap.takesPage size = !s.heap.fits 0 := by
    rw [Heap.takesPage_eq hne (by rw [hround]; decide), hround]
  have hmalloc : ∀ newpage, s.heap.heapMallocActual size ra newpage =
      (s.heap.place 0 newpage).map fun (ptr, h) =>
        (ptr, { h with bytes := Heap.setBlock h.bytes ptr 0 ra }) := by
    intro newpage
    rw [Heap.heapMallocActual, if_neg hne]
    simp only [hround]
    rw [if_neg (by decide)]
  rw [Heap.kmalloc]
  cases hfits : s.heap.fits 0 with
  | true =>
    -- the end of the current region, which is not empty
    obtain ⟨h', hplace⟩ := s.heap.place_zero 0
    rw [Heap.withPage_given (by rw [htakes, hfits]; rfl), hmalloc, hplace, hfits]
    refine ⟨_, _, _, rfl, fun hz => ?_⟩
    have hle := hs.layout.low_le_fin
    have hlow : s.heap.low = 0 := by
      apply BitVec.eq_of_toNat_eq
      rw [show s.heap.fin = 0 from hz] at hle
      exact Nat.le_zero.mp hle
    rw [Heap.fits, show s.heap.fin = 0 from hz, hlow] at hfits
    exact absurd hfits (by decide)
  | false =>
    rcases allocPhysPage_cases hpool hlo hhi with ⟨-, halloc⟩ | ⟨-, newpage, pool', halloc, -, -, hlt⟩
    · obtain ⟨h', hplace⟩ := s.heap.place_zero 0
      rw [Heap.withPage_taken (by rw [htakes, hfits]; rfl) halloc, hmalloc, hplace, hfits]
      exact ⟨_, _, _, rfl, show (0 + 4096 : Ptr) ≠ 0 by decide⟩
    · obtain ⟨h', hplace⟩ := s.heap.place_zero newpage
      rw [Heap.withPage_taken (by rw [htakes, hfits]; rfl) halloc, hmalloc, hplace, hfits]
      refine ⟨_, _, _, rfl, fun hz => ?_⟩
      have hsum : (newpage + 4096).toNat = 0 := congrArg BitVec.toNat hz
      bv_omega

/-- A region of usable memory ends inside the address space. -/
theorem Usable.region_le (hrun : Run s) (hpool : pool.FreeList lo hi cs free) (hlo : 0 < lo)
    (hhi : hi < 2 ^ 52) (hu : Usable s pool regions pool') :
    ∀ r ∈ regions, r.2 ≤ 2 ^ 64 := by
  intro r hr
  cases hu with
  | given => exact hrun.region_le r hr
  | taken halloc hnz =>
    rcases List.mem_cons.mp hr with rfl | hr
    · rcases allocPhysPage_cases hpool hlo hhi with ⟨-, h0⟩ | ⟨-, _, _, h1, -, -, hlt⟩
      · rw [halloc] at h0
        cases h0
        exact absurd rfl hnz
      · rw [halloc] at h1
        cases h1
        exact Nat.le_of_lt hlt
    · exact hrun.region_le r hr

/-- Without a free page a call may use the memory of the heap only. -/
theorem Usable.eq_given (halloc : pool.allocPhysPage = some (0, pool))
    (hu : Usable s pool regions pool') : regions = s.regions := by
  cases hu with
  | given => rfl
  | taken halloc' hnz =>
    rw [halloc] at halloc'
    cases halloc'
    exact absurd rfl hnz

/-- A request up to the limit. -/
theorem kmalloc_small_iff (hs : Sound s) (hram : ∀ r ∈ s.regions, 0x80000000 ≤ r.1)
    (hpool : pool.FreeList lo hi cs free) (hlo : 0 < lo) (hhi : hi < 2 ^ 52)
    (hpos : 1 ≤ size.toNat) (hle : size.toNat ≤ 4000) (ra : Ptr) :
    Proper s pool size (s.heap.kmalloc pool size ra) ↔
      (s.heap.fits (roundUp size heapAlign) = false → free.Nonempty) := by
  have hround := Heap.toNat_roundUp hle
  have hne : size ≠ 0 := by
    rintro rfl
    exact absurd hpos (by decide)
  have hsmall : ¬ heapAllocMax < roundUp size heapAlign := by
    show ¬ (4000 : Nat) < (roundUp size heapAlign).toNat
    omega
  have htakes := Heap.takesPage_eq (h := s.heap) hne hsmall
  rw [Heap.kmalloc]
  cases hfits : s.heap.fits (roundUp size heapAlign) with
  | true =>
    rw [hfits] at htakes
    obtain ⟨ptr, h, heq, hhead, hoff, hin, -⟩ := hs.malloc_block hpos hle ra 0 fun _ => rfl
    rw [Heap.withPage_given htakes, heq]
    exact iff_of_true (.of_eqOff .given hhead hoff (hin hfits)) fun hf => by cases hf
  | false =>
    rw [hfits] at htakes
    rcases allocPhysPage_cases hpool hlo hhi with
      ⟨rfl, halloc⟩ | ⟨hfree, newpage, pool', halloc, hnz, hal, hlt⟩
    · -- the page is null, and the block lies below RAM
      obtain ⟨ptr, h, heq, hhead, -, -, hptr⟩ := hs.malloc_block hpos hle ra 0 fun _ => rfl
      have hptr' : ptr.toNat = 0 + 4096 - (size.toNat + 15) / 16 * 16 := hptr hfits
      rw [Heap.withPage_taken htakes halloc, heq]
      refine iff_of_false (fun hp => ?_) fun hc => Finset.not_nonempty_empty (hc rfl)
      cases hp with
      | null _ => exact absurd hhead (by decide)
      | block hu _ hin _ =>
        obtain ⟨r, hr, hrlo, -⟩ := hin
        rw [hu.eq_given halloc] at hr
        have := hram r hr
        omega
    · obtain ⟨ptr, h, heq, hhead, hoff, -, hptr⟩ := hs.malloc_block hpos hle ra newpage fun _ => hal
      have hptr' := hptr hfits
      rw [Heap.withPage_taken htakes halloc, heq]
      refine iff_of_true (.of_eqOff (.taken halloc hnz) hhead hoff ⟨_, List.mem_cons_self .., ?_, ?_⟩)
        fun _ => hfree
      · show newpage.toNat ≤ _
        omega
      · show _ ≤ newpage.toNat + 4096
        omega

/-- `kmalloc` does what it may when the size is not one of the last fifteen and there is a page
where it needs one. -/
theorem kmalloc_proper_iff (hrun : Run s) (hram : ∀ r ∈ s.regions, 0x80000000 ≤ r.1)
    (hpool : pool.FreeList lo hi cs free) (hlo : 0 < lo) (hhi : hi < 2 ^ 52) (size : Word) (ra : Ptr) :
    Proper s pool size (s.heap.kmalloc pool size ra) ↔
      size.toNat < 2 ^ 64 - 15 ∧ (s.heap.takesPage size = true → free.Nonempty) := by
  by_cases hwrap : 2 ^ 64 - 15 ≤ size.toNat
  · refine iff_of_false ?_ fun hc => absurd hc.1 (Nat.not_lt.mpr hwrap)
    obtain ⟨ptr, h, pool', heq, hne⟩ := kmalloc_wrapped hrun.sound hpool hlo hhi hwrap ra
    rw [heq]
    intro hp
    cases hp with
    | null _ => exact hne rfl
    | block hu hhead hin _ =>
      -- no region is that large
      obtain ⟨r, hr, hrlo, hrhi⟩ := hin
      have := hu.region_le hrun hpool hlo hhi r hr
      omega
  · rw [Nat.not_le] at hwrap
    have hround := Heap.toNat_roundUp_of_lt hwrap
    by_cases hz : size = 0
    · subst hz
      exact iff_of_true (.null rfl) ⟨hwrap, fun ht => by cases ht⟩
    · by_cases hbig : heapAllocMax < roundUp size heapAlign
      · -- the request is refused
        have htakes : s.heap.takesPage size = false := by
          rw [Heap.takesPage, decide_eq_true hbig]
          simp
        refine iff_of_true ?_ ⟨hwrap, fun ht => ?_⟩
        · rw [Heap.kmalloc, Heap.withPage_given htakes, Heap.heapMallocActual, if_neg hz]
          simp only [if_pos hbig]
          exact .panic
        · rw [htakes] at ht
          cases ht
      · have hle : size.toNat ≤ 4000 := by
          have : ¬ (4000 : Nat) < (roundUp size heapAlign).toNat := hbig
          omega
        have hpos : 1 ≤ size.toNat := by
          by_contra hlt
          exact hz (BitVec.eq_of_toNat_eq (show size.toNat = 0 by omega))
        rw [kmalloc_small_iff hrun.sound hram hpool hlo hhi hpos hle ra, Heap.takesPage_eq hz hbig]
        simp only [hwrap, true_and, Bool.not_eq_true']

end Pool

/-- A heap of 32 bytes. -/
def small : HeapRun := ⟨⟨fun _ => 0, 0x80001000, 0x80001020⟩, [], [(0x80001000, 0x80001020)]⟩

theorem run_small : Run small := by
  have hinit : Heap.init (fun _ => 0) 0x80001000 0x80001020 =
      some ⟨fun _ => 0, 0x80001000, 0x80001020⟩ := by
    have h₁ : roundUp 0x80001000 heapAlign = 0x80001000 := by decide
    have h2 : roundDown 0x80001020 heapAlign = 0x80001020 := by decide
    rw [Heap.init, h₁, h2]
    rfl
  exact .init hinit

theorem small_ram : ∀ r ∈ small.regions, 0x80000000 ≤ r.1 := by
  intro r hr
  rw [List.mem_singleton.mp hr]
  decide

/-- The pages from `0x80002000` up to an address. -/
def poolTo (ramEnd : Ptr) : Memory := Memory.initChunks ⟨fun _ => 0, 0, 0⟩ 0x80002000 ramEnd

theorem freeList_poolTo {ramEnd : Ptr} (h : Memory.Aligned ramEnd) :
    ∃ cs, (poolTo ramEnd).FreeList (Memory.frame 0x80002000) (Memory.frame ramEnd) cs
      (Finset.Ico (Memory.frame 0x80002000) (Memory.frame ramEnd)) :=
  Memory.FreeList.initChunks _ (by decide) h (by decide)

/-- A request that does not fit the heap gets a block of one of two free pages. -/
theorem kmalloc_proper_small : Proper small (poolTo 0x80004000) 100
    (small.heap.kmalloc (poolTo 0x80004000) 100 0) := by
  obtain ⟨cs, hpool⟩ := freeList_poolTo (show Memory.Aligned 0x80004000 by decide)
  exact (kmalloc_proper_iff run_small small_ram hpool (by decide) (by decide) 100 0).mpr
    ⟨by decide, fun _ => ⟨0x80002, by decide⟩⟩

/-- Without a free page the same request gets a block at the end of page 0, and its header is
written there; and a request of `2 ^ 64 - 1` bytes gets the end of the heap. -/
theorem kmalloc_writes_page_zero :
    ((small.heap.kmalloc (poolTo 0x80002000) 100 0).map fun x => (x.1, x.2.1.bytes 0xF80)) =
        some (0xF90, 0xEA) ∧
      ¬ Proper small (poolTo 0x80002000) 100 (small.heap.kmalloc (poolTo 0x80002000) 100 0) ∧
      (small.heap.kmalloc (poolTo 0x80002000) (-1) 0).map (fun x => x.1) = some 0x80001020 := by
  obtain ⟨cs, hpool⟩ := freeList_poolTo (show Memory.Aligned 0x80002000 by decide)
  refine ⟨by decide +kernel, ?_, by decide +kernel⟩
  rw [kmalloc_small_iff run_small.sound small_ram hpool (by decide) (by decide) (by decide) (by decide)]
  intro hc
  exact absurd (hc (by decide)) (by decide)

end HeapRun

/-! ## `create_pipe` -/

/-- A type of C: its size and alignment. -/
structure CType where
  size : Nat
  align : Nat

namespace CType

/-- Pointers and `unsigned long`, `int`, `uint16_t`, arrays of bytes and other arrays (LP64). -/
def ptr : CType := ⟨8, 8⟩

def int : CType := ⟨4, 4⟩

def uint16 : CType := ⟨2, 2⟩

def bytes (n : Nat) : CType := ⟨n, 1⟩

def array (n : Nat) (t : CType) : CType := ⟨n * t.size, t.align⟩

/-- The next offset that is aligned for a field. -/
def padTo (align off : Nat) : Nat := (off + align - 1) / align * align

/-- The end of fields that are laid out one after the other. -/
def fieldsEnd (fields : List CType) : Nat :=
  fields.foldl (fun off t => padTo t.align off + t.size) 0

/-- The offset of field `k` of a structure. -/
def offset (fields : List CType) (k : Nat) : Word :=
  BitVec.ofNat 64 (padTo ((fields[k]?.map align).getD 1) (fieldsEnd (fields.take k)))

/-- A structure. -/
def struct (fields : List CType) : CType :=
  let align := fields.foldl (fun a t => max a t.align) 1
  ⟨padTo align (fieldsEnd fields), align⟩

/-- `sizeof`. -/
def sizeof (fields : List CType) : Word := BitVec.ofNat 64 (struct fields).size

end CType

namespace HeapPipe

open CType

/-- `PIPE_BUF_SIZE`. -/
def pipeBufSize : Nat := 4096

/-- `head` and `tail` of `struct thread_list`. -/
def threadList : List CType := [ptr, ptr]

/-- `name` and `wait_list` of `struct condition`. -/
def condition : List CType := [ptr, struct threadList]

/-- `cv`, `owner`, `count` and `next` of `struct lock`. -/
def lock : List CType := [struct condition, ptr, int, ptr]

/-- `lock`, `not_empty`, `not_full`, `write_open`, `read_open`, `head`, `tail` and `buf` of
`struct pipe_state`. -/
def pipeState : List CType :=
  [struct lock, struct condition, struct condition, int, int, uint16, uint16, bytes pipeBufSize]

/-- `intf` and `refcnt` of `struct io`. -/
def io : List CType := [ptr, ptr]

/-- `io`, `state` and `is_writer` of `struct pipe_end`. -/
def pipeEnd : List CType := [struct io, ptr, int]

/-- A pointer or an `unsigned long` is set. -/
def setLong (m : ByteMem) (p : Ptr) (v : Word) : ByteMem :=
  (m.setWord p (Heap.toU32 v)).setWord (p + 4) (Heap.toU32 (v >>> 32))

/-- The two halves of the pointer or `unsigned long` at `p`. -/
def long (m : ByteMem) (p : Ptr) : UInt32 × UInt32 := (m.word p, m.word (p + 4))

/-- Addresses of the tables of functions and of the names. -/
structure Consts where
  wintf : Ptr
  rintf : Ptr
  lockName : Ptr
  rdName : Ptr
  wrName : Ptr

/-- `condition_init`. -/
def conditionInit (m : ByteMem) (cond name : Ptr) : ByteMem :=
  let list := cond + offset condition 1
  let m := setLong m (list + offset threadList 0) 0
  let m := setLong m (list + offset threadList 1) 0
  setLong m (cond + offset condition 0) name

/-- `lock_init`. -/
def lockInit (m : ByteMem) (lk name : Ptr) : ByteMem :=
  let m := conditionInit m (lk + offset lock 0) name
  let m := setLong m (lk + offset lock 1) 0
  let m := m.setWord (lk + offset lock 2) 0
  setLong m (lk + offset lock 3) 0

/-- `ioinit1` of an endpoint that is not null. -/
def ioinit1 (m : ByteMem) (i intf : Ptr) : ByteMem :=
  setLong (setLong m (i + offset io 0) intf) (i + offset io 1) 1

/-- `create_pipe`: the two endpoints, null when there was no memory. -/
def createPipe (c : Consts) (h : Heap) (pool : Memory) (ra : Ptr) :
    Option (Ptr × Ptr × Heap × Memory) := do
  let (s, h, pool) ← h.kcalloc pool 1 (sizeof pipeState) ra
  let (w, h, pool) ← h.kcalloc pool 1 (sizeof pipeEnd) ra
  let (r, h, pool) ← h.kcalloc pool 1 (sizeof pipeEnd) ra
  if s = 0 ∨ w = 0 ∨ r = 0 then
    let h ← h.heapFreeActual s ra
    let h ← h.heapFreeActual w ra
    let h ← h.heapFreeActual r ra
    return (0, 0, h, pool)
  let m := lockInit h.bytes (s + offset pipeState 0) c.lockName
  let m := conditionInit m (s + offset pipeState 1) c.rdName
  let m := conditionInit m (s + offset pipeState 2) c.wrName
  let m := m.setWord (s + offset pipeState 3) 1
  let m := m.setWord (s + offset pipeState 4) 1
  let m := setLong m (w + offset pipeEnd 1) s
  let m := m.setWord (w + offset pipeEnd 2) 1
  let m := setLong m (r + offset pipeEnd 1) s
  let m := m.setWord (r + offset pipeEnd 2) 0
  let m := ioinit1 m (w + offset pipeEnd 0) c.wintf
  let m := ioinit1 m (r + offset pipeEnd 0) c.rintf
  return (w + offset pipeEnd 0, r + offset pipeEnd 0, { h with bytes := m }, pool)

/-- The endpoint at `e` has one reference and belongs to the state at `s`. -/
structure IsEnd (m : ByteMem) (e s : Ptr) (writer : UInt32) : Prop where
  ne : e ≠ 0
  refcnt : long m (e + offset io 1) = (1, 0)
  state : long m (e + offset pipeEnd 1) = (Heap.toU32 s, Heap.toU32 (s >>> 32))
  isWriter : m.word (e + offset pipeEnd 2) = writer

/-- A pipe was made: a writer and a reader with one reference each, of one state that is empty
and open on both sides. -/
structure Made (c : Consts) (h : Heap) (pool : Memory) (ra w r s : Ptr) (h' : Heap)
    (pool' : Memory) : Prop where
  returns : createPipe c h pool ra = some (w, r, h', pool')
  writer : IsEnd h'.bytes w s 1
  reader : IsEnd h'.bytes r s 0
  writeOpen : h'.bytes.word (s + offset pipeState 3) = 1
  readOpen : h'.bytes.word (s + offset pipeState 4) = 1
  /-- `head` and `tail`. -/
  empty : h'.bytes.word (s + offset pipeState 5) = 0

/-- The assertion of `heap_calloc_actual` fails. -/
theorem kcalloc_pipeState (h : Heap) (pool : Memory) (ra : Ptr) :
    h.kcalloc pool 1 (sizeof pipeState) ra = none := by
  have hlimit : ¬ (1 : Word) ≤ heapAllocMax / sizeof pipeState := by decide
  have hcall : ∀ newpage, h.heapCallocActual 1 (sizeof pipeState) ra newpage = none :=
    fun _ => if_neg hlimit
  rw [Heap.kcalloc, Heap.withPage]
  split
  · cases pool.allocPhysPage with
    | none => rfl
    | some x => simp only [Option.bind_some, hcall, Option.map_none]
  · rw [hcall]
    rfl

/-- `create_pipe` panics, whatever the heap and the pool. -/
theorem createPipe_eq_none (c : Consts) (h : Heap) (pool : Memory) (ra : Ptr) :
    createPipe c h pool ra = none := by
  rw [createPipe, kcalloc_pipeState]
  rfl

/-- No call of `create_pipe` makes a pipe. -/
theorem pipe_never_made (c : Consts) (h : Heap) (pool : Memory) (ra w r s : Ptr) (h' : Heap)
    (pool' : Memory) : ¬ Made c h pool ra w r s h' pool' := by
  intro hm
  have hret := hm.returns
  rw [createPipe_eq_none] at hret
  cases hret

/-- With two free pages. -/
theorem createPipe_panics : (HeapRun.poolTo 0x80004000).freePhysPageCount = some 2 ∧
    (createPipe ⟨0x80000000, 0x80000040, 0x80000080, 0x80000088, 0x80000090⟩ HeapRun.small.heap
      (HeapRun.poolTo 0x80004000) 0).isNone := by
  decide +kernel

end HeapPipe

end MiniOs
