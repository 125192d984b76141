import MiniOs.Base.Runs
import MiniOs.Heap.Model

/-!
# The blocks of the kernel heap

`HeapLayout` is about numbers only: where the current region, the blocks and their headers lie.
A new block is cut from the end of the current region or of a new page, and what is left
of that page may become the current region.  `Marked` is about the bytes of a header: the two
words that `kfree` compares.  A write that stays inside one block or its header leaves every
other header as it is.
-/

namespace MiniOs

variable {newpage ptr : Ptr} {n size : Word}

/-! ## Where the blocks are -/

/-- The addresses from `lo` up to `hi` are part of one region. -/
def InRegion (regions : List (Nat × Nat)) (lo hi : Nat) : Prop :=
  ∃ r ∈ regions, r.1 ≤ lo ∧ hi ≤ r.2

theorem InRegion.cons {regions : List (Nat × Nat)} {lo hi : Nat} (h : InRegion regions lo hi)
    (r : Nat × Nat) : InRegion (r :: regions) lo hi := by
  obtain ⟨r', hr, hin⟩ := h
  exact ⟨r', List.mem_cons_of_mem _ hr, hin⟩

namespace HeapBlock

instance : Std.Symm Apart := ⟨fun _ _ h => Or.symm h⟩

theorem size_mod (b : HeapBlock) : b.size % 16 = 0 := Nat.mul_mod_left _ _

theorem req_le_size (b : HeapBlock) : b.req ≤ b.size := by
  rw [size]
  omega

/-- A block is aligned, and it and its header are addresses of one region. -/
structure Ok (regions : List (Nat × Nat)) (b : HeapBlock) : Prop where
  aligned : b.ptr.toNat % 16 = 0
  header : 16 ≤ b.ptr.toNat
  req_pos : 1 ≤ b.req
  req_le : b.req ≤ 4000
  bound : b.hi ≤ 2 ^ 64
  inside : InRegion regions b.lo b.hi

variable {regions : List (Nat × Nat)} {b : HeapBlock}

theorem Ok.size_pos (h : b.Ok regions) : 16 ≤ b.size := by
  have := h.req_pos
  rw [size]
  omega

theorem Ok.size_le (h : b.Ok regions) : b.size ≤ 4000 := by
  have := h.req_le
  rw [size]
  omega

theorem Ok.cons (h : b.Ok regions) (r : Nat × Nat) :
    b.Ok (r :: regions) :=
  ⟨h.aligned, h.header, h.req_pos, h.req_le, h.bound, h.inside.cons r⟩

end HeapBlock

/-- The current region from `low` up to `fin`, and the blocks that were returned. -/
structure HeapLayout (low fin : Nat) (regions : List (Nat × Nat)) (blocks : List HeapBlock) :
    Prop where
  low_aligned : low % 16 = 0
  fin_aligned : fin % 16 = 0
  low_le_fin : low ≤ fin
  inside : InRegion regions low fin
  ok : ∀ b ∈ blocks, b.Ok regions
  off : ∀ b ∈ blocks, b.hi ≤ low ∨ fin ≤ b.lo
  apart : blocks.Pairwise HeapBlock.Apart

namespace HeapLayout

variable {low fin : Nat} {regions : List (Nat × Nat)} {blocks : List HeapBlock} {b : HeapBlock}

section

variable (h : HeapLayout low fin regions blocks)

include h

/-- A block is cut from the end of the current region. -/
theorem bump (hpos : 1 ≤ b.req) (hle : b.req ≤ 4000)
    (hroom : b.size + 16 ≤ fin - low) (hfin : fin ≤ 2 ^ 64) (hptr : b.ptr.toNat = fin - b.size) :
    HeapLayout low (fin - b.size - 16) regions (b :: blocks) := by
  have hmod := b.size_mod
  have hla := h.low_aligned
  have hfa := h.fin_aligned
  obtain ⟨r, hr, hrlo, hrhi⟩ := h.inside
  have hlo : b.lo = fin - b.size - 16 := by rw [HeapBlock.lo, hptr]
  have hhi : b.hi = fin := by
    rw [HeapBlock.hi, hptr]
    omega
  refine ⟨hla, by omega, by omega, ⟨r, hr, hrlo, by omega⟩, ?_, ?_, ?_⟩
  · intro c hc
    rcases List.mem_cons.mp hc with rfl | hc
    · exact ⟨by omega, by omega, hpos, hle, by omega, r, hr, by omega, by omega⟩
    · exact h.ok c hc
  · intro c hc
    rcases List.mem_cons.mp hc with rfl | hc
    · right
      omega
    · have := h.off c hc
      omega
  · refine List.pairwise_cons.mpr ⟨fun c hc => ?_, h.apart⟩
    have hoff := h.off c hc
    have hlohi : c.lo < c.hi := by
      have := (h.ok c hc).size_pos
      rw [HeapBlock.lo, HeapBlock.hi]
      omega
    rw [HeapBlock.Apart]
    omega

/-- A block is cut from the end of a new page; the current region is one of the two. -/
theorem page (hpos : 1 ≤ b.req) (hle : b.req ≤ 4000)
    {p : Nat} (hp : p % 4096 = 0) (hbound : p + 4096 ≤ 2 ^ 64)
    (hfresh : ∀ r ∈ regions, r.2 ≤ p ∨ p + 4096 ≤ r.1) (hptr : b.ptr.toNat = p + 4096 - b.size)
    {low' fin' : Nat} (hnew : low' = low ∧ fin' = fin ∨ low' = p ∧ fin' = p + 4096 - b.size - 16) :
    HeapLayout low' fin' ((p, p + 4096) :: regions) (b :: blocks) := by
  have hmod := b.size_mod
  have hsize : 16 ≤ b.size ∧ b.size ≤ 4000 := by
    rw [HeapBlock.size]
    omega
  have hla := h.low_aligned
  have hfa := h.fin_aligned
  have hlf := h.low_le_fin
  obtain ⟨r, hr, hrlo, hrhi⟩ := h.inside
  have hlo : b.lo = p + 4096 - b.size - 16 := by rw [HeapBlock.lo, hptr]
  have hhi : b.hi = p + 4096 := by
    rw [HeapBlock.hi, hptr]
    omega
  -- what is in an old region does not meet the page
  have hold : ∀ {lo hi}, InRegion regions lo hi → hi ≤ p ∨ p + 4096 ≤ lo := by
    rintro lo hi ⟨r, hr, hrlo, hrhi⟩
    have := hfresh r hr
    omega
  have hregion := hold h.inside
  refine ⟨by omega, by omega, by omega, ?_, ?_, ?_, ?_⟩
  · rcases hnew with ⟨rfl, rfl⟩ | ⟨rfl, rfl⟩
    · exact h.inside.cons _
    · exact ⟨_, List.mem_cons_self .., Nat.le_refl _, by omega⟩
  · intro c hc
    rcases List.mem_cons.mp hc with rfl | hc
    · exact ⟨by omega, by omega, hpos, hle, by omega, _, List.mem_cons_self .., by omega, by omega⟩
    · exact (h.ok c hc).cons _
  · intro c hc
    rcases List.mem_cons.mp hc with rfl | hc
    · omega
    · have := h.off c hc
      have := hold (h.ok c hc).inside
      omega
  · refine List.pairwise_cons.mpr ⟨fun c hc => ?_, h.apart⟩
    have := hold (h.ok c hc).inside
    rw [HeapBlock.Apart]
    omega

/-- Blocks are told apart by their addresses. -/
theorem eq_of_ptr {c : HeapBlock} (hb : b ∈ blocks)
    (hc : c ∈ blocks) (hptr : b.ptr = c.ptr) : b = c := by
  by_contra hne
  have hapart : b.Apart c := h.apart.forall hb hc hne
  have hsb := (h.ok b hb).size_pos
  have hsc := (h.ok c hc).size_pos
  rw [HeapBlock.Apart, HeapBlock.hi, HeapBlock.hi, HeapBlock.lo, HeapBlock.lo, hptr] at hapart
  omega

/-- What does not change the blocks' addresses and sizes. -/
theorem map {f : HeapBlock → HeapBlock}
    (hptr : ∀ b, (f b).ptr = b.ptr) (hreq : ∀ b, (f b).req = b.req) :
    HeapLayout low fin regions (blocks.map f) := by
  have hsize : ∀ b, (f b).size = b.size := fun b => by rw [HeapBlock.size, hreq, HeapBlock.size]
  have hlo : ∀ b, (f b).lo = b.lo := fun b => by rw [HeapBlock.lo, hptr, HeapBlock.lo]
  have hhi : ∀ b, (f b).hi = b.hi := fun b => by rw [HeapBlock.hi, hptr, hsize, HeapBlock.hi]
  refine ⟨h.low_aligned, h.fin_aligned, h.low_le_fin, h.inside, fun b hb => ?_, fun b hb => ?_, ?_⟩
  · obtain ⟨c, hc, rfl⟩ := List.mem_map.mp hb
    have hok := h.ok c hc
    exact ⟨by rw [hptr]; exact hok.aligned, by rw [hptr]; exact hok.header, by rw [hreq]; exact hok.req_pos,
      by rw [hreq]; exact hok.req_le, by rw [hhi]; exact hok.bound, by rw [hlo, hhi]; exact hok.inside⟩
  · obtain ⟨c, hc, rfl⟩ := List.mem_map.mp hb
    rw [hlo, hhi]
    exact h.off c hc
  · refine List.pairwise_map.mpr (h.apart.imp fun {b c} hbc => ?_)
    rw [HeapBlock.Apart, hlo, hhi, hlo, hhi]
    exact hbc

end

end HeapLayout

/-! ## Headers -/

namespace Heap

variable {h h' : Heap} {b : HeapBlock} {regions : List (Nat × Nat)} {m m' : ByteMem}

/-- The words of the header that `kfree` compares. -/
structure Marked (m : ByteMem) (b : HeapBlock) : Prop where
  size : m.word (sizeAddr b.ptr) = UInt32.ofNat b.size
  sizeInv : m.word (sizeInvAddr b.ptr) = if b.live then ~~~ (UInt32.ofNat b.size) else 0

theorem toNat_sizeAddr (h : 16 ≤ ptr.toNat) : (sizeAddr ptr).toNat = ptr.toNat - 12 := by
  rw [sizeAddr]
  bv_omega

theorem toNat_sizeInvAddr (h : 16 ≤ ptr.toNat) :
    (sizeInvAddr ptr).toNat = ptr.toNat - 8 := by
  rw [sizeInvAddr]
  bv_omega

/-- A change that does not meet the header. -/
theorem Marked.congr (hm : Marked m b) (hb : b.Ok regions) {lo hi : Nat}
    (heq : ByteMem.EqOff lo hi m m') (hoff : b.ptr.toNat ≤ lo ∨ hi ≤ b.lo) : Marked m' b := by
  have hhead := hb.header
  have hlt := b.ptr.isLt
  rw [HeapBlock.lo] at hoff
  constructor
  · rw [heq.word, hm.size] <;> rw [toNat_sizeAddr hhead] <;> omega
  · rw [heq.word, hm.sizeInv] <;> rw [toNat_sizeInvAddr hhead] <;> omega

theorem toU32_not (h : size.toNat ≤ 4000) :
    toU32 (~~~ size) = ~~~ (UInt32.ofNat size.toNat) := by
  apply UInt32.toNat_inj.mp
  have hword : UInt32.size = 2 ^ 32 := rfl
  rw [toU32, UInt32.toNat_ofNat', BitVec.toNat_not, UInt32.toNat_not, UInt32.toNat_ofNat', hword]
  omega

/-- The header and the bytes of a block are written. -/
theorem setBlock_eqOff (hptr : 16 ≤ ptr.toNat)
    (hbound : ptr.toNat + size.toNat ≤ 2 ^ 64) (ra : Ptr) :
    ByteMem.EqOff (ptr.toNat - 16) (ptr.toNat + size.toNat) m (setBlock m ptr size ra) := by
  have hlt := ptr.isLt
  have hmagic : (magicAddr ptr).toNat = ptr.toNat - 16 := by
    rw [magicAddr]
    bv_omega
  have hra : (raAddr ptr).toNat = ptr.toNat - 4 := by
    rw [raAddr]
    bv_omega
  have hsz := toNat_sizeAddr hptr
  have hinv := toNat_sizeInvAddr hptr
  rw [setBlock]
  refine .trans (.trans (.trans (.trans ((ByteMem.eqOff_setWord ?_).mono ?_ ?_)
    ((ByteMem.eqOff_setWord ?_).mono ?_ ?_)) ((ByteMem.eqOff_setWord ?_).mono ?_ ?_))
    ((ByteMem.eqOff_setWord ?_).mono ?_ ?_)) ((ByteMem.eqOff_fill ?_).mono ?_ ?_) <;> omega

theorem setBlock_marked (hptr : 16 ≤ ptr.toNat) (hsize : size.toNat ≤ 4000)
    (hbound : ptr.toNat + size.toNat ≤ 2 ^ 64) (ra : Ptr) :
    (setBlock m ptr size ra).word (sizeAddr ptr) = UInt32.ofNat size.toNat ∧
      (setBlock m ptr size ra).word (sizeInvAddr ptr) = ~~~ (UInt32.ofNat size.toNat) := by
  have hlt := ptr.isLt
  have hra : (raAddr ptr).toNat = ptr.toNat - 4 := by
    rw [raAddr]
    bv_omega
  have hsz := toNat_sizeAddr hptr
  have hinv := toNat_sizeInvAddr hptr
  simp only [setBlock]
  constructor
  · rw [(ByteMem.eqOff_fill hbound).word (by omega) (by omega),
      (ByteMem.eqOff_setWord (by omega)).word (by omega) (by omega),
      (ByteMem.eqOff_setWord (by omega)).word (by omega) (by omega), ByteMem.word_setWord_self]
    rfl
  · rw [(ByteMem.eqOff_fill hbound).word (by omega) (by omega),
      (ByteMem.eqOff_setWord (by omega)).word (by omega) (by omega), ByteMem.word_setWord_self,
      toU32_not hsize]

/-! ## The calls -/

theorem toNat_mul_align (x : Word) : (x / heapAlign * heapAlign).toNat = x.toNat / 16 * 16 := by
  have hlt := x.isLt
  rw [BitVec.toNat_mul, BitVec.toNat_udiv]
  show x.toNat / 16 * 16 % 2 ^ 64 = _
  omega

theorem toNat_roundUp_of_lt (h : n.toNat < 2 ^ 64 - 15) :
    (roundUp n heapAlign).toNat = (n.toNat + 15) / 16 * 16 := by
  have hsum : (n + heapAlign - 1).toNat = n.toNat + 15 := by
    show (n + 16#64 - 1#64).toNat = _
    bv_omega
  rw [roundUp, toNat_mul_align, hsum]

theorem toNat_roundUp (h : n.toNat ≤ 4000) :
    (roundUp n heapAlign).toNat = (n.toNat + 15) / 16 * 16 :=
  toNat_roundUp_of_lt (by omega)

/-- The largest sizes are rounded to 0. -/
theorem roundUp_of_le (h : 2 ^ 64 - 15 ≤ n.toNat) : roundUp n heapAlign = 0 := by
  have hlt := n.isLt
  have hsum : (n + heapAlign - 1).toNat = n.toNat + 15 - 2 ^ 64 := by
    show (n + 16#64 - 1#64).toNat = _
    bv_omega
  apply BitVec.eq_of_toNat_eq
  rw [roundUp, toNat_mul_align, hsum]
  show _ = 0
  omega

/-- A block of the current region, or of a new page. -/
theorem place_spec (size : Word) (hpos : 0 < size.toNat) (hsize : size.toNat ≤ 4000)
    (hle : h.low.toNat ≤ h.fin.toNat) (hpage : h.fits size = false → newpage.toNat % 4096 = 0) :
    ∃ ptr h', h.place size newpage = some (ptr, h') ∧ h'.bytes = h.bytes ∧
      (h.fits size = true ∧ size.toNat + 16 ≤ h.fin.toNat - h.low.toNat ∧
          ptr.toNat = h.fin.toNat - size.toNat ∧ h'.low = h.low ∧
          h'.fin.toNat = h.fin.toNat - size.toNat - 16 ∨
        h.fits size = false ∧ ptr.toNat = newpage.toNat + 4096 - size.toNat ∧
          (h'.low.toNat = h.low.toNat ∧ h'.fin.toNat = h.fin.toNat ∨
            h'.low.toNat = newpage.toNat ∧
              h'.fin.toNat = newpage.toNat + 4096 - size.toNat - 16)) := by
  have hdiff : (h.fin - h.low).toNat = h.fin.toNat - h.low.toNat := by bv_omega
  rw [place]
  cases hfits : h.fits size with
  | true =>
    have hroom : size.toNat + 16 ≤ h.fin.toNat - h.low.toNat := by
      rw [fits, decide_eq_true_eq, BitVec.le_def, hdiff, BitVec.toNat_add] at hfits
      have h16 : headerSize.toNat = 16 := rfl
      omega
    rw [if_pos rfl]
    refine ⟨_, _, rfl, rfl, .inl ⟨rfl, hroom, ?_, rfl, ?_⟩⟩
    · bv_omega
    · show (h.fin - size - 16#64).toNat = _
      bv_omega
  | false =>
    have hp := hpage hfits
    have hlt := newpage.isLt
    have hptr : (newpage + 4096#64 - size).toNat = newpage.toNat + 4096 - size.toNat := by bv_omega
    have hsmall : ¬ (pageSize : Word) - headerSize < size := by
      show ¬ 4096#64 - 16#64 < size
      bv_omega
    rw [if_neg (by simp), if_neg hsmall]
    dsimp only
    split
    · refine ⟨_, _, rfl, rfl, .inr ⟨rfl, hptr, .inr ⟨rfl, ?_⟩⟩⟩
      show (newpage + 4096#64 - size - 16#64).toNat = _
      bv_omega
    · exact ⟨_, _, rfl, rfl, .inr ⟨rfl, hptr, .inl ⟨rfl, rfl⟩⟩⟩

theorem toNat_size (hb : b.Ok regions) : (UInt32.ofNat b.size).toNat = b.size := by
  have hle := hb.size_le
  rw [UInt32.toNat_ofNat']
  omega

/-- `kfree` of a live block writes the block and one word of the header. -/
theorem heapFreeActual_live (hb : b.Ok regions) (hm : Marked h.bytes b) (hlive : b.live = true)
    (ra : Ptr) : ∃ m, h.heapFreeActual b.ptr ra = some { h with bytes := m } ∧
      ByteMem.EqOff b.lo b.hi h.bytes m ∧ Marked m { b with live := false } := by
  have hhead := hb.header
  have hbound : b.ptr.toNat + b.size ≤ 2 ^ 64 := hb.bound
  have hpos := hb.size_pos
  have hle := hb.size_le
  obtain ⟨hsize, hinv⟩ := hm
  rw [hlive, if_pos rfl] at hinv
  have hfill : (BitVec.ofNat 64 b.size - 8 : Word).toNat = b.size - 8 := by
    rw [BitVec.toNat_sub, BitVec.toNat_ofNat]
    show (2 ^ 64 - 8 + b.size % 2 ^ 64) % 2 ^ 64 = _
    omega
  have h8 : (b.ptr + 8#64).toNat = b.ptr.toNat + 8 := by bv_omega
  have h4 : (b.ptr + 4#64).toNat = b.ptr.toNat + 4 := by bv_omega
  have hsa := toNat_sizeAddr hhead
  have hia := toNat_sizeInvAddr hhead
  let m1 := h.bytes.fill (b.ptr + 8#64) 0x11 (b.size - 8)
  let m2 := (m1.setWord b.ptr heapFreeMagic).setWord (b.ptr + 4#64) (toU32 ra)
  let m3 := m2.setWord (sizeInvAddr b.ptr) 0
  -- all but the last write are inside the block
  have hin : ByteMem.EqOff b.ptr.toNat (b.ptr.toNat + b.size) h.bytes m2 := by
    refine .trans (.trans ((ByteMem.eqOff_fill ?_).mono ?_ ?_) ((ByteMem.eqOff_setWord ?_).mono ?_ ?_))
      ((ByteMem.eqOff_setWord ?_).mono ?_ ?_) <;> omega
  have hlast : ByteMem.EqOff (b.ptr.toNat - 8) (b.ptr.toNat - 4) m2 m3 :=
    (ByteMem.eqOff_setWord (by omega)).mono (by omega) (by omega)
  refine ⟨m3, ?_, ?_, ?_, ?_⟩
  · rw [heapFreeActual, hsize, hinv]
    dsimp only
    rw [UInt32.not_not, if_neg (by simp), toNat_size hb, hfill]
    rfl
  · rw [HeapBlock.lo, HeapBlock.hi]
    exact (hin.mono (by omega) (Nat.le_refl _)).trans (hlast.mono (by omega) (by omega))
  · show m3.word (sizeAddr b.ptr) = _
    rw [hlast.word (by omega) (by omega), hin.word (by omega) (by omega), hsize]
    rfl
  · exact ByteMem.word_setWord_self _ _

/-- `kfree` of a block that was freed. -/
theorem heapFreeActual_dead (hb : b.Ok regions) (hm : Marked h.bytes b) (hdead : b.live = false)
    (ra : Ptr) : h.heapFreeActual b.ptr ra = none := by
  obtain ⟨hsize, hinv⟩ := hm
  have hle := hb.size_le
  rw [hdead, if_neg (by simp)] at hinv
  rw [heapFreeActual, hsize, hinv, if_pos]
  intro heq
  have hnat := congrArg UInt32.toNat heq
  have hones : (~~~ (0 : UInt32)).toNat = 2 ^ 32 - 1 := by decide
  rw [toNat_size hb, hones] at hnat
  omega

end Heap

namespace HeapRun

open Heap (Marked)

variable {s s' : HeapRun}

/-- What holds between steps. -/
structure Sound (s : HeapRun) : Prop where
  layout : HeapLayout s.heap.low.toNat s.heap.fin.toNat s.regions s.blocks
  marked : ∀ b ∈ s.blocks, Marked s.heap.bytes b

theorem sound_init {bytes : ByteMem} {start fin : Ptr} {h : Heap}
    (hinit : Heap.init bytes start fin = some h) :
    Sound ⟨h, [], [(h.low.toNat, h.fin.toNat)]⟩ := by
  rw [Heap.init] at hinit
  split at hinit
  case isFalse => cases hinit
  case isTrue hlt =>
    cases hinit
    have hlow : (roundUp start heapAlign).toNat % 16 = 0 := by
      rw [roundUp, Heap.toNat_mul_align]
      exact Nat.mul_mod_left _ _
    have hfin : (roundDown fin heapAlign).toNat % 16 = 0 := by
      rw [roundDown, Heap.toNat_mul_align]
      exact Nat.mul_mod_left _ _
    refine ⟨⟨hlow, hfin, Nat.le_of_lt (BitVec.lt_def.mp hlt),
      ⟨_, List.mem_singleton_self _, Nat.le_refl _, Nat.le_refl _⟩, ?_, ?_, List.Pairwise.nil⟩, ?_⟩ <;>
    · intro b hb
      cases hb

/-- A block is returned.  Further writes inside the block do not matter. -/
theorem Sound.malloc (hs : Sound s) {req : Word} (ra : Ptr) (hpos : 1 ≤ req.toNat)
    (hle : req.toNat ≤ 4000)
    (hfresh : s.heap.fits (roundUp req heapAlign) = false → s.Fresh newpage) :
    ∃ ptr h', s.heap.heapMallocActual req ra newpage = some (ptr, h') ∧
      ∀ m : ByteMem, ByteMem.EqOff ptr.toNat (ptr.toNat + req.toNat) h'.bytes m →
        Sound (s.returned req newpage (ptr, { h' with bytes := m })) := by
  have hsize := Heap.toNat_roundUp hle
  obtain ⟨ptr, h', hplace, hbytes, hcase⟩ := Heap.place_spec (roundUp req heapAlign)
    (by omega) (by omega) hs.layout.low_le_fin fun hf => (hfresh hf).1
  have hlayout : ∀ m, HeapLayout h'.low.toNat h'.fin.toNat
      (s.returned req newpage (ptr, m)).regions (⟨ptr, req.toNat, true⟩ :: s.blocks) := by
    intro m
    have hsz : (⟨ptr, req.toNat, true⟩ : HeapBlock).size = (roundUp req heapAlign).toNat := hsize.symm
    rcases hcase with ⟨hfits, hroom, hptr, hlow, hfin⟩ | ⟨hfits, hptr, hnew⟩
    · simp only [returned, hfits, if_true]
      rw [hlow, hfin, ← hsz]
      exact hs.layout.bump hpos hle (hsz ▸ hroom) (Nat.le_of_lt s.heap.fin.isLt) (hsz ▸ hptr)
    · obtain ⟨hpage, hoff⟩ := hfresh hfits
      have hlt := newpage.isLt
      have hpage' : newpage.toNat % 4096 = 0 := hpage
      simp only [returned, hfits, Bool.false_eq_true, if_false]
      exact hs.layout.page hpos hle hpage (by omega) hoff (hsz ▸ hptr) (hsz ▸ hnew)
  have hok := (hlayout h').ok _ (List.mem_cons_self ..)
  have hsz : (⟨ptr, req.toNat, true⟩ : HeapBlock).size = (roundUp req heapAlign).toNat := hsize.symm
  have hhead : 16 ≤ ptr.toNat := hok.header
  have hbound : ptr.toNat + (roundUp req heapAlign).toNat ≤ 2 ^ 64 := hsz ▸ hok.bound
  refine ⟨ptr, { h' with bytes := Heap.setBlock h'.bytes ptr (roundUp req heapAlign) ra }, ?_, ?_⟩
  · rw [Heap.heapMallocActual, if_neg (by rintro rfl; simp at hpos)]
    dsimp only
    rw [if_neg, hplace]
    · rfl
    · show ¬ 4000#64 < _
      bv_omega
  · intro m hm
    refine ⟨hlayout _, fun b hb => ?_⟩
    have hin := Heap.setBlock_eqOff (m := h'.bytes) hhead hbound ra
    rcases List.mem_cons.mp hb with rfl | hb
    · obtain ⟨h1, h2⟩ := Heap.setBlock_marked (m := h'.bytes) hhead (hsz ▸ hok.size_le) hbound ra
      have hmark : Marked (Heap.setBlock h'.bytes ptr (roundUp req heapAlign) ra) ⟨ptr, req.toNat, true⟩ := by
        refine ⟨?_, ?_⟩
        · rw [hsz]
          exact h1
        · rw [if_pos rfl, hsz]
          exact h2
      exact hmark.congr hok hm (.inl (Nat.le_refl _))
    · have hokb := (hlayout h').ok b (List.mem_cons_of_mem _ hb)
      have hapart := (List.pairwise_cons.mp (hlayout h').apart).1 b hb
      have hsame : ByteMem.EqOff (ptr.toNat - 16) (ptr.toNat + (roundUp req heapAlign).toNat)
          s.heap.bytes m := by
        rw [← hbytes]
        exact hin.trans (hm.mono (by omega) (by omega))
      have hmark := hs.marked b hb
      refine hmark.congr hokb hsame ?_
      have hhi : (⟨ptr, req.toNat, true⟩ : HeapBlock).hi = ptr.toNat + (roundUp req heapAlign).toNat := by
        rw [HeapBlock.hi, hsz]
      rw [HeapBlock.Apart, hhi] at hapart
      have hsb := hokb.size_pos
      have hbhi : b.hi = b.ptr.toNat + b.size := rfl
      have hlo : (⟨ptr, req.toNat, true⟩ : HeapBlock).lo = ptr.toNat - 16 := rfl
      omega

/-- `kfree` of a live block. -/
theorem Sound.free (hs : Sound s) {b : HeapBlock} (hb : b ∈ s.blocks) (hlive : b.live = true)
    (ra : Ptr) : ∃ s', s.step (.kfree b.ptr ra) = some s' ∧ Sound s' := by
  have hok := hs.layout.ok b hb
  obtain ⟨m, hfree, heq, hmark⟩ := Heap.heapFreeActual_live hok (hs.marked b hb) hlive ra
  rw [HeapRun.step, hfree]
  refine ⟨_, rfl, ?_, ?_⟩
  · refine hs.layout.map (fun c => ?_) (fun c => ?_) <;> split <;> rfl
  · intro c' hc'
    obtain ⟨c, hc, rfl⟩ := List.mem_map.mp hc'
    by_cases hptr : c.ptr = b.ptr
    · have hcb := hs.layout.eq_of_ptr hc hb hptr
      subst hcb
      rw [if_pos rfl]
      exact hmark
    · rw [if_neg hptr]
      have hapart : c.Apart b := hs.layout.apart.forall hc hb fun heq => hptr (by rw [heq])
      have hokc := hs.layout.ok c hc
      have hpc := hokc.size_pos
      have hhi : c.hi = c.ptr.toNat + c.size := rfl
      refine (hs.marked c hc).congr hokc heq ?_
      rw [HeapBlock.Apart] at hapart
      omega

/-- A write inside a block, or outside of the heap's memory. -/
theorem Sound.write (hs : Sound s) {a : Ptr} {v : UInt8} (hen : s.Enabled (.write a v)) :
    Sound { s with heap := { s.heap with bytes := Function.update s.heap.bytes a v } } := by
  have heq : ByteMem.EqOff a.toNat (a.toNat + 1) s.heap.bytes (Function.update s.heap.bytes a v) := by
    intro x hx
    refine Function.update_of_ne ?_ _ _
    rintro rfl
    omega
  refine ⟨hs.layout, fun c hc => ?_⟩
  have hokc := hs.layout.ok c hc
  have hpc := hokc.size_pos
  have hhi : c.hi = c.ptr.toNat + c.size := rfl
  have hlo : c.lo = c.ptr.toNat - 16 := rfl
  refine (hs.marked c hc).congr hokc heq ?_
  rcases hen with ⟨b, hb, hge, hlt⟩ | hout
  · by_cases hbc : c = b
    · subst hbc
      exact .inl hge
    · have hapart : c.Apart b := hs.layout.apart.forall hc hb hbc
      have hlob : b.lo = b.ptr.toNat - 16 := rfl
      rw [HeapBlock.Apart] at hapart
      omega
  · obtain ⟨r, hr, hrlo, hrhi⟩ := hokc.inside
    have := hout r hr
    omega

/-- `kcalloc` returns a block whose bytes read as zero. -/
theorem Sound.calloc (hs : Sound s) {nelts eltsz : Word} {ra : Ptr}
    (hen : s.Enabled (.kcalloc nelts eltsz ra newpage)) :
    ∃ ptr h, s.heap.heapCallocActual nelts eltsz ra newpage = some (ptr, h) ∧
      Sound (s.returned (nelts * eltsz) newpage (ptr, h)) ∧
      ∀ i < nelts.toNat * eltsz.toNat, h.bytes (ptr + BitVec.ofNat 64 i) = 0 := by
  obtain ⟨hpos, hle, hfresh⟩ := hen
  have hmul : (nelts * eltsz).toNat = nelts.toNat * eltsz.toNat := by
    rw [BitVec.toNat_mul, Nat.mod_eq_of_lt (by omega)]
  have hguard : nelts ≤ heapAllocMax / eltsz := by
    have heltsz : 0 < eltsz.toNat := Nat.pos_of_mul_pos_left hpos
    rw [BitVec.le_def, BitVec.toNat_udiv]
    exact (Nat.le_div_iff_mul_le heltsz).mpr hle
  obtain ⟨ptr, h, hmalloc, hsound⟩ := hs.malloc ra (by omega) (by omega) hfresh
  refine ⟨ptr, { h with bytes := h.bytes.fill ptr 0 (nelts * eltsz).toNat }, ?_, hsound _ ?_, ?_⟩
  · rw [Heap.heapCallocActual, if_pos hguard]
    dsimp only
    rw [hmalloc]
    rfl
  · refine ByteMem.eqOff_fill ?_
    have hok := (hsound h.bytes fun _ _ => rfl).layout.ok _ (List.mem_cons_self ..)
    have hreq := HeapBlock.req_le_size ⟨ptr, (nelts * eltsz).toNat, true⟩
    have hbound : ptr.toNat + HeapBlock.size ⟨ptr, (nelts * eltsz).toNat, true⟩ ≤ 2 ^ 64 := hok.bound
    have hreq' : (nelts * eltsz).toNat ≤ HeapBlock.size ⟨ptr, (nelts * eltsz).toNat, true⟩ := hreq
    omega
  · intro i hi
    exact ByteMem.fill_apply (by omega) (by omega)

/-- No step that the callers may take panics, and each keeps the invariant. -/
theorem Sound.step (hs : Sound s) {lbl : HeapLabel} (hen : s.Enabled lbl) :
    ∃ s', s.step lbl = some s' ∧ Sound s' := by
  cases lbl with
  | kmalloc size ra newpage =>
    obtain ⟨ptr, h, hmalloc, hsound⟩ := hs.malloc ra hen.1 hen.2.1 hen.2.2
    refine ⟨_, ?_, hsound h.bytes fun _ _ => rfl⟩
    rw [HeapRun.step, hmalloc]
    rfl
  | kcalloc nelts eltsz ra newpage =>
    obtain ⟨ptr, h, hcalloc, hsound, -⟩ := hs.calloc hen
    refine ⟨_, ?_, hsound⟩
    rw [HeapRun.step, hcalloc]
    rfl
  | kfree ptr ra =>
    obtain ⟨b, hb, rfl, hlive⟩ := hen
    exact hs.free hb hlive ra
  | write a v => exact ⟨_, rfl, hs.write hen⟩

theorem Run.sound (h : Run s) : Sound s := by
  induction h with
  | init hinit => exact sound_init hinit
  | step lbl _ hen hst ih =>
    obtain ⟨s', hst', hs'⟩ := ih.step hen
    rw [hst] at hst'
    cases hst'
    exact hs'

/-- The heap over whole runs.  Blocks are aligned and large enough, and they and their headers
lie apart from each other and from the current region, whose ends stay aligned.  No call the
callers may make panics, `kcalloc` returns zeros, and a block is freed once. -/
theorem heap_invariant (h : Run s) :
    (∀ b ∈ s.blocks, b.ptr.toNat % 16 = 0 ∧ 16 ≤ b.ptr.toNat ∧ b.req ≤ b.size ∧ b.hi ≤ 2 ^ 64 ∧
        (b.hi ≤ s.heap.low.toNat ∨ s.heap.fin.toNat ≤ b.lo)) ∧
      s.blocks.Pairwise HeapBlock.Apart ∧
      (s.heap.low.toNat ≤ s.heap.fin.toNat ∧ s.heap.low.toNat % 16 = 0 ∧
        s.heap.fin.toNat % 16 = 0) ∧
      (∀ lbl, s.Enabled lbl → ∃ s', s.step lbl = some s') ∧
      (∀ nelts eltsz ra newpage, s.Enabled (.kcalloc nelts eltsz ra newpage) →
        ∃ ptr h, s.heap.heapCallocActual nelts eltsz ra newpage = some (ptr, h) ∧
          ∀ i < nelts.toNat * eltsz.toNat, h.bytes (ptr + BitVec.ofNat 64 i) = 0) ∧
      ∀ b ∈ s.blocks, ∀ ra, (s.heap.heapFreeActual b.ptr ra).isSome = b.live := by
  have hs := h.sound
  refine ⟨fun b hb => ?_, hs.layout.apart, ⟨hs.layout.low_le_fin, hs.layout.low_aligned,
    hs.layout.fin_aligned⟩, fun lbl hen => ?_, fun nelts eltsz ra newpage hen => ?_,
    fun b hb ra => ?_⟩
  · have hok := hs.layout.ok b hb
    exact ⟨hok.aligned, hok.header, b.req_le_size, hok.bound, hs.layout.off b hb⟩
  · obtain ⟨s', hst, -⟩ := hs.step hen
    exact ⟨s', hst⟩
  · obtain ⟨ptr, h, hcalloc, -, hzero⟩ := hs.calloc hen
    exact ⟨ptr, h, hcalloc, hzero⟩
  · have hok := hs.layout.ok b hb
    cases hlive : b.live with
    | true =>
      obtain ⟨m, hfree, -⟩ := Heap.heapFreeActual_live hok (hs.marked b hb) hlive ra
      rw [hfree]
      rfl
    | false =>
      rw [Heap.heapFreeActual_dead hok (hs.marked b hb) hlive ra]
      rfl

section Exec

instance (s : HeapRun) (newpage : Ptr) : Decidable (s.Fresh newpage) :=
  inferInstanceAs (Decidable (_ ∧ ∀ r ∈ s.regions, _))

instance (s : HeapRun) : (lbl : HeapLabel) → Decidable (s.Enabled lbl)
  | .kmalloc .. | .kcalloc .. => inferInstanceAs (Decidable (_ ∧ _ ∧ _))
  | .kfree .. => inferInstanceAs (Decidable (∃ b ∈ s.blocks, _))
  | .write .. => inferInstanceAs (Decidable ((∃ b ∈ s.blocks, _) ∨ ∀ r ∈ s.regions, _))

/-- The state after a given run, if the callers may take each of its steps. -/
def exec (s : HeapRun) : List HeapLabel → Option HeapRun
  | [] => some s
  | lbl :: lbls => if s.Enabled lbl then (s.step lbl).bind fun s' => exec s' lbls else none

theorem Run.exec {lbls : List HeapLabel} (h : Run s) (heq : HeapRun.exec s lbls = some s') : Run s' :=
  keeps_of_run (fun _ => rfl) (fun _ _ _ => rfl) (fun h => h.step _) h heq

end Exec

/-- One block of the first region, one of a new page, and the first one is freed. -/
theorem heap_invariant_two_blocks : ∃ s : HeapRun, Run s ∧
    s.blocks.map (fun b => (b.ptr, b.live)) = [(0x2060, true), (0x1090, false)] ∧
    s.blocks.Pairwise HeapBlock.Apart ∧ (s.heap.heapFreeActual 0x1090 0).isSome = false := by
  have heval : (exec ⟨⟨fun _ => 0, 0x1000, 0x1100⟩, [], [(0x1000, 0x1100)]⟩
      [.kmalloc 100 0 0, .write 0x1091 7, .kcalloc 100 40 0 0x2000, .kfree 0x1090 0]).map
        (fun s => s.blocks.map fun b => (b.ptr, b.live)) = some [(0x2060, true), (0x1090, false)] := by
    decide +kernel
  obtain ⟨s, hs, hblocks⟩ := Option.map_eq_some_iff.mp heval
  have hinit : Heap.init (fun _ => 0) 0x1000 0x1100 = some ⟨fun _ => 0, 0x1000, 0x1100⟩ := by
    rw [Heap.init]
    have h1 : roundUp 0x1000 heapAlign = 0x1000 := by decide
    have h2 : roundDown 0x1100 heapAlign = 0x1100 := by decide
    rw [h1, h2]
    rfl
  have hrun : Run s := (Run.init hinit).exec hs
  obtain ⟨-, hapart, -, -, -, hfree⟩ := heap_invariant hrun
  refine ⟨s, hrun, hblocks, hapart, ?_⟩
  have hmem : (0x1090, false) ∈ s.blocks.map fun b => (b.ptr, b.live) := by
    rw [hblocks]
    decide
  obtain ⟨b, hb, heq⟩ := List.mem_map.mp hmem
  rw [Prod.mk.injEq] at heq
  rw [← heq.1, hfree b hb, heq.2]

end HeapRun

end MiniOs
