import MiniOs.Base.Runs
import MiniOs.Ktfs.Sound
import MiniOs.Mkfs.Reader

/-!
# The size a handle caches

A handle keeps the size its inode had when the file was opened.  `ktfs_writeat` and
`IOCTL_SETEND` write a new size to the handle they are called through, and to no other
handle on the file.  `ktfs_writeat` does so only where the range ends past the size of
the inode in memory, which `resolve_or_alloc` has already rounded up to whole blocks for
the direct blocks it linked.  So the sizes part when a write ends in a new direct block,
and when another handle is open on a file whose end moves.  These are the only ways.
-/

namespace MiniOs.Ktfs

variable {g : Geom} {N : Nat} {I : Set Nat} {fs : FlatFs} {f : Fd}

/-- Every open handle has the size of its inode. -/
def Coherent (g : Geom) (fs : FlatFs) : Prop :=
  ∀ f, (fs.files f).inUse = true → (fs.files f).size = (fs.inode g f).size

/-- The files in `I`, and no entry past the end of one. -/
def plainScope (I : Set Nat) : Scope := ⟨I, fun _ _ => False, ∅⟩

/-- A call that leaves the store, and each handle that is open after it either as it was
or with the size of its inode. -/
theorem Coherent.of_store (h : Coherent g fs) {files : Files}
    (hf : ∀ f, (files f).inUse = true → files f = fs.files f ∨
      (files f).size = (inodeAt g fs.store (files f).inodeIdx).size) :
    Coherent g ⟨fs.store, files⟩ := by
  intro f hu
  have hu' : (files f).inUse = true := hu
  rcases hf f hu' with heq | heq
  · show (files f).size = (inodeAt g fs.store (files f).inodeIdx).size
    rw [heq] at hu' ⊢
    exact h f hu'
  · exact heq

theorem Coherent.open (ok : GeomOk g N) (hs : Sound g (plainScope I) fs) (h : Coherent g fs)
    (name : List UInt8) : Coherent g (fs.step N g (.open name)).2 := by
  obtain ⟨_, hstep, -⟩ | ⟨f, e, -, -, -, hstep⟩ := hs.step_open ok name
  · rw [hstep]
    exact h
  · rw [hstep]
    refine h.of_store fun f' _ => ?_
    by_cases hff : f' = f
    · rw [hff, Function.update_self]
      exact .inr rfl
    · exact .inl (Function.update_of_ne hff _ _)

theorem Coherent.close (h : Coherent g fs) (f : Fd) : Coherent g (fs.step N g (.close f)).2 := by
  show Coherent g ⟨fs.store, ktfsClose fs.files f⟩
  refine h.of_store fun f' hu => ?_
  by_cases hff : f' = f
  · rw [hff, ktfsClose, Function.update_self] at hu
    cases hu
  · exact .inl (Function.update_of_ne hff _ _)

section

variable (ok : GeomOk g N) (hs : Sound g (plainScope I) fs) (h : Coherent g fs)

include ok hs h

end

/-! ## Runs -/

section Running

variable {σ : Type} {d : Device σ} {content : σ → Nat → Blk}

end Running

end MiniOs.Ktfs
