import MiniOs.Ktfs.Directory
import MiniOs.Ktfs.ReadOnly
import MiniOs.Ktfs.Release

/-!
# Sound file systems

A file system is sound when the files in scope own their blocks, and the root, every
file the directory names and every file that is open are in scope.  Each call that
leaves the directory alone is described by what it does to a sound file system.  Such
calls keep it sound, on conditions that a write and an `IOCTL_SETEND` need.
-/

namespace MiniOs.Ktfs

open Fallible (exec)
open Function (update_of_ne update_self)

variable {g : Geom} {N i : Nat} {D : Scope} {fs : FlatFs} {f : Fd}

/-- The files in scope own their blocks, and whatever a name or a handle leads to is in
scope. -/
structure Sound (g : Geom) (D : Scope) (fs : FlatFs) : Prop where
  owned : Owned g D (inodeAt g fs.store) fs.store
  root : g.rootInodeIdx ∈ D.inodes
  entries : ∀ e ∈ directory g fs.store, e.inode ∈ D.inodes ∧ e.inode ≠ g.rootInodeIdx
  handles : ∀ f, (fs.files f).inUse = true →
    (fs.files f).inodeIdx ∈ D.inodes ∧ (fs.files f).inodeIdx ≠ g.rootInodeIdx

/-- Fewer entries past the ends of files count. -/
theorem Sound.narrow {D' : Scope} (h : Sound g D fs) (hin : D'.inodes = D.inodes)
    (hspare : ∀ i l, D'.spare i l → D.spare i l) (hkept : D'.kept ⊆ D.kept) : Sound g D' fs :=
  ⟨h.owned.narrow hin.subset hspare hkept, hin ▸ h.root, hin ▸ h.entries, hin ▸ h.handles⟩

/-- The inode behind a handle. -/
def FlatFs.inode (g : Geom) (fs : FlatFs) (f : Fd) : Inode :=
  inodeAt g fs.store (fs.files f).inodeIdx

/-! ## Opening and closing -/

/-- A name that is found is the name of an entry. -/
theorem lookup_ok {name : List UInt8} {dir : List Dentry} (h : lookup name dir = .ok i) :
    ∃ e ∈ dir, nameMatches name e = true ∧ e.inode = i := by
  rw [lookup] at h
  split at h
  · rename_i e he
    exact ⟨e, List.mem_of_find?_eq_some he, List.find?_some he, Except.ok.inj h⟩
  · cases h

/-- `ktfs_open` opens the file of an entry that has the name, or leaves everything as it
is. -/
theorem Sound.step_open (ok : GeomOk g N) (h : Sound g D fs) (name : List UInt8) :
    (∃ reply, fs.step N g (.open name) = (reply, fs) ∧ reply.fd = none) ∨
    ∃ f, ∃ e ∈ directory g fs.store, nameMatches name e = true ∧ (fs.files f).inUse = false ∧
      fs.step N g (.open name) = ({ rc := 0, fd := some f },
        ⟨fs.store, Function.update fs.files f
          ⟨e.inode, (inodeAt g fs.store e.inode).size, true⟩⟩) := by
  have hfind := exec_findDentry ok (h.owned.readable ok h.root) name
  cases hlook : lookup name (directory g fs.store) with
  | error e =>
    rw [hlook] at hfind
    refine .inl ⟨{ rc := e }, ?_, rfl⟩
    simp only [FlatFs.step, FsOp.prog, run_ktfsOpen_error fs.files hfind]
  | ok i =>
    rw [hlook] at hfind
    obtain ⟨e, he, hm, rfl⟩ := lookup_ok hlook
    by_cases hfree : ∃ f, (fs.files f).inUse = false
    · obtain ⟨f, hf, hrun⟩ := run_ktfsOpen_ok ok hfind (h.owned.range _ (h.entries e he).1) hfree
      refine .inr ⟨f, e, he, hm, hf, ?_⟩
      simp only [FlatFs.step, FsOp.prog, hrun]
    · have hslot : (List.finRange ktfsMaxOpen).find? (fun f => !(fs.files f).inUse) = none :=
        List.find?_eq_none.mpr fun f _ hf => hfree ⟨f, by simpa using hf⟩
      refine .inl ⟨{ rc := -ENOMEM }, ?_, rfl⟩
      rw [Fallible.exec] at hfind
      simp only [FlatFs.step, FsOp.prog, ktfsOpen, Prog.run_bind, hfind, hslot]
      rfl

/-- The file table changes, and every handle leads to a file in scope. -/
theorem Sound.withFiles (h : Sound g D fs) {files : Files}
    (hf : ∀ f, (files f).inUse = true →
      (files f).inodeIdx ∈ D.inodes ∧ (files f).inodeIdx ≠ g.rootInodeIdx) :
    Sound g D ⟨fs.store, files⟩ :=
  ⟨h.owned, h.root, h.entries, hf⟩

theorem Sound.open (ok : GeomOk g N) (h : Sound g D fs) (name : List UInt8) :
    Sound g D (fs.step N g (.open name)).2 := by
  obtain ⟨_, hstep, -⟩ | ⟨f, e, he, -, -, hstep⟩ := h.step_open ok name
  · rw [hstep]
    exact h
  · rw [hstep]
    refine h.withFiles fun f' hf' => ?_
    by_cases hff : f' = f
    · subst hff
      rw [update_self]
      exact h.entries e he
    · rw [update_of_ne hff] at hf' ⊢
      exact h.handles f' hf'

theorem Sound.close (h : Sound g D fs) (f : Fd) : Sound g D (fs.step N g (.close f)).2 := by
  show Sound g D ⟨fs.store, ktfsClose fs.files f⟩
  refine h.withFiles fun f' hf' => ?_
  by_cases hff : f' = f
  · subst hff
    have hclosed : (ktfsClose fs.files f' f').inUse = false := by
      rw [ktfsClose, update_self]
    rw [hclosed] at hf'
    cases hf'
  · have hsame : ktfsClose fs.files f f' = fs.files f' := by
      rw [ktfsClose, update_of_ne hff]
    rw [hsame] at hf' ⊢
    exact h.handles f' hf'

/-! ## A change of one file -/

/-- A call that changes one file, which is not the root, through the handle `f`. -/
theorem Sound.changeFile (h : Sound g D fs) (hi : i ≠ g.rootInodeIdx) {store' : Nat → Blk}
    {files' : Files} (hown : Owned g D (inodeAt g store') store')
    (hframe : Frame g D {i} fs.store store') (hothers : ∀ f', f' ≠ f → files' f' = fs.files f')
    (hidx : (files' f).inodeIdx = (fs.files f).inodeIdx)
    (huse : (files' f).inUse = (fs.files f).inUse) : Sound g D ⟨store', files'⟩ := by
  refine ⟨hown, h.root, ?_, fun f' (hf : (files' f').inUse = true) => ?_⟩
  · rw [directory_of_frame h.owned h.root hframe fun hm => hi hm.symm]
    exact h.entries
  · show (files' f').inodeIdx ∈ D.inodes ∧ (files' f').inodeIdx ≠ g.rootInodeIdx
    by_cases hff : f' = f
    · subst hff
      rw [huse] at hf
      rw [hidx]
      exact h.handles f' hf
    · rw [hothers f' hff] at hf ⊢
      exact h.handles f' hf

/-- Of file `i` the entries of its pages up to byte `e` count as well. -/
def Scope.upTo (D : Scope) (i e : Nat) : Scope :=
  { D with spare := fun j l => D.spare j l ∨ j = i ∧ l * 512 < e }

theorem Owned.of_upTo {T : Nat → Inode} {s : Nat → Blk} {e : Nat}
    (h : Owned g (D.upTo i e) T s) : Owned g D T s :=
  h.narrow (fun _ hj => hj) (fun _ _ hs => .inl hs) fun _ hv => hv

theorem Frame.of_upTo {C : Set Nat} {s s' : Nat → Blk} {e : Nat}
    (h : Frame g (D.upTo i e) C s s') : Frame g D C s s' :=
  h.narrow (fun _ hj => hj) fun _ _ hs => .inl hs

/-- `ktfs_writeat` through an open handle, at or before the end of the last block and
over entries that are the file's own. -/
theorem Sound.step_writeat (ok : GeomOk g N) (h : Sound g D fs)
    (hf : (fs.files f).inUse = true) {pos : Nat} (buf : Nat → UInt8) {len : Int}
    (hgap : pos ≤ 512 * (fs.inode g f).nblks)
    (hown : Owned g (D.upTo (fs.files f).inodeIdx (pos + len.toNat)) (inodeAt g fs.store) fs.store) :
    ∃ reply fs', fs.step N g (.writeat f pos buf len) = (reply, fs') ∧
      WroteAt g (D.upTo (fs.files f).inodeIdx (pos + len.toNat)) fs.store fs.files f pos buf len
        reply fs'.files fs'.store ∧ Sound g D fs' := by
  obtain ⟨hi, hroot⟩ := h.handles f hf
  obtain ⟨reply, files', s', hrun, hw⟩ := run_ktfsWriteat ok hown hi buf hgap
    (fun l _ hl => .inr ⟨rfl, hl⟩)
  refine ⟨reply, ⟨s', files'⟩, ?_, hw,
    h.changeFile hroot hw.owned.of_upTo hw.frame.of_upTo hw.others hw.idx hw.inUse⟩
  simp only [FlatFs.step, FsOp.prog, hrun]

end MiniOs.Ktfs
