import MiniOs.Ktfs.Model

/-!
# The running file system

`Mounted` is the file system as it runs: the cache in front of the device, the
globals and the open files.  `FlatFs` is the same file system over a flat store, with
no cache.  Every call returns the same from both and leaves them related, so what a
call does is read off the flat one.
-/

namespace MiniOs.Ktfs

variable {σ : Type} {d : Device σ} {N : Nat} {content : σ → Nat → Blk}

/-- A mounted file system. -/
structure Mounted (σ : Type) where
  cache : Cache σ
  geom : Geom
  files : Files

/-- The slots of the blocks a call holds when it starts: there are none. -/
def noSlots : Nat → Slot := fun _ => 0

/-- `ktfs_mount` of a device: a new cache, the superblock, an empty file table. -/
def mount (d : Device σ) (dev : σ) : Except Int (Mounted σ) :=
  let r := Prog.runCache d ktfsMount.run noSlots (Cache.create dev)
  r.1.map fun g => ⟨r.2, g, noFiles⟩

/-- One call. -/
def Mounted.step (d : Device σ) (m : Mounted σ) (op : FsOp) : Reply × Mounted σ :=
  let r := Prog.runCache d (op.prog m.geom m.files) noSlots m.cache
  (r.1.1, { m with cache := r.2, files := r.1.2 })

/-- The state after a sequence of calls. -/
def Mounted.run (d : Device σ) (m : Mounted σ) : List FsOp → Mounted σ
  | [] => m
  | op :: ops => Mounted.run d (m.step d op).2 ops

/-- The file system over a flat store of `N` blocks. -/
structure FlatFs where
  store : Nat → Blk
  files : Files

/-- The blocks of a store of `N` blocks. -/
def inRange (N : Nat) (b : Nat) : Bool := decide (b < N)

/-- One call over the flat store. -/
def FlatFs.step (N : Nat) (g : Geom) (s : FlatFs) (op : FsOp) : Reply × FlatFs :=
  let r := Prog.run (inRange N) (op.prog g s.files) s.store
  (r.1.1, ⟨r.2, r.1.2⟩)

/-- The state after a sequence of calls. -/
def FlatFs.run (N : Nat) (g : Geom) (s : FlatFs) : List FsOp → FlatFs
  | [] => s
  | op :: ops => FlatFs.run N g (s.step N g op).2 ops

/-- The file system a mounted one implements: the logical content of its cache. -/
def Mounted.flat (content : σ → Nat → Blk) (m : Mounted σ) : FlatFs :=
  ⟨m.cache.logical content, m.files⟩

/-- No block is held, and what the cache holds agrees with the device. -/
def Mounted.Quiet (N : Nat) (content : σ → Nat → Blk) (m : Mounted σ) : Prop :=
  Prog.Ready N content [] noSlots m.cache

/-! ## Simulation -/

theorem create_ready (dev : σ) : Prog.Ready N content [] noSlots (Cache.create dev) := by
  refine ⟨?_, by simp⟩
  have h : Prog.heldBy [] noSlots = fun _ => 0 := by
    funext i
    simp [Prog.heldBy]
  rw [h]
  exact Cache.create_inv dev

/-- A mount of a reliable device succeeds and shows its content. -/
theorem mount_eq (rel : Reliable d N content) (hN : 0 < N) (dev : σ) :
    ∃ m, mount d dev = .ok m ∧ m.Quiet N content ∧ m.geom = geomOf (content dev 0) ∧
      m.flat content = ⟨content dev, noFiles⟩ := by
  have hsim := Prog.runCache_sim rel (Nat.le_refl _) ktfsMount.run noSlots (Cache.create dev)
    (create_ready dev)
  have hflat : Prog.run (fun b => decide (b < N)) ktfsMount.run (content dev) =
      (.ok (geomOf (content dev 0)), content dev) := by
    show Fallible.exec _ (do
      let sb ← Fallible.readBlock 0 (by decide) (- EIO)
      return geomOf sb : K [] Geom) _ = _
    rw [Fallible.exec_bind_ok _ _ (Fallible.exec_readBlock _ _ (by simpa using hN) _ _)]
    rfl
  rw [Cache.logical_create, hflat] at hsim
  obtain ⟨heq, hready⟩ := hsim
  rw [Prod.mk.injEq] at heq
  refine ⟨⟨_, geomOf (content dev 0), noFiles⟩, ?_, hready, rfl, ?_⟩
  · rw [mount, ← heq.1]
    rfl
  · show FlatFs.mk _ _ = _
    rw [← heq.2]

/-- A call on a quiet file system returns what it returns on the flat one, and leaves a
quiet one. -/
theorem Mounted.step_flat (rel : Reliable d N content) {m : Mounted σ} (hq : m.Quiet N content)
    (op : FsOp) :
    (m.flat content).step N m.geom op = ((m.step d op).1, (m.step d op).2.flat content) ∧
      (m.step d op).2.Quiet N content := by
  obtain ⟨heq, hready⟩ := Prog.runCache_sim rel (Nat.le_refl _) (op.prog m.geom m.files) noSlots
    m.cache hq
  refine ⟨?_, hready⟩
  have heq' : Prog.run (inRange N) (op.prog m.geom m.files) (m.cache.logical content) = _ := heq
  simp only [FlatFs.step, Mounted.flat, heq']
  rfl

theorem Mounted.run_geom (m : Mounted σ) (ops : List FsOp) : (m.run d ops).geom = m.geom := by
  induction ops generalizing m with
  | nil => rfl
  | cons op ops ih => exact ih _

/-- A run of the file system is a run of the flat one. -/
theorem Mounted.run_flat (rel : Reliable d N content) {m : Mounted σ} (hq : m.Quiet N content)
    (ops : List FsOp) :
    (m.flat content).run N m.geom ops = (m.run d ops).flat content ∧
      (m.run d ops).Quiet N content := by
  induction ops generalizing m with
  | nil => exact ⟨rfl, hq⟩
  | cons op ops ih =>
    obtain ⟨hstep, hq'⟩ := Mounted.step_flat rel hq op
    simp only [FlatFs.run, Mounted.run, hstep]
    exact ih hq'

/-! ## The states of a run -/

/-- The state after a call. -/
def Mounted.next (d : Device σ) (m : Mounted σ) (op : FsOp) : Mounted σ := (m.step d op).2

/-- The state after a call over the flat store. -/
def FlatFs.next (N : Nat) (g : Geom) (fs : FlatFs) (op : FsOp) : FlatFs := (fs.step N g op).2

/-- Quiet, and mounted with the geometry `g`. -/
def Mounted.QuietOn (N : Nat) (content : σ → Nat → Blk) (g : Geom) (m : Mounted σ) : Prop :=
  m.Quiet N content ∧ m.geom = g

variable {g : Geom}

/-- The flat file system is a view of the running one. -/
theorem Mounted.next_flat (rel : Reliable d N content) (m : Mounted σ) (op : FsOp)
    (hq : m.QuietOn N content g) :
    (m.next d op).flat content = (m.flat content).next N g op ∧
      (m.next d op).QuietOn N content g := by
  obtain ⟨hq, rfl⟩ := hq
  obtain ⟨hstep, hq'⟩ := Mounted.step_flat rel hq op
  refine ⟨?_, hq', rfl⟩
  rw [FlatFs.next, hstep, Mounted.next]

theorem Mounted.reply_flat (rel : Reliable d N content) {m : Mounted σ}
    (hq : m.QuietOn N content g) (op : FsOp) :
    (m.step d op).1 = ((m.flat content).step N g op).1 := by
  obtain ⟨hq, rfl⟩ := hq
  rw [(Mounted.step_flat rel hq op).1]

end MiniOs.Ktfs
