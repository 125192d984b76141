import MiniOs.Base.Prog

/-!
# Backing devices

A backing device is an I/O endpoint seen through `ioreadat` and `iowriteat` at the
512-byte transfers the block cache makes.  A transfer returns what the endpoint's
`readat` or `writeat` returns.  A read also returns the buffer as it is afterwards,
since an endpoint that fails may have filled part of it.

`Reliable` is the device the file system is written for: transfers of a block
inside the range succeed and read back what was last written, and a block outside
it is refused with an error code and without touching the buffer, as
`vioblk_io` does when the device reports a bad status.
-/

namespace MiniOs

/-! ## Error numbers (`error.h`) -/

def EINVAL : Int := 1
def ENOTSUP : Int := 3
def EIO : Int := 5
def ENOENT : Int := 7
def ENOMEM : Int := 14

/-- The conversion of a `long` to an `int`. -/
def cInt (n : Int) : Int := n.bmod 4294967296

/-- `CACHE_BLKSZ` and `KTFS_BLKSZ`. -/
abbrev blksz : Nat := 512

/-- A block of the disk. -/
abbrev Blk := Block 512

/-- An endpoint with state `σ`, at transfers of one block. -/
structure Device (σ : Type) where
  /-- `ioreadat(io, pos, buf, CACHE_BLKSZ)`: the count or error, the buffer, the state. -/
  readat : σ → Nat → Blk → Int × Blk × σ
  /-- `iowriteat(io, pos, buf, CACHE_BLKSZ)`: the count or error, the state. -/
  writeat : σ → Nat → Blk → Int × σ

/-- `d` is a device of `N` blocks whose transfers in range succeed, and `content` is
what it holds. -/
structure Reliable {σ : Type} (d : Device σ) (N : Nat) (content : σ → Nat → Blk) : Prop where
  read_in : ∀ st b buf, b < N →
    ∃ st', d.readat st (blksz * b) buf = (512, content st b, st') ∧ content st' = content st
  write_in : ∀ st b data, b < N →
    ∃ st', d.writeat st (blksz * b) data = (512, st') ∧
      content st' = Function.update (content st) b data
  read_out : ∀ st b buf, N ≤ b →
    ∃ n st', d.readat st (blksz * b) buf = (n, buf, st') ∧ content st' = content st ∧
      n < 0 ∧ -2147483648 ≤ n

/-- A disk of `N` blocks in memory, with the error code of `vioblk_io` outside. -/
def ramDisk (N : Nat) : Device (Nat → Blk) where
  readat st pos buf :=
    if pos % blksz = 0 ∧ pos / blksz < N then (512, st (pos / blksz), st) else (- EIO, buf, st)
  writeat st pos data :=
    if pos % blksz = 0 ∧ pos / blksz < N then (512, Function.update st (pos / blksz) data)
    else (- EIO, st)

theorem ramDisk_reliable (N : Nat) : Reliable (ramDisk N) N id where
  read_in st b buf h := by
    refine ⟨st, ?_, rfl⟩
    simp [ramDisk, h]
  write_in st b data h := by
    refine ⟨Function.update st b data, ?_, rfl⟩
    simp [ramDisk, h]
  read_out st b buf h := by
    refine ⟨- EIO, st, ?_, rfl, by decide, by decide⟩
    simp [ramDisk, Nat.not_lt.mpr h]

end MiniOs
