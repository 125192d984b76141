import Mathlib.Data.BitVec
import Mathlib.Logic.Function.Basic

/-!
# Virtqueues (`virtio.h`)

The driver publishes a request by advancing the index of the available ring and the device
completes it by advancing the index of the used ring.  Both indices have 16 bits and wrap
around.  The models keep the numbers of requests beside them, and as long as two of these
numbers differ by less than `2 ^ 16` their indices are equal only when the numbers are.
-/

namespace MiniOs

/-- `struct virtq_desc`, over the addresses the driver uses. -/
structure VirtqDesc (Addr : Type) where
  addr : Addr
  len : BitVec 32
  flags : BitVec 16
  next : BitVec 16
deriving DecidableEq

/-- `VIRTQ_DESC_F_NEXT`. -/
def virtqDescFNext : BitVec 16 := 1

/-- `VIRTQ_DESC_F_WRITE`. -/
def virtqDescFWrite : BitVec 16 := 2

/-- The ring index of the request with a number. -/
def ringIdx (n : Nat) : BitVec 16 := BitVec.ofNat 16 n

@[simp]
theorem ringIdx_succ (n : Nat) : ringIdx (n + 1) = ringIdx n + 1 := BitVec.ofNat_add n 1

/-- Indices of numbers that are close tell the numbers apart. -/
theorem ringIdx_eq_iff {m n : Nat} (hmn : m ≤ n) (h : n < m + 2 ^ 16) :
    ringIdx n = ringIdx m ↔ n = m := by
  constructor
  · intro heq
    have hmod : n % 2 ^ 16 = m % 2 ^ 16 := by
      have := congrArg BitVec.toNat heq
      simpa [ringIdx] using this
    omega
  · rintro rfl
    rfl

end MiniOs
