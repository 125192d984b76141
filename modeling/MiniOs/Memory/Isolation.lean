import MiniOs.Memory.Mapping

/-!
# Addresses of user memory

User memory is a range of addresses of the page tables' form.  A virtual address lies in a
page, and the page and the word of memory behind it are those its translation gives.
-/

namespace MiniOs

open Memory

/-! ## User memory -/

theorem IsUser.wellformed {va : Word} (h : IsUser va) : wellformed va = true := by
  obtain ⟨-, hhi⟩ := h
  rw [wellformed_iff]
  simp only [umemEnd] at hhi
  omega

theorem IsUser.ne_zero {va : Word} (h : IsUser va) : va ≠ 0 := by
  rintro rfl
  exact absurd h.1 (by decide)

/-- The page of memory that an address is in. -/
def physPage (x : Translation) (va : Word) : Nat :=
  x.ppn.toNat / pteCnt ^ x.level * pteCnt ^ x.level + va.toNat / pageSize % pteCnt ^ x.level

/-- The number of the word of memory that an address is in. -/
def physWord (x : Translation) (va : Word) : Nat :=
  pteCnt * physPage x va + va.toNat % pageSize / 8

/-! ## The page of an address -/

namespace UserSpaces

variable {va : Word}

/-- The page address of an address. -/
theorem toNat_page (va : Word) :
    (va &&& ~~~BitVec.ofNat 64 (pageSize - 1)).toNat = va.toNat / pageSize * pageSize := by
  have hshift : va &&& ~~~BitVec.ofNat 64 (pageSize - 1) = (va >>> 12) <<< 12 := by
    refine BitVec.eq_of_getLsbD_eq fun i hi => ?_
    have hmask : (pageSize - 1).testBit i = decide (i < 12) := Nat.testBit_two_pow_sub_one 12 i
    rw [BitVec.getLsbD_and, BitVec.getLsbD_not, BitVec.getLsbD_ofNat, hmask,
      BitVec.getLsbD_shiftLeft, BitVec.getLsbD_ushiftRight]
    by_cases hlt : i < 12
    · simp [hlt, hi]
    · have h12 : 12 + (i - 12) = i := by omega
      simp [hlt, hi, h12]
  have hva := va.isLt
  rw [hshift, BitVec.toNat_shiftLeft, BitVec.toNat_ushiftRight, Nat.shiftLeft_eq,
    Nat.shiftRight_eq_div_pow]
  simp only [pageSize]
  omega

theorem isUser_page (hva : IsUser va) : IsUser (va &&& ~~~BitVec.ofNat 64 (pageSize - 1)) := by
  rw [IsUser] at hva ⊢
  rw [toNat_page]
  simp only [pageSize, umemStart, umemEnd] at hva ⊢
  omega

theorem toNat_page_div (va : Word) :
    (va &&& ~~~BitVec.ofNat 64 (pageSize - 1)).toNat / pageSize = va.toNat / pageSize := by
  rw [toNat_page]
  exact Nat.mul_div_cancel _ (by decide)

/-- The walk depends on the page of the address only. -/
theorem hwWalk_page (m : Memory) (level t : Nat) {vb : Word}
    (h : va.toNat / pageSize = vb.toNat / pageSize) : hwWalk m va level t = hwWalk m vb level t := by
  have hindex : ∀ n, vpnIndex n va = vpnIndex n vb := fun n => by simp only [vpnIndex, h]
  induction level generalizing t with
  | zero => rw [hwWalk, hwWalk, hindex]
  | succ level ih => simp only [hwWalk, hindex, ih]

end UserSpaces

end MiniOs
