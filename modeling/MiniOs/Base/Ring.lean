import Mathlib.Data.BitVec
import Mathlib.Data.List.Basic
import Mathlib.Data.Nat.ModEq
import Mathlib.Logic.Function.Basic

/-!
# Ring buffers with free-running counters

A buffer of `2 ^ n` cells with a read and a write counter of `w` bits, where `n < w`.  The
counters only count up and wrap around at `2 ^ w`; a counter modulo `2 ^ n` is the cell it
names, and their difference, modulo `2 ^ w`, is the number of elements.  Since `2 ^ n` divides
`2 ^ w` the wrap-around is not visible in the contents.
-/

namespace MiniOs

/-- A ring buffer with cells of type `α`. -/
structure Ring (α : Type) (w n : Nat) where
  /-- The read counter. -/
  head : BitVec w
  /-- The write counter. -/
  tail : BitVec w
  buf : Nat → α

namespace Ring

variable {α : Type} {w n : Nat} {r : Ring α w n}

/-- The number of elements. -/
def count (r : Ring α w n) : Nat := (r.tail - r.head).toNat

/-- The oldest element. -/
def front (r : Ring α w n) : α := r.buf (r.head.toNat % 2 ^ n)

/-- The buffer without its oldest element. -/
def pop (r : Ring α w n) : Ring α w n := { r with head := r.head + 1 }

/-- The buffer with `a` in the cell that the write counter names. -/
def store (r : Ring α w n) (a : α) : Ring α w n :=
  { r with buf := Function.update r.buf (r.tail.toNat % 2 ^ n) a }

/-- The buffer with the write counter advanced. -/
def publish (r : Ring α w n) : Ring α w n := { r with tail := r.tail + 1 }

/-- The buffer with a new element. -/
def push (r : Ring α w n) (a : α) : Ring α w n :=
  { r with buf := Function.update r.buf (r.tail.toNat % 2 ^ n) a, tail := r.tail + 1 }

theorem push_eq (r : Ring α w n) (a : α) : r.push a = (r.store a).publish := rfl

/-- The elements, from the oldest on. -/
def contents (r : Ring α w n) : List α :=
  (List.range r.count).map fun i => r.buf ((r.head.toNat + i) % 2 ^ n)

@[simp]
theorem length_contents (r : Ring α w n) : r.contents.length = r.count := by
  simp [contents]

theorem contents_eq_nil : r.contents = [] ↔ r.count = 0 := by
  rw [← List.length_eq_zero_iff, length_contents]

/-- The write counter is the read counter plus the number of elements. -/
theorem tail_eq (r : Ring α w n) : r.tail.toNat = (r.head.toNat + r.count) % 2 ^ w := by
  rw [count, ← BitVec.toNat_add, add_sub_cancel]

section Wide

variable (hw : n < w)
include hw

theorem toNat_one : (1 : BitVec w).toNat = 1 := by
  have hpos : 0 < w := Nat.zero_lt_of_lt hw
  simpa using hpos

/-- The cell a counter names does not depend on its wrap-around. -/
theorem cell_add (c : BitVec w) (i : Nat) : ((c + 1).toNat + i) % 2 ^ n = (c.toNat + (i + 1)) % 2 ^ n := by
  have hdvd : 2 ^ n ∣ 2 ^ w := Nat.pow_dvd_pow 2 (Nat.le_of_lt hw)
  rw [BitVec.toNat_add, toNat_one hw, Nat.add_mod, Nat.mod_mod_of_dvd _ hdvd, ← Nat.add_mod]
  congr 1
  omega

theorem count_pop (h : 0 < r.count) : r.pop.count + 1 = r.count := by
  have hle : (1 : BitVec w) ≤ r.tail - r.head := by
    rw [BitVec.le_def, toNat_one hw]
    exact h
  rw [count, pop, sub_add_eq_sub_sub, BitVec.toNat_sub_of_le hle, toNat_one hw]
  exact Nat.sub_add_cancel h

/-- Taking the oldest element. -/
theorem contents_pop (h : 0 < r.count) : r.contents = r.front :: r.pop.contents := by
  have hc := count_pop hw h
  rw [contents, ← hc, List.range_succ_eq_map, List.map_cons, List.map_map, contents]
  refine congrArg₂ _ rfl (List.map_congr_left fun i _ => ?_)
  exact congrArg r.buf (cell_add hw r.head i).symm

theorem count_publish (h : r.count < 2 ^ n) : r.publish.count = r.count + 1 := by
  have hlt : r.count + 1 < 2 ^ w :=
    (Nat.lt_of_le_of_lt h (Nat.pow_lt_pow_right (by decide) hw))
  rw [count, publish, add_sub_right_comm, BitVec.toNat_add, toNat_one hw]
  exact Nat.mod_eq_of_lt hlt

theorem count_push (a : α) (h : r.count < 2 ^ n) : (r.push a).count = r.count + 1 := by
  have hstore : (r.store a).count < 2 ^ n := h
  rw [push_eq, count_publish hw hstore]
  rfl

theorem cell_tail (r : Ring α w n) : r.tail.toNat % 2 ^ n = (r.head.toNat + r.count) % 2 ^ n := by
  have hdvd : 2 ^ n ∣ 2 ^ w := Nat.pow_dvd_pow 2 (Nat.le_of_lt hw)
  rw [tail_eq, Nat.mod_mod_of_dvd _ hdvd]

/-- While there is room, the cell behind the elements holds none of them. -/
theorem cell_tail_ne (h : r.count < 2 ^ n) {i : Nat} (hi : i < r.count) :
    (r.head.toNat + i) % 2 ^ n ≠ r.tail.toNat % 2 ^ n := by
  rw [cell_tail hw]
  intro heq
  have hmod : i ≡ r.count [MOD 2 ^ n] := Nat.ModEq.add_left_cancel' r.head.toNat heq
  have := hmod.eq_of_lt_of_lt (by omega) h
  omega

/-- Writing the cell behind the elements, the first half of adding one. -/
theorem contents_store (a : α) (h : r.count < 2 ^ n) : (r.store a).contents = r.contents :=
  List.map_congr_left fun _ hi => Function.update_of_ne (cell_tail_ne hw h (List.mem_range.mp hi)) _ _

/-- Advancing the write counter, the second half. -/
theorem contents_publish (h : r.count < 2 ^ n) :
    r.publish.contents = r.contents ++ [r.buf (r.tail.toNat % 2 ^ n)] := by
  rw [contents, count_publish hw h, List.range_succ, List.map_append, contents, cell_tail hw]
  rfl

/-- Adding an element while there is room. -/
theorem contents_push (a : α) (h : r.count < 2 ^ n) : (r.push a).contents = r.contents ++ [a] := by
  have hstore : (r.store a).count < 2 ^ n := h
  rw [push_eq, contents_publish hw hstore, contents_store hw a h]
  simp [store]

end Wide

end Ring

end MiniOs
