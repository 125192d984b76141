import Mathlib.Data.BitVec

/-!
# The heap of a user program

`malloc` of the user library moves one pointer up, and nothing is given back.  The size is
compared with what is left as an unsigned number, so a block of `malloc` lies in the heap.
`calloc` multiplies modulo `2 ^ 64`, and takes a small block when the product wraps.
-/

namespace MiniOs.User

/-- The globals of `heap.c`. -/
structure HeapPtrs where
  heapLow : BitVec 64
  heapEnd : BitVec 64

/-- The memory of the program. -/
abbrev UserMem := BitVec 64 → UInt8

/-- `heap_init`.  There is no result when the program ends. -/
def heapInit (start stop : BitVec 64) : Option HeapPtrs :=
  if stop < start then none else some ⟨start, stop⟩

/-- `malloc`: the pointer, which is 0 for `NULL`. -/
def malloc (h : HeapPtrs) (size : BitVec 64) : Option (BitVec 64 × HeapPtrs) :=
  if size = 0 then some (0, h)
  -- the difference of the pointers becomes a `size_t`
  else if h.heapEnd - h.heapLow < size then none
  else some (h.heapLow, { h with heapLow := h.heapLow + size })

def memset (mem : UserMem) (p : BitVec 64) (c : UInt8) (n : BitVec 64) : UserMem :=
  fun a => if a - p < n then c else mem a

/-- `calloc`, which writes to the memory. -/
def calloc (h : HeapPtrs) (mem : UserMem) (nelts eltsz : BitVec 64) :
    Option (BitVec 64 × HeapPtrs × UserMem) :=
  let size := nelts * eltsz
  (malloc h size).map fun (ptr, h) => (ptr, h, if ptr = 0 then mem else memset mem ptr 0 size)

inductive HeapCall where
  | malloc (size : BitVec 64)
  | calloc (nelts eltsz : BitVec 64)

/-- The bytes that are asked for. -/
def HeapCall.need : HeapCall → Nat
  | .malloc size => size.toNat
  | .calloc nelts eltsz => nelts.toNat * eltsz.toNat

/-- The call, with the memory as the program left it. -/
def HeapCall.run (h : HeapPtrs) (mem : UserMem) : HeapCall → Option (BitVec 64 × HeapPtrs × UserMem)
  | .malloc size => (User.malloc h size).map fun (ptr, h) => (ptr, h, mem)
  | .calloc nelts eltsz => User.calloc h mem nelts eltsz

/-- The states after calls, with the blocks returned.  A product that wraps is there only with
the result `NULL`. -/
inductive HeapRun (start stop : BitVec 64) : HeapPtrs → List (Nat × Nat) → Prop where
  | init {h : HeapPtrs} : heapInit start stop = some h → HeapRun start stop h []
  | call {h h' : HeapPtrs} {bs : List (Nat × Nat)} {c : HeapCall} {mem mem' : UserMem}
      {p : BitVec 64} : HeapRun start stop h bs → c.run h mem = some (p, h', mem') →
      p = 0 ∨ c.need < 2 ^ 64 →
      HeapRun start stop h' (if p = 0 then bs else (p.toNat, c.need) :: bs)

/-- The block at `p` lies in the heap and apart from the blocks `bs`, and `calloc` cleared it. -/
structure Yields (start stop : BitVec 64) (bs : List (Nat × Nat)) (c : HeapCall) (p : BitVec 64)
    (mem : UserMem) : Prop where
  inside : start.toNat ≤ p.toNat ∧ p.toNat + c.need ≤ stop.toNat
  apart : ∀ b ∈ bs, b.1 + b.2 ≤ p.toNat ∨ p.toNat + c.need ≤ b.1
  zero : ∀ nelts eltsz, c = .calloc nelts eltsz → ∀ i, i < c.need → mem (p + BitVec.ofNat 64 i) = 0

variable {start stop p : BitVec 64} {h h' : HeapPtrs} {bs : List (Nat × Nat)} {c : HeapCall}
  {mem mem' : UserMem}

/-- A call returns `NULL`, or it returns where `heap_low` was and moves it up. -/
theorem heapCall_cases (hle : h.heapLow.toNat ≤ h.heapEnd.toNat)
    (hrun : c.run h mem = some (p, h', mem')) :
    h'.heapEnd = h.heapEnd ∧ h.heapLow.toNat ≤ h'.heapLow.toNat ∧
      h'.heapLow.toNat ≤ h.heapEnd.toNat ∧ (p ≠ 0 → p = h.heapLow ∧
        (c.need < 2 ^ 64 → h'.heapLow.toNat = p.toNat + c.need)) := by
  have hsize : ∃ size : BitVec 64, malloc h size = some (p, h') ∧
      (c.need < 2 ^ 64 → size.toNat = c.need) := by
    cases c with
    | malloc size =>
      obtain ⟨_, hm, ⟨⟩⟩ := Option.map_eq_some_iff.mp hrun
      exact ⟨size, hm, fun _ => rfl⟩
    | calloc nelts eltsz =>
      obtain ⟨_, hm, ⟨⟩⟩ := Option.map_eq_some_iff.mp hrun
      exact ⟨_, hm, fun hn => (BitVec.toNat_mul ..).trans (Nat.mod_eq_of_lt hn)⟩
  obtain ⟨size, hm, hval⟩ := hsize
  rw [malloc] at hm
  split_ifs at hm with hz hlt
  · cases hm
    exact ⟨rfl, Nat.le_refl _, hle, fun hp => absurd rfl hp⟩
  · cases hm
    rw [BitVec.lt_def, BitVec.toNat_sub] at hlt
    have := h.heapEnd.isLt
    have hadd : (h.heapLow + size).toNat = h.heapLow.toNat + size.toNat := by
      rw [BitVec.toNat_add]
      omega
    simp only [hadd]
    exact ⟨trivial, by omega, by omega, fun _ => ⟨trivial, fun hn => by rw [hval hn]⟩⟩

/-- The blocks lie between the start of the heap and `heap_low`. -/
theorem HeapRun.inv (hr : HeapRun start stop h bs) : h.heapEnd = stop ∧
    start.toNat ≤ h.heapLow.toNat ∧ h.heapLow.toNat ≤ stop.toNat ∧
    ∀ b ∈ bs, b.1 + b.2 ≤ h.heapLow.toNat := by
  induction hr with
  | init heq =>
    rw [heapInit] at heq
    split_ifs at heq with hlt
    cases heq
    exact ⟨rfl, Nat.le_refl _, Nat.not_lt.mp hlt, fun _ hb => absurd hb List.not_mem_nil⟩
  | call _ hrun hn ih =>
    obtain ⟨rfl, hlo, hle, hbs⟩ := ih
    obtain ⟨hend, hup, hle', hblock⟩ := heapCall_cases hle hrun
    refine ⟨hend, Nat.le_trans hlo hup, hle', fun b hb => ?_⟩
    split_ifs at hb with hp
    · exact Nat.le_trans (hbs b hb) hup
    · rcases List.mem_cons.mp hb with rfl | hb
      · exact Nat.le_of_eq ((hblock hp).2 (hn.resolve_left hp)).symm
      · exact Nat.le_trans (hbs b hb) hup

/-- A call that returns a block returns what was asked for when the product does not wrap. -/
theorem heap_yields_iff (hr : HeapRun start stop h bs) (hrun : c.run h mem = some (p, h', mem'))
    (hp : p ≠ 0) : Yields start stop bs c p mem' ↔ c.need < 2 ^ 64 := by
  constructor
  · intro hy
    have := hy.inside.2
    have := stop.isLt
    omega
  · intro hn
    obtain ⟨rfl, hlo, hle, hbs⟩ := hr.inv
    obtain ⟨-, -, hle', hblock⟩ := heapCall_cases hle hrun
    obtain ⟨rfl, hnew⟩ := hblock hp
    rw [hnew hn] at hle'
    refine ⟨⟨hlo, hle'⟩, fun b hb => .inl (hbs b hb), ?_⟩
    rintro nelts eltsz rfl i hi
    rw [HeapCall.need] at hn hi
    obtain ⟨⟨q, k⟩, -, heq⟩ := Option.map_eq_some_iff.mp hrun
    simp only [Prod.mk.injEq] at heq
    obtain ⟨rfl, -, rfl⟩ := heq
    rw [if_neg hp, memset, add_sub_cancel_left, if_pos]
    rw [BitVec.lt_def, BitVec.toNat_ofNat, BitVec.toNat_mul, Nat.mod_eq_of_lt hn]
    exact Nat.lt_of_le_of_lt (Nat.mod_le _ _) hi

/-- Four elements of eight bytes. -/
theorem heap_yields_cleared :
    Yields 4096 8192 [] (.calloc 4 8) 4096 (memset (fun _ => 255) 4096 0 32) :=
  have hrun : (HeapCall.calloc 4 8).run ⟨4096, 8192⟩ (fun _ => 255) =
      some (4096, ⟨4128, 8192⟩, memset (fun _ => 255) 4096 0 32) := rfl
  (heap_yields_iff (.init rfl) hrun (by decide)).mpr (by decide)

/-- Two bytes are taken for `2 ^ 63 + 1` elements of two bytes. -/
theorem calloc_wraps : heapInit 4096 8192 = some ⟨4096, 8192⟩ ∧
    (HeapCall.calloc 0x8000000000000001 2).run ⟨4096, 8192⟩ (fun _ => 255) =
      some (4096, ⟨4098, 8192⟩, memset (fun _ => 255) 4096 0 2) ∧
    ¬ Yields 4096 8192 [] (.calloc 0x8000000000000001 2) 4096 (memset (fun _ => 255) 4096 0 2) :=
  ⟨rfl, rfl, fun hy => absurd hy.inside.2 (by decide)⟩

end MiniOs.User
