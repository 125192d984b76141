import MiniOs.Base.Block

/-!
# Python programs

What a model of a Python program needs: exceptions, and the `bytes` and `bytearray`
values.  A function that may raise returns an `Except`; a run that ends well is taken
apart by `bind_eq_ok` and `guard_eq_ok`.  A byte string is a length and the bytes below
it.  Slices are read and assigned as Python does it, so a slice that reaches past the end
is cut, and a slice assigned by more bytes than it has makes the string longer.  An image
of a disk is a byte string read block by block.
-/

namespace MiniOs

/-! ## Exceptions -/

section Raise

variable {ε α β : Type}

/-- A sequence of two steps ends well when both do. -/
theorem bind_eq_ok {x : Except ε α} {f : α → Except ε β} {b : β} :
    (x >>= f) = .ok b ↔ ∃ a, x = .ok a ∧ f a = .ok b := by
  cases x with
  | error e => exact Iff.intro (fun h => nomatch h) fun ⟨_, h, _⟩ => nomatch h
  | ok a =>
    constructor
    · exact fun h => ⟨a, rfl, h⟩
    · rintro ⟨_, ⟨⟩, h⟩
      exact h

/-- Behind `if c: raise e` the condition fails. -/
theorem guard_eq_ok {c : Prop} [Decidable c] {e : ε} {k : α → Except ε β} {x : Except ε β} {b : β} :
    (if c then throw e >>= k else x) = .ok b ↔ ¬ c ∧ x = .ok b := by
  by_cases h : c
  · rw [if_pos h]
    exact Iff.intro (fun h' => nomatch h') fun h' => absurd h h'.1
  · rw [if_neg h]
    exact Iff.intro (fun h' => ⟨h, h'⟩) And.right

theorem pure_eq_ok {a b : α} : (pure a : Except ε α) = .ok b ↔ a = b := Except.ok.injEq a b ▸ Iff.rfl

end Raise

/-! ## Byte strings -/

/-- A byte string. -/
structure Bytes where
  size : Nat
  get : Nat → UInt8

namespace Bytes

variable {b data : Bytes}

/-- `bytearray(n)`. -/
def zeros (n : Nat) : Bytes := ⟨n, fun _ => 0⟩

/-- A byte string written out. -/
def ofList (l : List UInt8) : Bytes := ⟨l.length, fun k => l.getD k 0⟩

/-- `a + b`. -/
def append (a b : Bytes) : Bytes :=
  ⟨a.size + b.size, fun k => if k < a.size then a.get k else b.get (k - a.size)⟩

/-- `b[i:j]`. -/
def slice (b : Bytes) (i j : Nat) : Bytes := ⟨min j b.size - i, fun k => b.get (i + k)⟩

/-- `b[i] = v`, below the end. -/
def setItem (b : Bytes) (i : Nat) (v : UInt8) : Bytes :=
  { b with get := fun k => if k = i then v else b.get k }

/-- `b[i:j] = data`. -/
def setSlice (b : Bytes) (i j : Nat) (data : Bytes) : Bytes :=
  let start := min i b.size
  let stop := max start (min j b.size)
  { size := start + data.size + (b.size - stop)
    get := fun k =>
      if k < start then b.get k
      else if k < start + data.size then data.get (k - start)
      else b.get (k - (start + data.size) + stop) }

/-- The words of a list, one after the other. -/
def ofWords (ws : List UInt32) : Bytes :=
  ⟨4 * ws.length, fun k => Block.leByte (ws.getD (k / 4) 0) (k % 4)⟩

/-- The half word `v`. -/
def ofHalf (v : Nat) : Bytes :=
  ⟨2, fun k => if k = 0 then UInt8.ofNat v else UInt8.ofNat (v / 256)⟩

/-- Block `n` of an image of blocks of `sz` bytes. -/
def block (sz : Nat) (b : Bytes) (n : Nat) : Block sz := Block.ofFn fun k => b.get (sz * n + k)

@[simp] theorem size_zeros (n : Nat) : (zeros n).size = n := rfl

@[simp] theorem size_ofList (l : List UInt8) : (ofList l).size = l.length := rfl

theorem get_setItem (b : Bytes) (i : Nat) (v : UInt8) (k : Nat) :
    (b.setItem i v).get k = if k = i then v else b.get k := rfl

/-- Bytes assigned to a slice of as many bytes. -/
theorem size_setSlice {i j : Nat} (hj : j = i + data.size) (h : i + data.size ≤ b.size) :
    (b.setSlice i j data).size = b.size := by
  simp only [setSlice]
  omega

theorem get_setSlice {i j : Nat} (hj : j = i + data.size) (h : i + data.size ≤ b.size) (k : Nat) :
    (b.setSlice i j data).get k =
      if i ≤ k ∧ k < i + data.size then data.get (k - i) else b.get k := by
  have hstart : min i b.size = i := by omega
  have hstop : max i (min j b.size) = i + data.size := by omega
  simp only [setSlice, hstart, hstop]
  by_cases hlo : k < i
  · rw [if_pos hlo, if_neg (by omega)]
  · rw [if_neg hlo]
    by_cases hhi : k < i + data.size
    · rw [if_pos hhi, if_pos (by omega)]
    · rw [if_neg hhi, if_neg (by omega), Nat.sub_add_cancel (by omega)]

/-! ## Blocks -/

variable {sz : Nat}

theorem u8_block {n k : Nat} (h : k < sz) : (b.block sz n).u8 k = b.get (sz * n + k) :=
  Block.u8_ofFn h

@[simp] theorem block_zeros (n m : Nat) : (zeros n).block sz m = Block.zero := rfl

/-- The bytes of another block lie before a block or behind it. -/
theorem block_disjoint {m n k : Nat} (hm : m ≠ n) (hk : k < sz) :
    sz * m + k < sz * n ∨ sz * (n + 1) ≤ sz * m + k := by
  rcases Nat.lt_or_gt_of_ne hm with hlt | hgt
  · have : sz * (m + 1) ≤ sz * n := Nat.mul_le_mul_left sz hlt
    rw [Nat.mul_succ] at this
    omega
  · have : sz * (n + 1) ≤ sz * m := Nat.mul_le_mul_left sz hgt
    omega

/-- Bytes assigned inside one block. -/
theorem block_setSlice {n off i j : Nat} (hi : i = sz * n + off) (hj : j = i + data.size)
    (hoff : off + data.size ≤ sz) (h : sz * (n + 1) ≤ b.size) :
    (b.setSlice i j data).block sz =
      Function.update (b.block sz) n ((b.block sz n).splice off data.size data.get) := by
  have hend : sz * (n + 1) = sz * n + sz := Nat.mul_succ sz n
  funext m
  apply Block.ext_u8
  intro k hk
  rw [u8_block hk, get_setSlice hj (by omega), hi]
  by_cases hm : m = n
  · subst hm
    rw [Function.update_self, Block.u8_splice hk, u8_block hk]
    by_cases hin : off ≤ k ∧ k < off + data.size
    · rw [if_pos hin, if_pos (by omega)]
      congr 1
      omega
    · rw [if_neg hin, if_neg (by omega)]
  · have := block_disjoint hm hk
    rw [Function.update_of_ne hm, u8_block hk, if_neg (by omega)]

/-- A byte assigned in a block. -/
theorem block_setItem {n off i : Nat} {v : UInt8} (hi : i = sz * n + off) (hoff : off < sz) :
    (b.setItem i v).block sz = Function.update (b.block sz) n ((b.block sz n).setU8 off v) := by
  have hend : sz * (n + 1) = sz * n + sz := Nat.mul_succ sz n
  funext m
  apply Block.ext_u8
  intro k hk
  rw [u8_block hk, get_setItem]
  by_cases hm : m = n
  · subst hm
    rw [Function.update_self, Block.u8_setU8 hk, u8_block hk]
    by_cases hk' : k = off
    · rw [if_pos hk', if_pos (by omega)]
    · rw [if_neg hk', if_neg (by omega)]
  · have := block_disjoint hm hk
    rw [Function.update_of_ne hm, u8_block hk, if_neg (by omega)]

/-- Words assigned in a block. -/
theorem splice_ofWords (c : Block sz) (k : Nat) (ws : List UInt32) :
    c.splice (4 * k) (ofWords ws).size (ofWords ws).get =
      c.setWords k ws.length fun m => ws.getD m 0 := by
  apply Block.ext_u8
  intro m hm
  rw [Block.u8_splice hm, Block.u8_setWords hm]
  have hsize : (ofWords ws).size = 4 * ws.length := rfl
  by_cases hin : k ≤ m / 4 ∧ m / 4 < k + ws.length
  · rw [if_pos hin, if_pos (by omega)]
    show Block.leByte (ws.getD ((m - 4 * k) / 4) 0) ((m - 4 * k) % 4) = _
    rw [show (m - 4 * k) / 4 = m / 4 - k by omega, show (m - 4 * k) % 4 = m % 4 by omega]
  · rw [if_neg hin, if_neg (by omega)]

end Bytes

end MiniOs
