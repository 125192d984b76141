import MiniOs.Base.Block

/-!
# A memory of bytes

The bytes of a memory with 64-bit addresses, `memset`, and little-endian 32-bit words at any
address.  `EqOff lo hi` says that two memories differ at most in the addresses from `lo` up to
`hi`; every write is one, and a word read outside of the range is the same in both.
-/

namespace MiniOs

/-- The bytes of a memory. -/
abbrev ByteMem := BitVec 64 → UInt8

namespace ByteMem

open Block (leByte leWord leWord_leByte)

variable {m m' m'' : ByteMem} {lo hi lo' hi' n : Nat} {p : BitVec 64} {v : UInt8}

/-- `memset(p, v, n)`. -/
def fill (m : ByteMem) (p : BitVec 64) (v : UInt8) (n : Nat) : ByteMem := fun a =>
  if (a - p).toNat < n then v else m a

/-- The word at `p`. -/
def word (m : ByteMem) (p : BitVec 64) : UInt32 := leWord (m p) (m (p + 1)) (m (p + 2)) (m (p + 3))

/-- The word at `p` is set. -/
def setWord (m : ByteMem) (p : BitVec 64) (w : UInt32) : ByteMem := fun a =>
  if (a - p).toNat < 4 then leByte w (a - p).toNat else m a

/-- The memories are the same outside of the addresses from `lo` up to `hi`. -/
def EqOff (lo hi : Nat) (m m' : ByteMem) : Prop :=
  ∀ a : BitVec 64, a.toNat < lo ∨ hi ≤ a.toNat → m' a = m a

theorem EqOff.trans (h : EqOff lo hi m m') (h' : EqOff lo hi m' m'') : EqOff lo hi m m'' :=
  fun a ha => (h' a ha).trans (h a ha)

theorem EqOff.mono (h : EqOff lo hi m m') (hlo : lo' ≤ lo) (hhi : hi ≤ hi') : EqOff lo' hi' m m' := by
  intro a ha
  refine h a ?_
  omega

/-- The addresses from `p` on, as numbers. -/
theorem toNat_sub_lt {a : BitVec 64} (h : p.toNat + n ≤ 2 ^ 64) :
    (a - p).toNat < n ↔ p.toNat ≤ a.toNat ∧ a.toNat < p.toNat + n := by
  have ha := a.isLt
  rw [BitVec.toNat_sub]
  omega

theorem eqOff_fill (h : p.toNat + n ≤ 2 ^ 64) :
    EqOff p.toNat (p.toNat + n) m (m.fill p v n) := by
  intro a ha
  rw [fill, if_neg]
  rw [toNat_sub_lt h]
  omega

theorem eqOff_setWord {w : UInt32} (h : p.toNat + 4 ≤ 2 ^ 64) :
    EqOff p.toNat (p.toNat + 4) m (m.setWord p w) := by
  intro a ha
  rw [setWord, if_neg]
  rw [toNat_sub_lt h]
  omega

theorem word_setWord_self (p : BitVec 64) (w : UInt32) : (m.setWord p w).word p = w := by
  have hsub : ∀ i : BitVec 64, p + i - p = i := fun i => by rw [BitVec.add_comm, BitVec.add_sub_cancel]
  simp only [word, setWord, hsub, BitVec.sub_self]
  exact leWord_leByte w

theorem EqOff.word (h : EqOff lo hi m m') (hp : p.toNat + 4 ≤ 2 ^ 64)
    (hoff : p.toNat + 4 ≤ lo ∨ hi ≤ p.toNat) : m'.word p = m.word p := by
  have hat : ∀ i : BitVec 64, i.toNat < 4 → m' (p + i) = m (p + i) := by
    intro i hi
    refine h _ ?_
    rw [BitVec.toNat_add, Nat.mod_eq_of_lt (by omega)]
    omega
  have h0 : m' p = m p := by simpa using hat 0 (by decide)
  rw [ByteMem.word, ByteMem.word, h0, hat 1 (by decide), hat 2 (by decide), hat 3 (by decide)]

/-- What was filled reads as the byte. -/
theorem fill_apply {i : Nat} (hi : i < n) (hn : n < 2 ^ 64) :
    m.fill p v n (p + BitVec.ofNat 64 i) = v := by
  have hsub : p + BitVec.ofNat 64 i - p = BitVec.ofNat 64 i := by
    rw [BitVec.add_comm, BitVec.add_sub_cancel]
  rw [fill, hsub, BitVec.toNat_ofNat, Nat.mod_eq_of_lt (by omega), if_pos hi]

end ByteMem

end MiniOs
