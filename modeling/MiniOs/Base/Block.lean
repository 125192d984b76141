import Mathlib.Logic.Function.Basic
import Mathlib.Tactic

/-!
# Blocks of bytes

A block is a fixed number of bytes.  It is read and written at a byte, at a
half word, at a word and at a run of bytes, all little endian.  A word access is
aligned: word `k` is the bytes `4 * k` to `4 * k + 3`, as an array of 32-bit
integers laid over the block has it.  An access past the end of the block reads
zero and writes nothing, so the accessors are total.
-/

namespace MiniOs

/-- A block of `sz` bytes. -/
abbrev Block (sz : Nat) := Fin sz → UInt8

namespace Block

variable {sz k i : Nat} {b : Block sz} {f : Nat → UInt32} {v : UInt32}

/-! ## Bytes -/

/-- The byte at offset `i`. -/
def u8 (b : Block sz) (i : Nat) : UInt8 :=
  if h : i < sz then b ⟨i, h⟩ else 0

/-- The block whose byte at `i` is `f i`. -/
def ofFn (f : Nat → UInt8) : Block sz := fun i => f i

/-- The block of zero bytes. -/
def zero : Block sz := fun _ => 0

@[simp] theorem u8_ofFn {f : Nat → UInt8} (h : i < sz) :
    (ofFn f : Block sz).u8 i = f i := by
  simp [u8, ofFn, h]

@[simp] theorem u8_zero (i : Nat) : (zero : Block sz).u8 i = 0 := by
  simp [u8, zero]

theorem u8_of_le (h : sz ≤ i) : b.u8 i = 0 := by
  simp [u8, Nat.not_lt.mpr h]

/-- Two blocks with the same bytes are the same block. -/
theorem ext_u8 {c : Block sz} (h : ∀ i, i < sz → b.u8 i = c.u8 i) : b = c := by
  funext i
  have := h i.1 i.2
  simpa [u8] using this

/-- The block with the byte at `i` replaced. -/
def setU8 (b : Block sz) (i : Nat) (v : UInt8) : Block sz :=
  ofFn fun j => if j = i then v else b.u8 j

theorem u8_setU8 {j : Nat} {v : UInt8} (h : j < sz) :
    (b.setU8 i v).u8 j = if j = i then v else b.u8 j := by
  simp [setU8, h]

/-- The block with the bytes from `off` on replaced by `f 0, f 1, …, f (len - 1)`,
as `memcpy` and `memset` do it. -/
def splice (b : Block sz) (off len : Nat) (f : Nat → UInt8) : Block sz :=
  ofFn fun j => if off ≤ j ∧ j < off + len then f (j - off) else b.u8 j

theorem u8_splice {off len : Nat} {f : Nat → UInt8} {j : Nat} (h : j < sz) :
    (b.splice off len f).u8 j = if off ≤ j ∧ j < off + len then f (j - off) else b.u8 j := by
  simp [splice, h]

/-! ## Words -/

/-- The `j`-th byte of a word, the low one first. -/
def leByte (v : UInt32) (j : Nat) : UInt8 := UInt8.ofNat (v.toNat / 256 ^ j)

/-- The word of four bytes, the low one first. -/
def leWord (b₀ b₁ b₂ b₃ : UInt8) : UInt32 :=
  UInt32.ofNat (b₀.toNat + 256 * b₁.toNat + 65536 * b₂.toNat + 16777216 * b₃.toNat)

theorem toNat_leWord (b₀ b₁ b₂ b₃ : UInt8) :
    (leWord b₀ b₁ b₂ b₃).toNat =
      b₀.toNat + 256 * b₁.toNat + 65536 * b₂.toNat + 16777216 * b₃.toNat := by
  have h0 := b₀.toNat_lt
  have h1 := b₁.toNat_lt
  have h2 := b₂.toNat_lt
  have h3 := b₃.toNat_lt
  rw [leWord, UInt32.toNat_ofNat']
  omega

theorem leWord_leByte (v : UInt32) :
    leWord (leByte v 0) (leByte v 1) (leByte v 2) (leByte v 3) = v := by
  have hv := v.toNat_lt
  apply UInt32.toNat_inj.mp
  rw [toNat_leWord]
  simp only [leByte, UInt8.toNat_ofNat']
  omega

theorem leByte_leWord (b₀ b₁ b₂ b₃ : UInt8) :
    leByte (leWord b₀ b₁ b₂ b₃) 0 = b₀ ∧ leByte (leWord b₀ b₁ b₂ b₃) 1 = b₁ ∧
      leByte (leWord b₀ b₁ b₂ b₃) 2 = b₂ ∧ leByte (leWord b₀ b₁ b₂ b₃) 3 = b₃ := by
  have h0 := b₀.toNat_lt
  have h1 := b₁.toNat_lt
  have h2 := b₂.toNat_lt
  have h3 := b₃.toNat_lt
  refine ⟨?_, ?_, ?_, ?_⟩ <;> apply UInt8.toNat_inj.mp <;>
    rw [leByte, UInt8.toNat_ofNat', toNat_leWord] <;> omega

theorem leWord_eq_zero {b₀ b₁ b₂ b₃ : UInt8} :
    leWord b₀ b₁ b₂ b₃ = 0 ↔ b₀ = 0 ∧ b₁ = 0 ∧ b₂ = 0 ∧ b₃ = 0 := by
  constructor
  · intro h
    have h' := congrArg UInt32.toNat h
    rw [toNat_leWord] at h'
    simp only [UInt32.toNat_zero] at h'
    refine ⟨?_, ?_, ?_, ?_⟩ <;> apply UInt8.toNat_inj.mp <;> simp only [UInt8.toNat_zero] <;> omega
  · rintro ⟨rfl, rfl, rfl, rfl⟩
    rfl

/-- Word `k` of a block. -/
def word (b : Block sz) (k : Nat) : UInt32 :=
  leWord (b.u8 (4 * k)) (b.u8 (4 * k + 1)) (b.u8 (4 * k + 2)) (b.u8 (4 * k + 3))

/-- The block with the words from `k` on replaced by `f 0, f 1, …, f (len - 1)`. -/
def setWords (b : Block sz) (k len : Nat) (f : Nat → UInt32) : Block sz :=
  ofFn fun j => if k ≤ j / 4 ∧ j / 4 < k + len then leByte (f (j / 4 - k)) (j % 4) else b.u8 j

/-- The block with word `k` replaced. -/
def setWord (b : Block sz) (k : Nat) (v : UInt32) : Block sz := b.setWords k 1 fun _ => v

theorem u8_setWords {len j : Nat} (h : j < sz) :
    (b.setWords k len f).u8 j =
      if k ≤ j / 4 ∧ j / 4 < k + len then leByte (f (j / 4 - k)) (j % 4) else b.u8 j := by
  simp [setWords, h]

/-- Blocks that agree on the bytes of a word agree on the word. -/
theorem word_congr {c : Block sz} (h : ∀ j, j / 4 = k → b.u8 j = c.u8 j) : b.word k = c.word k := by
  simp only [word]
  rw [h (4 * k) (by omega), h (4 * k + 1) (by omega), h (4 * k + 2) (by omega),
    h (4 * k + 3) (by omega)]

/-- A word inside the run that was written. -/
theorem word_setWords {len m : Nat} (h : 4 * m + 3 < sz)
    (hk : k ≤ m) (hm : m < k + len) : (b.setWords k len f).word m = f (m - k) := by
  have hb : ∀ j, j < 4 → (b.setWords k len f).u8 (4 * m + j) = leByte (f (m - k)) j := by
    intro j hj
    have hdiv : (4 * m + j) / 4 = m := by omega
    have hmod : (4 * m + j) % 4 = j := by omega
    rw [u8_setWords (by omega), hdiv, hmod, if_pos ⟨hk, hm⟩]
  have h0 := hb 0 (by omega)
  rw [Nat.add_zero] at h0
  rw [word, h0, hb 1 (by omega), hb 2 (by omega), hb 3 (by omega), leWord_leByte]

/-- A word outside the run that was written. -/
theorem word_setWords_of_not {len m : Nat}
    (h : ¬ (k ≤ m ∧ m < k + len)) : (b.setWords k len f).word m = b.word m := by
  apply word_congr
  intro j hj
  by_cases hsz : j < sz
  · rw [u8_setWords hsz, if_neg (by rw [hj]; exact h)]
  · rw [u8_of_le (by omega), u8_of_le (by omega)]

/-- The words of a block are its bytes. -/
theorem leByte_word (b : Block sz) (j : Nat) : leByte (b.word (j / 4)) (j % 4) = b.u8 j := by
  obtain ⟨h0, h1, h2, h3⟩ := leByte_leWord (b.u8 (4 * (j / 4))) (b.u8 (4 * (j / 4) + 1))
    (b.u8 (4 * (j / 4) + 2)) (b.u8 (4 * (j / 4) + 3))
  have hr : j % 4 = 0 ∨ j % 4 = 1 ∨ j % 4 = 2 ∨ j % 4 = 3 := by omega
  rw [word]
  rcases hr with hr | hr | hr | hr
  · rw [hr, h0, show 4 * (j / 4) = j by omega]
  · rw [hr, h1, show 4 * (j / 4) + 1 = j by omega]
  · rw [hr, h2, show 4 * (j / 4) + 2 = j by omega]
  · rw [hr, h3, show 4 * (j / 4) + 3 = j by omega]

/-- Words that are there already. -/
theorem setWords_self {len : Nat}
    (h : ∀ j, j < len → f j = b.word (k + j)) : b.setWords k len f = b := by
  apply ext_u8
  intro j hj
  rw [u8_setWords hj]
  split
  case isTrue hin =>
    rw [h _ (by omega), show k + (j / 4 - k) = j / 4 by omega, leByte_word]
  case isFalse => rfl

theorem word_setWord_same (h : 4 * k + 3 < sz) :
    (b.setWord k v).word k = v := by
  rw [setWord, word_setWords h (by omega) (by omega)]

theorem word_setWord_ne {m : Nat} (h : m ≠ k) :
    (b.setWord k v).word m = b.word m := by
  rw [setWord, word_setWords_of_not (by omega)]

/-- There are no words past the end. -/
theorem word_of_le (h : sz ≤ 4 * k) : b.word k = 0 := by
  rw [word, u8_of_le h, u8_of_le (by omega), u8_of_le (by omega), u8_of_le (by omega)]
  rfl

@[simp] theorem word_zero (k : Nat) : (zero : Block sz).word k = 0 := by
  simp [word, leWord_eq_zero]

/-! ## Half words -/

/-- The half word at byte offset `i`. -/
def half (b : Block sz) (i : Nat) : Nat := (b.u8 i).toNat + 256 * (b.u8 (i + 1)).toNat

end Block

end MiniOs
