import MiniOs.Base.MemProg
import MiniOs.Io.Device
import MiniOs.Memory.Model

/-!
# The first stack page of a program (`build_stack` of `process.c`)

`build_stack` puts the argument vector and the argument strings at the end of a page.  It reads the
caller's vector and strings twice: once to add up the sizes and once to copy.  Here it is a program
over a memory of bytes, with `strlen` and `memcpy` as the loops of `string.c`; a `strlen` that finds
no end is stuck.  Beside the value of `build_stack` the model returns the blocks that were copied,
for statements about them.
-/

namespace MiniOs.Stack

open Memory MemProg

variable {k stksz : Nat} {blocks : List (List UInt8)} {a : Word}

/-- The loop of `strlen` at `p`, with `n` the value of `p - s`. -/
def strlenLoop : (fuel : Nat) → (p n : Word) → MemProg Word
  | 0, _, _ => .stuck
  | fuel + 1, p, n => do
      let b ← loadByte p
      if b = 0 then return n else strlenLoop fuel (p + 1) (n + 1)

/-- `strlen`; after `2 ^ 64` bytes it has come around. -/
def strlen (s : Word) : MemProg Word := if s = 0 then return 0 else strlenLoop (2 ^ 64) s 0

/-- The loop of `memcpy`, and the bytes that it copies. -/
def memcpyLoop : (n : Nat) → (p q : Word) → MemProg (List UInt8)
  | 0, _, _ => return []
  | n + 1, p, q => do
      let b ← loadByte q
      storeByte p b
      let bs ← memcpyLoop n (p + 1) (q + 1)
      return b :: bs

def memcpy (dst src n : Word) : MemProg (List UInt8) := memcpyLoop n.toNat dst src

/-- The address of element `i` of an array of pointers. -/
def slot (p : Word) (i : Nat) : Word := p + BitVec.ofNat 64 (8 * i)

/-- The loop that adds the sizes of the strings from `i` on, `n` strings, to `stksz`; there is no
result when they do not fit. -/
def sizeLoop (argv : Word) : (n i : Nat) → (stksz : Word) → MemProg (Option Word)
  | 0, _, stksz => return some stksz
  | n + 1, i, stksz => do
      let len ← strlen (← loadWord (slot argv i))
      let argsz := len + 1
      if BitVec.ofNat 64 pageSize - stksz < argsz then return none
      else sizeLoop argv n (i + 1) (stksz + argsz)

/-- `UMEM_END_VMA - PAGE_SIZE`, where the user program sees the stack page. -/
abbrev stackTop : Word := BitVec.ofNat 64 (umemEnd - pageSize)

/-- The loop that copies the strings from `i` on, `n` strings, to `p`. -/
def copyLoop (stack argv newargv : Word) : (n i : Nat) → (p : Word) → MemProg (List (List UInt8))
  | 0, _, _ => return []
  | n + 1, i, p => do
      storeWord (slot newargv i) (stackTop + (p - stack))
      let len ← strlen (← loadWord (slot argv i))
      let argsz := len + 1
      let block ← memcpy p (← loadWord (slot argv i)) argsz
      let blocks ← copyLoop stack argv newargv n (i + 1) (p + argsz)
      return block :: blocks

/-- `build_stack`: its value, and the blocks that were copied.  The test of `argc` compares unsigned
numbers. -/
def buildStack (stack : Word) (argc : BitVec 32) (argv : Word) :
    MemProg (Int × List (List UInt8)) := do
  if BitVec.ofNat 64 (pageSize / 8 - 1) < argc.signExtend 64 then return (-ENOMEM, [])
  match ← sizeLoop argv argc.toNat 0 (BitVec.ofNat 64 (8 * (argc.toNat + 1))) with
  | none => return (-ENOMEM, [])
  | some size =>
      let stksz := (size + 15) / 16 * 16
      assert (stksz ≤ BitVec.ofNat 64 pageSize)
      let newargv := stack + BitVec.ofNat 64 pageSize - stksz
      let blocks ← copyLoop stack argv newargv argc.toNat 0 (slot newargv (argc.toNat + 1))
      storeWord (slot newargv argc.toNat) 0
      return ((stksz.toNat : Int), blocks)

/-! ## The accesses -/

section Accesses

variable {stack argv newargv p q n r : Word} {argc : BitVec 32} {t : List Access}

theorem reads_strlenLoop {fuel : Nat} (h : (strlenLoop fuel p n).Does t r) : Reads t := by
  induction fuel generalizing p n t with
  | zero => cases h
  | succ fuel ih =>
    obtain ⟨t1, b, t2, h1, h2, rfl⟩ := does_bind.mp h
    obtain rfl := does_loadByte.mp h1
    refine .append rfl ?_
    split at h2
    case isTrue => exact (does_pure.mp h2).1 ▸ rfl
    case isFalse => exact ih h2

theorem reads_strlen (h : (strlen p).Does t r) : Reads t := by
  rw [strlen] at h
  split at h
  case isTrue => exact (does_pure.mp h).1 ▸ rfl
  case isFalse => exact reads_strlenLoop h

/-- The sizes are read and stay within a page. -/
theorem does_sizeLoop {i : Nat} {stksz : Word} {size : Option Word}
    (h : (sizeLoop argv k i stksz).Does t size) (hle : stksz.toNat ≤ pageSize) :
    Reads t ∧ ∀ sz, size = some sz → stksz.toNat ≤ sz.toNat ∧ sz.toNat ≤ pageSize := by
  induction k generalizing i stksz t with
  | zero =>
    obtain ⟨rfl, rfl⟩ := does_pure.mp h
    exact ⟨rfl, fun sz hsz => by cases hsz; exact ⟨Nat.le_refl _, hle⟩⟩
  | succ k ih =>
    obtain ⟨t1, s, t2, h1, h2, rfl⟩ := does_bind.mp h
    obtain ⟨t3, len, t4, h3, h4, rfl⟩ := does_bind.mp h2
    have hreads := (reads_loadWord h1).append (reads_strlen h3)
    rw [← List.append_assoc]
    dsimp only at h4
    split at h4
    case isTrue =>
      obtain ⟨rfl, rfl⟩ := does_pure.mp h4
      exact ⟨hreads.append rfl, nofun⟩
    case isFalse hfit =>
      have hpage : (BitVec.ofNat 64 pageSize).toNat = pageSize := rfl
      rw [BitVec.lt_def, BitVec.toNat_sub_of_le (by rw [BitVec.le_def]; exact hle), hpage] at hfit
      have hsum : (stksz + (len + 1)).toNat = stksz.toNat + (len + 1).toNat := by
        rw [BitVec.toNat_add, Nat.mod_eq_of_lt]
        simp only [pageSize] at hfit hle
        omega
      obtain ⟨hrest, hbound⟩ := ih h4 (by rw [hsum]; omega)
      refine ⟨hreads.append hrest, fun sz hsz => ?_⟩
      have := hbound sz hsz
      omega

theorem does_memcpyLoop {bs : List UInt8} (h : (memcpyLoop k p q).Does t bs) :
    bs.length = k ∧ t.filter Access.isStore = Access.storeRun p bs := by
  induction k generalizing p q t bs with
  | zero =>
    obtain ⟨rfl, rfl⟩ := does_pure.mp h
    exact ⟨rfl, rfl⟩
  | succ k ih =>
    obtain ⟨t1, b, t2, h1, h2, rfl⟩ := does_bind.mp h
    obtain ⟨t3, _, t4, h3, h4, rfl⟩ := does_bind.mp h2
    obtain ⟨t5, bs', t6, h5, h6, rfl⟩ := does_bind.mp h4
    obtain rfl := does_loadByte.mp h1
    obtain rfl := does_storeByte.mp h3
    obtain ⟨rfl, rfl⟩ := does_pure.mp h6
    obtain ⟨hlen, hstores⟩ := ih h5
    refine ⟨congrArg Nat.succ hlen, ?_⟩
    rw [List.append_nil, Access.storeRun, ← hstores]
    rfl

/-- The stores of `copyLoop` for the blocks from number `i` on, the first one at `p`. -/
def stackStores (stack newargv : Word) : (i : Nat) → (p : Word) → List (List UInt8) → List Access
  | _, _, [] => []
  | i, p, b :: bs =>
      Access.storeRun (slot newargv i) (leBytes (stackTop + (p - stack)).toNat 8) ++
        (Access.storeRun p b ++ stackStores stack newargv (i + 1) (p + BitVec.ofNat 64 b.length) bs)

/-- What `build_stack` stores for a stack of `stksz` bytes with the blocks. -/
def pageStores (stack : Word) (stksz argc : Nat) (blocks : List (List UInt8)) : List Access :=
  stackStores stack (stack + BitVec.ofNat 64 (pageSize - stksz)) 0
      (slot (stack + BitVec.ofNat 64 (pageSize - stksz)) (argc + 1)) blocks ++
    Access.storeRun (slot (stack + BitVec.ofNat 64 (pageSize - stksz)) argc) (leBytes 0 8)

theorem does_copyLoop {i : Nat} (h : (copyLoop stack argv newargv k i p).Does t blocks) :
    blocks.length = k ∧ t.filter Access.isStore = stackStores stack newargv i p blocks := by
  induction k generalizing i p t blocks with
  | zero =>
    obtain ⟨rfl, rfl⟩ := does_pure.mp h
    exact ⟨rfl, rfl⟩
  | succ k ih =>
    obtain ⟨t1, _, t2, h1, h2, rfl⟩ := does_bind.mp h
    obtain ⟨t3, s, t4, h3, h4, rfl⟩ := does_bind.mp h2
    obtain ⟨t5, len, t6, h5, h6, rfl⟩ := does_bind.mp h4
    obtain ⟨t7, s', t8, h7, h8, rfl⟩ := does_bind.mp h6
    obtain ⟨t9, b, t10, h9, h10, rfl⟩ := does_bind.mp h8
    obtain ⟨t11, bs, t12, h11, h12, rfl⟩ := does_bind.mp h10
    obtain ⟨rfl, rfl⟩ := does_pure.mp h12
    obtain rfl := does_storeBytes.mp h1
    obtain ⟨hlen, hstores⟩ := ih h11
    obtain ⟨hb, hcopy⟩ := does_memcpyLoop h9
    refine ⟨congrArg Nat.succ hlen, ?_⟩
    have hnext : BitVec.ofNat 64 b.length = len + 1 := by rw [hb, BitVec.ofNat_toNat, BitVec.setWidth_eq]
    simp only [List.filter_append, Access.filter_storeRun, hcopy, hstores, stackStores, hnext,
      show t3.filter Access.isStore = [] from reads_loadWord h3,
      show t5.filter Access.isStore = [] from reads_strlen h5,
      show t7.filter Access.isStore = [] from reads_loadWord h7, List.nil_append,
      List.append_nil]

/-- The test of `argc` lets pass what is neither negative nor too large. -/
theorem argc_lt (h : ¬ BitVec.ofNat 64 (pageSize / 8 - 1) < argc.signExtend 64) :
    argc.toNat < pageSize / 8 := by
  have hlt := argc.isLt
  have hlimit : (BitVec.ofNat 64 (pageSize / 8 - 1)).toNat = pageSize / 8 - 1 := rfl
  rw [BitVec.lt_def, BitVec.toNat_signExtend, BitVec.toNat_setWidth, hlimit] at h
  simp only [pageSize] at h ⊢
  omega

/-- The size rounded up to a multiple of 16. -/
theorem toNat_round {size : Word} (h : size.toNat ≤ pageSize) :
    ((size + 15) / 16 * 16).toNat = (size.toNat + 15) / 16 * 16 := by
  have h15 : (15 : Word).toNat = 15 := rfl
  have h16 : (16 : Word).toNat = 16 := rfl
  rw [BitVec.toNat_mul, BitVec.toNat_udiv, BitVec.toNat_add, h15, h16]
  simp only [pageSize] at h
  omega

/-- `build_stack` fails and has stored nothing, or it stores the vector and the blocks. -/
theorem does_buildStack {value : Int} (h : (buildStack stack argc argv).Does t (value, blocks)) :
    (value = -ENOMEM ∧ blocks = [] ∧ Reads t) ∨
      ∃ stksz : Nat, value = stksz ∧ stksz % 16 = 0 ∧ 8 * (argc.toNat + 1) ≤ stksz ∧
        stksz ≤ pageSize ∧ argc.toNat < pageSize / 8 ∧ blocks.length = argc.toNat ∧
        t.filter Access.isStore = pageStores stack stksz argc.toNat blocks := by
  rw [buildStack] at h
  split at h
  case isTrue =>
    obtain ⟨rfl, heq⟩ := does_pure.mp h
    cases heq
    exact .inl ⟨rfl, rfl, rfl⟩
  case isFalse hsmall =>
    have hargc : argc.toNat < pageSize / 8 := argc_lt hsmall
    obtain ⟨t1, size, t2, h1, h2, rfl⟩ := does_bind.mp h
    have hfirst : (BitVec.ofNat 64 (8 * (argc.toNat + 1))).toNat = 8 * (argc.toNat + 1) := by
      rw [BitVec.toNat_ofNat, Nat.mod_eq_of_lt]
      simp only [pageSize] at hargc
      omega
    obtain ⟨hreads, hsize⟩ := does_sizeLoop h1 (by rw [hfirst]; simp only [pageSize] at hargc ⊢; omega)
    cases size with
    | none =>
      obtain ⟨rfl, heq⟩ := does_pure.mp h2
      cases heq
      exact .inl ⟨rfl, rfl, hreads.append rfl⟩
    | some size =>
      obtain ⟨hlow, hhigh⟩ := hsize size rfl
      rw [hfirst] at hlow
      have hround := toNat_round hhigh
      obtain ⟨t3, _, t4, h3, h4, rfl⟩ := does_bind.mp h2
      obtain ⟨-, rfl⟩ := does_assert.mp h3
      obtain ⟨t5, bs, t6, h5, h6, rfl⟩ := does_bind.mp h4
      obtain ⟨t7, _, t8, h7, h8, rfl⟩ := does_bind.mp h6
      obtain ⟨rfl, heq⟩ := does_pure.mp h8
      cases heq
      obtain rfl := does_storeBytes.mp h7
      obtain ⟨hlen, hstores⟩ := does_copyLoop h5
      have hle : ((size + 15) / 16 * 16).toNat ≤ pageSize := by
        rw [hround]
        simp only [pageSize] at hhigh ⊢
        omega
      have hstart : stack + BitVec.ofNat 64 pageSize - (size + 15) / 16 * 16 =
          stack + BitVec.ofNat 64 (pageSize - ((size + 15) / 16 * 16).toNat) := by
        apply BitVec.eq_of_toNat_eq
        rw [BitVec.toNat_sub, BitVec.toNat_add, BitVec.toNat_add, BitVec.toNat_ofNat, BitVec.toNat_ofNat]
        simp only [pageSize] at hle ⊢
        omega
      refine .inr ⟨_, rfl, ?_, ?_, ?_, hargc, hlen, ?_⟩
      · rw [hround]
        omega
      · rw [hround]
        omega
      · exact hle
      · rw [pageStores, ← hstart, List.filter_append, List.filter_append, List.filter_append, List.filter_append,
          show t1.filter Access.isStore = [] from hreads, hstores, Access.filter_storeRun]
        simp

end Accesses

/-! ## What the stores leave -/

section Layout

variable {stack newargv p : Word} {m : ByteMem} {bs : List (List UInt8)} {i : Nat} {cs : List UInt8}
  {c : UInt8} {t : List Access}

theorem toNat_add_ofNat {p : Word} (h : p.toNat + k < 2 ^ 64) :
    (p + BitVec.ofNat 64 k).toNat = p.toNat + k := by
  rw [BitVec.toNat_add, BitVec.toNat_ofNat]
  omega

theorem toNat_slot {p : Word} {i : Nat} (h : p.toNat + 8 * i < 2 ^ 64) :
    (slot p i).toNat = p.toNat + 8 * i := toNat_add_ofNat h

/-- Bytes stay where nothing is written. -/
theorem holds_of_eqOff {m m' : ByteMem} {q : Word} (h : m.Holds q cs)
    (hend : q.toNat + cs.length ≤ 2 ^ 64)
    (hsame : ∀ a : Word, q.toNat ≤ a.toNat → a.toNat < q.toNat + cs.length → m' a = m a) :
    m'.Holds q cs := by
  refine h.congr fun k hk => hsame _ ?_ ?_
  · rw [toNat_add_ofNat (by omega)]
    omega
  · rw [toNat_add_ofNat (by omega)]
    omega

/-- The vector is written below `p` and the blocks from `p` on, one behind the other. -/
theorem replay_stackStores (stack newargv : Word) (bs : List (List UInt8))
    (hslots : newargv.toNat + 8 * (i + bs.length) ≤ p.toNat)
    (hend : p.toNat + bs.flatten.length < 2 ^ 64) :
    (∀ a : Word, a.toNat < newargv.toNat + 8 * i ∨
        (newargv.toNat + 8 * (i + bs.length) ≤ a.toNat ∧ a.toNat < p.toNat) ∨
        p.toNat + bs.flatten.length ≤ a.toNat →
      Access.replay (stackStores stack newargv i p bs) m a = m a) ∧
    ∀ j b, bs[j]? = some b →
      (Access.replay (stackStores stack newargv i p bs) m).Holds (slot newargv (i + j))
        (leBytes (stackTop + (p + BitVec.ofNat 64 (bs.take j).flatten.length - stack)).toNat 8) ∧
      (Access.replay (stackStores stack newargv i p bs) m).Holds
        (p + BitVec.ofNat 64 (bs.take j).flatten.length) b := by
  induction bs generalizing i p m with
  | nil => exact ⟨fun _ _ => rfl, nofun⟩
  | cons b bs ih =>
    rw [List.length_cons] at hslots
    rw [List.flatten_cons, List.length_append] at hend
    have hslot : (slot newargv i).toNat = newargv.toNat + 8 * i := toNat_slot (by omega)
    have hnext : (p + BitVec.ofNat 64 b.length).toNat = p.toNat + b.length := toNat_add_ofNat (by omega)
    let ptr := leBytes (stackTop + (p - stack)).toNat 8
    have hptr : ptr.length = 8 := length_leBytes _ _
    let m1 := Access.replay (Access.storeRun (slot newargv i) ptr) m
    let m2 := Access.replay (Access.storeRun p b) m1
    obtain ⟨hkeep, hholds⟩ := ih (i := i + 1) (p := p + BitVec.ofNat 64 b.length) (m := m2)
      (by rw [hnext]; omega) (by rw [hnext]; omega)
    rw [hnext] at hkeep
    rw [stackStores, Access.replay_append, Access.replay_append, List.flatten_cons, List.length_append,
      List.length_cons]
    change (∀ a : Word, _ → Access.replay _ m2 a = m a) ∧ ∀ j c, _ → (Access.replay _ m2).Holds _ _ ∧
      (Access.replay _ m2).Holds _ _
    have hkeep1 : ∀ a : Word, a.toNat < newargv.toNat + 8 * i ∨ newargv.toNat + 8 * i + 8 ≤ a.toNat →
        m1 a = m a := by
      intro a ha
      exact Access.replay_storeRun_off (by rw [hslot, hptr]; omega) (by rw [hslot, hptr]; exact ha)
    have hkeep2 : ∀ a : Word, a.toNat < p.toNat ∨ p.toNat + b.length ≤ a.toNat → m2 a = m1 a :=
      fun a ha => Access.replay_storeRun_off (by omega) ha
    refine ⟨fun a ha => ?_, fun j c hc => ?_⟩
    · rw [hkeep a (by omega), hkeep2 a (by omega), hkeep1 a (by omega)]
    · cases j with
      | zero =>
        cases hc
        simp only [List.take_zero, List.flatten_nil, List.length_nil, BitVec.add_zero,
          Nat.add_zero]
        have hfirst : m1.Holds (slot newargv i) ptr := Access.holds_storeRun (by rw [hptr]; decide)
        have hblock : m2.Holds p b := Access.holds_storeRun (by omega)
        constructor
        · refine holds_of_eqOff hfirst (by rw [hslot, hptr]; omega) fun a hlo hhi => ?_
          rw [hslot] at hlo hhi
          rw [hptr] at hhi
          rw [hkeep a (by omega), hkeep2 a (by omega)]
        · exact holds_of_eqOff hblock (by omega) fun a hlo hhi => hkeep a (by omega)
      | succ j =>
        have hpos : p + BitVec.ofNat 64 ((b :: bs).take (j + 1)).flatten.length =
            p + BitVec.ofNat 64 b.length + BitVec.ofNat 64 (bs.take j).flatten.length := by
          rw [List.take_succ_cons, List.flatten_cons, List.length_append, BitVec.ofNat_add,
            BitVec.add_assoc]
        rw [hpos, show i + (j + 1) = i + 1 + j by omega]
        exact hholds j c hc

/-- The addresses of a run of stores that does not wrap around. -/
theorem mem_storeRun_bounds {p : Word} {b : UInt8} (hend : p.toNat + cs.length ≤ 2 ^ 64)
    (h : Access.store a b ∈ Access.storeRun p cs) : p.toNat ≤ a.toNat ∧ a.toNat < p.toNat + cs.length := by
  obtain ⟨k, hk, rfl⟩ := Access.mem_storeRun.mp h
  have hlt := (List.getElem?_eq_some_iff.mp hk).1
  rw [toNat_add_ofNat (by omega)]
  omega

/-- The stores are to the vector and to the blocks. -/
theorem mem_stackStores (stack newargv : Word) (bs : List (List UInt8))
    (hslots : newargv.toNat + 8 * (i + bs.length) ≤ p.toNat)
    (hend : p.toNat + bs.flatten.length < 2 ^ 64)
    (h : Access.store a c ∈ stackStores stack newargv i p bs) :
    newargv.toNat + 8 * i ≤ a.toNat ∧ a.toNat < p.toNat + bs.flatten.length := by
  induction bs generalizing i p with
  | nil => cases h
  | cons b bs ih =>
    rw [List.length_cons] at hslots
    rw [List.flatten_cons, List.length_append] at hend ⊢
    have hslot : (slot newargv i).toNat = newargv.toNat + 8 * i := toNat_slot (by omega)
    have hnext : (p + BitVec.ofNat 64 b.length).toNat = p.toNat + b.length := toNat_add_ofNat (by omega)
    rw [stackStores, List.mem_append, List.mem_append] at h
    rcases h with h | h | h
    · have hin := mem_storeRun_bounds (by rw [hslot, length_leBytes]; omega) h
      rw [hslot, length_leBytes] at hin
      omega
    · have hin := mem_storeRun_bounds (by omega) h
      omega
    · have hin := ih (by omega) (by omega) h
      omega

theorem storesFrom_stackStores {lo hi : Nat} {Q : Prop} {newargv p : Word} {i : Nat}
    (stack : Word) (blocks : List (List UInt8)) (hlo : lo ≤ newargv.toNat) (hp : lo ≤ p.toNat)
    (hslots : newargv.toNat + 8 * (i + blocks.length) ≤ hi) (hle : p.toNat ≤ hi) (hhi : hi < 2 ^ 64)
    (h : p.toNat + blocks.flatten.length ≤ hi → Access.StoresFrom lo hi Q t) :
    Access.StoresFrom lo hi Q (stackStores stack newargv i p blocks ++ t) := by
  induction blocks generalizing i p with
  | nil => exact h hle
  | cons b bs ih =>
    rw [List.length_cons] at hslots
    have hslot : (slot newargv i).toNat = newargv.toNat + 8 * i := toNat_slot (by omega)
    rw [stackStores, List.append_assoc, List.append_assoc]
    refine Access.storesFrom_run (by omega) hhi fun _ => Access.storesFrom_run hp hhi fun hb => ?_
    have hend : p.toNat + b.length ≤ hi := by
      rcases hb with rfl | hb
      · exact hle
      · exact hb
    have hnext : (p + BitVec.ofNat 64 b.length).toNat = p.toNat + b.length := toNat_add_ofNat (by omega)
    refine ih (by omega) (by omega) (by omega) fun hrest => h ?_
    rw [List.flatten_cons, List.length_append]
    omega

/-- A block ends before the next one starts. -/
theorem length_take_add_le {bs : List (List UInt8)} {b : List UInt8} {i j : Nat} (h : bs[i]? = some b)
    (hij : i < j) : (bs.take i).flatten.length + b.length ≤ (bs.take j).flatten.length := by
  have hsub : (bs.take (i + 1)).Sublist (bs.take j) := List.take_sublist_take_left hij
  have hle := hsub.flatten.length_le
  rw [List.take_add_one, h, List.flatten_append, List.length_append] at hle
  simpa using hle

/-- Where block `j` is in the page, behind the vector and the blocks before it. -/
def blockOffset (stksz argc : Nat) (blocks : List (List UInt8)) (j : Nat) : Nat :=
  pageSize - stksz + 8 * (argc + 1) + (blocks.take j).flatten.length

/-- The page at `stack` holds the vector and the blocks at its end. -/
structure Layout (m : ByteMem) (stack : Word) (stksz argc : Nat) (blocks : List (List UInt8)) :
    Prop where
  null : m.Holds (stack + BitVec.ofNat 64 (pageSize - stksz + 8 * argc)) (leBytes 0 8)
  pointer : ∀ j b, blocks[j]? = some b →
    m.Holds (stack + BitVec.ofNat 64 (pageSize - stksz + 8 * j))
      (leBytes (umemEnd - pageSize + blockOffset stksz argc blocks j) 8)
  block : ∀ j b, blocks[j]? = some b →
    m.Holds (stack + BitVec.ofNat 64 (blockOffset stksz argc blocks j)) b

theorem slot_newargv (stack : Word) (k j : Nat) :
    slot (stack + BitVec.ofNat 64 k) j = stack + BitVec.ofNat 64 (k + 8 * j) := by
  rw [slot, BitVec.add_assoc, ← BitVec.ofNat_add]

section Page

variable {argc : Nat} (hstack : stack.toNat + pageSize < 2 ^ 64) (hpage : stksz ≤ pageSize)

include hstack hpage

/-- The vector starts `stksz` bytes before the end of the page. -/
theorem toNat_newargv :
    (stack + BitVec.ofNat 64 (pageSize - stksz)).toNat = stack.toNat + pageSize - stksz := by
  rw [toNat_add_ofNat (by omega)]
  omega

theorem toNat_slot_newargv {j : Nat} (hj : 8 * j ≤ stksz) :
    (slot (stack + BitVec.ofNat 64 (pageSize - stksz)) j).toNat =
      stack.toNat + pageSize - stksz + 8 * j := by
  rw [slot_newargv, toNat_add_ofNat (by omega)]
  omega

/-- The stores of `build_stack` make the layout and change nothing else, when the blocks fit. -/
theorem layout_of_stores (hlen : blocks.length = argc)
    (hfit : 8 * (argc + 1) + blocks.flatten.length ≤ stksz)
    (hstores : t.filter Access.isStore = pageStores stack stksz argc blocks) :
    Layout (Access.replay t m) stack stksz argc blocks ∧
      ∀ a : Word, a.toNat < stack.toNat + pageSize - stksz ∨
          stack.toNat + pageSize - stksz + 8 * (argc + 1) + blocks.flatten.length ≤ a.toNat →
        Access.replay t m a = m a := by
  have hnew := toNat_newargv hstack hpage
  have hfirst := toNat_slot_newargv hstack hpage (show 8 * (argc + 1) ≤ stksz by omega)
  have hlast := toNat_slot_newargv hstack hpage (show 8 * argc ≤ stksz by omega)
  have hzeros : (leBytes 0 8).length = 8 := rfl
  obtain ⟨hkeep, hholds⟩ := replay_stackStores stack (stack + BitVec.ofNat 64 (pageSize - stksz)) blocks
    (m := m) (i := 0) (p := slot (stack + BitVec.ofNat 64 (pageSize - stksz)) (argc + 1))
    (by rw [hnew, hfirst]; omega) (by rw [hfirst]; omega)
  rw [hnew, hfirst, Nat.mul_zero, Nat.add_zero, Nat.zero_add, hlen] at hkeep
  -- block `j` is in the page, and the vector is told the address the user sees
  have hblock : ∀ j, stack + BitVec.ofNat 64 (pageSize - stksz + 8 * (argc + 1)) +
      BitVec.ofNat 64 (blocks.take j).flatten.length =
        stack + BitVec.ofNat 64 (blockOffset stksz argc blocks j) := by
    intro j
    rw [BitVec.add_assoc, ← BitVec.ofNat_add, blockOffset]
  have hpart : ∀ j, (blocks.take j).flatten.length ≤ blocks.flatten.length := fun j =>
    (List.Sublist.flatten (List.take_sublist j blocks)).length_le
  have hseen : ∀ j, (stackTop + (stack + BitVec.ofNat 64 (blockOffset stksz argc blocks j) - stack)).toNat =
      umemEnd - pageSize + blockOffset stksz argc blocks j := by
    intro j
    have hle := hpart j
    rw [BitVec.add_comm stack, BitVec.add_sub_cancel, toNat_add_ofNat, BitVec.toNat_ofNat,
      Nat.mod_eq_of_lt (by decide)]
    rw [BitVec.toNat_ofNat, blockOffset]
    simp only [pageSize, umemEnd] at hpage ⊢
    omega
  simp only [slot_newargv, Nat.zero_add] at hholds
  simp only [hblock, hseen] at hholds
  rw [← Access.replay_filter t, hstores, pageStores, Access.replay_append]
  simp only [slot_newargv] at hkeep hlast ⊢
  have hzero : ∀ {m1 : ByteMem} {a : Word}, a.toNat < stack.toNat + pageSize - stksz + 8 * argc ∨
      stack.toNat + pageSize - stksz + 8 * argc + 8 ≤ a.toNat →
      Access.replay (Access.storeRun (stack + BitVec.ofNat 64 (pageSize - stksz + 8 * argc)) (leBytes 0 8))
        m1 a = m1 a := fun ha =>
    Access.replay_storeRun_off (by rw [hlast, hzeros]; omega) (by rw [hlast, hzeros]; exact ha)
  refine ⟨⟨Access.holds_storeRun (by decide), fun j b hj => ?_, fun j b hj => ?_⟩, fun a ha => ?_⟩
  · have hlt : j < argc := hlen ▸ (List.getElem?_eq_some_iff.mp hj).1
    have hat := toNat_slot_newargv hstack hpage (show 8 * j ≤ stksz by omega)
    rw [slot_newargv] at hat
    refine holds_of_eqOff (hholds j b hj).1 (by rw [hat, length_leBytes]; omega) fun a hlo hhi => ?_
    rw [hat] at hlo hhi
    rw [length_leBytes] at hhi
    refine hzero ?_
    omega
  · have hin := (length_take_add_le hj (Nat.lt_succ_self j)).trans (hpart (j + 1))
    have hat : (stack + BitVec.ofNat 64 (blockOffset stksz argc blocks j)).toNat =
        stack.toNat + blockOffset stksz argc blocks j := by
      rw [toNat_add_ofNat]
      rw [blockOffset]
      omega
    refine holds_of_eqOff (hholds j b hj).2 ?_ fun a hlo hhi => ?_
    · rw [hat, blockOffset]
      omega
    · rw [hat, blockOffset] at hlo
      refine hzero ?_
      omega
  · rw [hzero (by omega), hkeep a (by omega)]

/-- They are in the part of the page that `build_stack` returns the size of. -/
theorem mem_pageStores (hlen : blocks.length = argc)
    (hfit : 8 * (argc + 1) + blocks.flatten.length ≤ stksz)
    (h : Access.store a c ∈ pageStores stack stksz argc blocks) :
    stack.toNat + pageSize - stksz ≤ a.toNat ∧ a.toNat < stack.toNat + pageSize := by
  have hnew := toNat_newargv hstack hpage
  have hfirst := toNat_slot_newargv hstack hpage (show 8 * (argc + 1) ≤ stksz by omega)
  have hlast := toNat_slot_newargv hstack hpage (show 8 * argc ≤ stksz by omega)
  rw [pageStores, List.mem_append] at h
  rcases h with h | h
  · have hin := mem_stackStores stack _ blocks (by rw [hnew, hfirst]; omega) (by rw [hfirst]; omega) h
    omega
  · have hzeros : (leBytes 0 8).length = 8 := rfl
    have hin := mem_storeRun_bounds (by rw [hlast]; omega) h
    omega

/-- The stores of `build_stack` stay in the page, or they leave it at its end. -/
theorem storesFrom_pageStores (hlen : blocks.length = argc) (hvec : 8 * (argc + 1) ≤ stksz) :
    Access.StoresFrom stack.toNat (stack.toNat + pageSize)
      (8 * (argc + 1) + blocks.flatten.length ≤ stksz) (pageStores stack stksz argc blocks) := by
  have hnew := toNat_newargv hstack hpage
  have hfirst := toNat_slot_newargv hstack hpage (show 8 * (argc + 1) ≤ stksz by omega)
  have hlast := toNat_slot_newargv hstack hpage (show 8 * argc ≤ stksz by omega)
  refine storesFrom_stackStores stack blocks (by omega) (by omega) (by omega) (by omega) hstack
    fun hfit => ?_
  rw [← List.append_nil (Access.storeRun _ _)]
  refine Access.storesFrom_run (by omega) hstack fun _ => ?_
  change 8 * (argc + 1) + blocks.flatten.length ≤ stksz
  omega

end Page

end Layout

end MiniOs.Stack
