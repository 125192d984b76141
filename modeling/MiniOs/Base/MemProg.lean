import MiniOs.Base.ByteMem

/-!
# Programs over a memory of bytes

A program that loads and stores bytes is a tree: it ends with a result, it loads a byte and goes on
with what it got, it stores a byte and goes on, or it is stuck, which is an assertion that fails or
a loop that does not end.  `Does x t a` says that the program `x` makes the accesses `t`, in this
order, and returns `a`, whatever memory answers its loads.  What a machine makes of a list of
accesses is another matter: a `ByteMachine` may refuse an access and may change its state at a load
as well.  So a statement about a program is made of two: one about the accesses it makes, and one
about what these accesses do.

The stores of a program are mostly those of `memcpy` and `memset`; `MemWrite` is a run of stores to
successive addresses, which may wrap around.
-/

namespace MiniOs

open Function (update_of_ne update_self)

variable {ws : List MemWrite} {u : Unit}

/-! ## Little-endian numbers -/

/-- The `n` low bytes of a number. -/
def leBytes (v : Nat) : Nat → List UInt8
  | 0 => []
  | n + 1 => UInt8.ofNat v :: leBytes (v / 256) n

/-- The number that bytes stand for. -/
def leValue : List UInt8 → Nat
  | [] => 0
  | b :: bs => b.toNat + 256 * leValue bs

@[simp] theorem length_leBytes (v n : Nat) : (leBytes v n).length = n := by
  induction n generalizing v with
  | zero => rfl
  | succ n ih => rw [leBytes, List.length_cons, ih]

theorem leValue_leBytes {v n : Nat} (h : v < 256 ^ n) : leValue (leBytes v n) = v := by
  induction n generalizing v with
  | zero => exact (Nat.lt_one_iff.mp h).symm
  | succ n ih =>
    rw [leBytes, leValue, ih (by rw [Nat.pow_succ] at h; omega), UInt8.toNat_ofNat']
    omega

/-! ## Bytes in memory -/

/-- The addresses behind the next one. -/
theorem add_one_ofNat (p : BitVec 64) (k : Nat) :
    p + 1 + BitVec.ofNat 64 k = p + BitVec.ofNat 64 (k + 1) := by
  rw [BitVec.add_assoc, Nat.add_comm, BitVec.ofNat_add]
  rfl

/-- The bytes are in memory from `p` on. -/
def ByteMem.Holds (m : ByteMem) (p : BitVec 64) (bs : List UInt8) : Prop :=
  ∀ i b, bs[i]? = some b → m (p + BitVec.ofNat 64 i) = b

namespace ByteMem.Holds

variable {m m' : ByteMem} {p : BitVec 64} {b : UInt8} {bs bs' : List UInt8}

theorem cons_iff : m.Holds p (b :: bs) ↔ m p = b ∧ m.Holds (p + 1) bs := by
  constructor
  · intro h
    refine ⟨by simpa using h 0 b rfl, fun i c hc => ?_⟩
    rw [add_one_ofNat]
    exact h (i + 1) c hc
  · rintro ⟨hb, h⟩ i c hc
    cases i with
    | zero =>
      cases hc
      simpa using hb
    | succ i =>
      rw [← add_one_ofNat]
      exact h i c hc

theorem of_map (h : (List.range bs.length).map (fun k => m (p + BitVec.ofNat 64 k)) = bs) :
    m.Holds p bs := by
  intro i b hb
  have hi := (List.getElem?_eq_some_iff.mp hb).1
  rw [← h, List.getElem?_map, List.getElem?_range hi] at hb
  exact Option.some.inj hb

/-- Memory that is the same at the addresses. -/
theorem congr (h : m.Holds p bs)
    (hsame : ∀ i < bs.length, m' (p + BitVec.ofNat 64 i) = m (p + BitVec.ofNat 64 i)) :
    m'.Holds p bs := fun i b hb =>
  (hsame i (List.getElem?_eq_some_iff.mp hb).1).trans (h i b hb)

end ByteMem.Holds

/-! ## Runs of stores -/

/-- A `memcpy` from a buffer, or a `memset` to 0. -/
inductive MemWrite where
  | copy (p : BitVec 64) (bytes : List UInt8)
  | zero (p : BitVec 64) (n : Nat)
deriving DecidableEq

namespace MemWrite

/-- The first address. -/
def start : MemWrite → BitVec 64
  | .copy p _ => p
  | .zero p _ => p

/-- The number of bytes. -/
def size : MemWrite → Nat
  | .copy _ bytes => bytes.length
  | .zero _ n => n

/-- The byte that is written at an offset. -/
def byte : MemWrite → Nat → UInt8
  | .copy _ bytes, i => bytes.getD i 0
  | .zero _ _, _ => 0

/-- The bytes that are written. -/
def bytes : MemWrite → List UInt8
  | .copy _ bytes => bytes
  | .zero _ n => List.replicate n 0

/-- The address is written to. -/
def Covers (w : MemWrite) (a : BitVec 64) : Prop := (a - w.start).toNat < w.size

instance (w : MemWrite) (a : BitVec 64) : Decidable (w.Covers a) := inferInstanceAs (Decidable (_ < _))

/-- The memory after the write. -/
def apply (m : ByteMem) (w : MemWrite) : ByteMem := fun a =>
  if w.Covers a then w.byte (a - w.start).toNat else m a

/-- The memory after the writes. -/
def applyAll (ws : List MemWrite) (m : ByteMem) : ByteMem := ws.foldl apply m

variable {w : MemWrite} {a : BitVec 64}

theorem apply_copy (p : BitVec 64) (bs : List UInt8) (m : ByteMem) (a : BitVec 64) :
    (copy p bs).apply m a = if (a - p).toNat < bs.length then bs.getD (a - p).toNat 0 else m a := rfl

@[simp] theorem length_bytes (w : MemWrite) : w.bytes.length = w.size := by
  cases w with
  | copy p bs => rfl
  | zero p n => exact List.length_replicate

/-- A write is the `memcpy` of its bytes. -/
theorem apply_bytes (w : MemWrite) (m : ByteMem) : (copy w.start w.bytes).apply m = w.apply m := by
  cases w with
  | copy p bs => rfl
  | zero p n =>
    funext a
    rw [apply_copy, length_bytes]
    refine if_congr Iff.rfl ?_ rfl
    simp [bytes, byte, List.getD_eq_getElem?_getD, List.getElem?_replicate]
    split <;> rfl

theorem covers_iff (h : w.start.toNat + w.size ≤ 2 ^ 64) :
    w.Covers a ↔ w.start.toNat ≤ a.toNat ∧ a.toNat < w.start.toNat + w.size :=
  ByteMem.toNat_sub_lt h

theorem not_covers_of_size (h : w.size = 0) (a : BitVec 64) : ¬ w.Covers a := by
  rw [Covers, h]
  exact Nat.not_lt_zero _

/-- The address `j` bytes on is written to. -/
theorem covers_at {j : Nat} (hj : j < w.size) (hlt : w.start.toNat + j < 2 ^ 64) :
    ∃ a, w.Covers a ∧ a.toNat = w.start.toNat + j := by
  refine ⟨w.start + BitVec.ofNat 64 j, ?_, ?_⟩
  · rw [Covers, BitVec.add_comm, BitVec.add_sub_cancel, BitVec.toNat_ofNat]
    rw [Nat.mod_eq_of_lt (by omega)]
    exact hj
  · rw [BitVec.toNat_add, BitVec.toNat_ofNat]
    omega

/-- What is at an address afterwards depends on what was at that address. -/
theorem applyAll_congr {m m' : ByteMem} (h : m a = m' a) :
    applyAll ws m a = applyAll ws m' a := by
  induction ws generalizing m m' with
  | nil => exact h
  | cons w ws ih =>
    refine ih ?_
    rw [apply, apply, h]

theorem applyAll_off {m : ByteMem} (h : ∀ w ∈ ws, ¬ w.Covers a) :
    applyAll ws m a = m a := by
  induction ws generalizing m with
  | nil => rfl
  | cons w ws ih =>
    refine (ih fun w hw => h w (.tail _ hw)).trans ?_
    rw [apply, if_neg (h w (.head _))]

/-- A write that is left out when it would change nothing. -/
theorem applyAll_ite {c : Prop} [Decidable c] (h : ¬ c → w.size = 0) (m : ByteMem) :
    applyAll (if c then [w] else []) m = w.apply m := by
  by_cases hc : c
  · rw [if_pos hc]
    rfl
  · rw [if_neg hc]
    funext a
    exact (if_neg (not_covers_of_size (h hc) a)).symm

end MemWrite

/-! ## Accesses -/

/-- An access to a memory, with the byte that is loaded or stored. -/
inductive Access where
  | load (p : BitVec 64) (b : UInt8)
  | store (p : BitVec 64) (b : UInt8)
deriving DecidableEq

namespace Access

def addr : Access → BitVec 64
  | .load p _ => p
  | .store p _ => p

def isStore : Access → Bool
  | .load _ _ => false
  | .store _ _ => true

/-- The memory after the access. -/
def apply (m : ByteMem) : Access → ByteMem
  | .load _ _ => m
  | .store p b => Function.update m p b

/-- The stores of bytes to the addresses from `p` on. -/
def storeRun (p : BitVec 64) : List UInt8 → List Access
  | [] => []
  | b :: bs => .store p b :: storeRun (p + 1) bs

/-- The memory after the accesses. -/
def replay (t : List Access) (m : ByteMem) : ByteMem := t.foldl apply m

variable {t t' : List Access} {m : ByteMem} {p a : BitVec 64} {b : UInt8} {bs : List UInt8}

@[simp] theorem addr_load : (load p b).addr = p := rfl

@[simp] theorem addr_store : (store p b).addr = p := rfl

theorem replay_append (t t' : List Access) (m : ByteMem) : replay (t ++ t') m = replay t' (replay t m) :=
  List.foldl_append ..

/-- Loads leave the memory as it is. -/
theorem replay_filter (t : List Access) (m : ByteMem) : replay (t.filter isStore) m = replay t m := by
  induction t generalizing m with
  | nil => rfl
  | cons x t ih =>
    cases x with
    | load p b => exact ih m
    | store p b => exact ih (Function.update m p b)

/-- Memories that are the same at the addresses of `D` stay the same there. -/
theorem replay_congr {D : BitVec 64 → Prop} {m' : ByteMem} (h : ∀ a, D a → m' a = m a)
    (t : List Access) : ∀ a, D a → replay t m' a = replay t m a := by
  induction t generalizing m m' with
  | nil => exact h
  | cons x t ih =>
    refine ih fun a ha => ?_
    cases x with
    | load p b => exact h a ha
    | store p b =>
      by_cases hap : a = p
      · subst hap
        rw [apply, apply, update_self, update_self]
      · rw [apply, apply, update_of_ne hap, update_of_ne hap, h a ha]

theorem filter_storeRun (p : BitVec 64) (bs : List UInt8) :
    (storeRun p bs).filter isStore = storeRun p bs := by
  induction bs generalizing p with
  | nil => rfl
  | cons b bs ih => rw [storeRun, List.filter_cons_of_pos rfl, ih]

theorem mem_storeRun : Access.store a b ∈ storeRun p bs ↔
    ∃ i, bs[i]? = some b ∧ a = p + BitVec.ofNat 64 i := by
  induction bs generalizing p with
  | nil => simp [storeRun]
  | cons c bs ih =>
    rw [storeRun, List.mem_cons, ih]
    constructor
    · rintro (h | ⟨i, hi, rfl⟩)
      · cases h
        exact ⟨0, rfl, by simp⟩
      · exact ⟨i + 1, hi, add_one_ofNat p i⟩
    · rintro ⟨i, hi, rfl⟩
      cases i with
      | zero =>
        cases hi
        exact .inl (by simp)
      | succ i =>
        exact .inr ⟨i, hi, (add_one_ofNat p i).symm⟩

theorem isStore_of_mem_storeRun {x : Access} (h : x ∈ storeRun p bs) : x.isStore = true := by
  rw [← filter_storeRun] at h
  exact (List.mem_filter.mp h).2

/-- The addresses of the stores are those that the write covers. -/
theorem exists_mem_storeRun {w : MemWrite} (h : w.size ≤ 2 ^ 64) :
    (∃ x ∈ storeRun w.start w.bytes, x.addr = a) ↔ w.Covers a := by
  constructor
  · rintro ⟨x, hx, rfl⟩
    cases x with
    | load q c => cases isStore_of_mem_storeRun hx
    | store q c =>
      obtain ⟨i, hi, rfl⟩ := mem_storeRun.mp hx
      have hlt := (List.getElem?_eq_some_iff.mp hi).1
      rw [w.length_bytes] at hlt
      rw [addr_store, MemWrite.Covers, BitVec.add_comm, BitVec.add_sub_cancel, BitVec.toNat_ofNat,
        Nat.mod_eq_of_lt (by omega)]
      exact hlt
  · intro hcov
    rw [MemWrite.Covers, ← w.length_bytes] at hcov
    refine ⟨.store a _, mem_storeRun.mpr ⟨(a - w.start).toNat, List.getElem?_eq_getElem hcov, ?_⟩, rfl⟩
    rw [BitVec.ofNat_toNat, BitVec.setWidth_eq, BitVec.add_comm, BitVec.sub_add_cancel]

/-- A run of stores is the `memcpy` of its bytes. -/
theorem replay_storeRun (h : bs.length ≤ 2 ^ 64) :
    replay (storeRun p bs) m = (MemWrite.copy p bs).apply m := by
  induction bs generalizing p m with
  | nil =>
    funext a
    exact (if_neg (MemWrite.not_covers_of_size rfl a)).symm
  | cons b bs ih =>
    rw [List.length_cons] at h
    change replay (storeRun (p + 1) bs) (Function.update m p b) = _
    rw [ih (by omega)]
    funext a
    rw [MemWrite.apply_copy, MemWrite.apply_copy, List.length_cons]
    have hone : (a - (p + 1)).toNat = if a = p then 2 ^ 64 - 1 else (a - p).toNat - 1 := by
      have ha := a.isLt
      have hp := p.isLt
      have heq : a = p ↔ a.toNat = p.toNat := BitVec.toNat_inj.symm
      have h1 : (1 : BitVec 64).toNat = 1 := rfl
      split
      case isTrue h =>
        rw [heq] at h
        rw [BitVec.toNat_sub, BitVec.toNat_add, h1]
        omega
      case isFalse h =>
        rw [heq] at h
        rw [BitVec.toNat_sub, BitVec.toNat_sub, BitVec.toNat_add, h1]
        omega
    rw [hone]
    by_cases ha : a = p
    · subst ha
      have hz : (0#64).toNat = 0 := rfl
      rw [if_pos rfl, if_neg (by omega), BitVec.sub_self, hz, if_pos (Nat.succ_pos _)]
      exact update_self ..
    · have hpos : 0 < (a - p).toNat := by
        rw [Nat.pos_iff_ne_zero]
        intro hz
        refine ha (BitVec.eq_of_toNat_eq ?_)
        have ha := a.isLt
        have hp := p.isLt
        rw [BitVec.toNat_sub] at hz
        omega
      obtain ⟨n, hn⟩ : ∃ n, (a - p).toNat = n + 1 := ⟨(a - p).toNat - 1, by omega⟩
      rw [if_neg ha, hn, Nat.add_sub_cancel, List.getD_cons_succ]
      by_cases hlt : n < bs.length
      · rw [if_pos hlt, if_pos (Nat.succ_lt_succ hlt)]
      · rw [if_neg hlt, if_neg (by omega)]
        exact update_of_ne ha _ _

theorem replay_writes (h : ∀ w ∈ ws, w.size ≤ 2 ^ 64) (m : ByteMem) :
    replay (ws.flatMap fun w => storeRun w.start w.bytes) m = MemWrite.applyAll ws m := by
  induction ws generalizing m with
  | nil => rfl
  | cons w ws ih =>
    rw [List.flatMap_cons, replay_append, replay_storeRun (by rw [w.length_bytes]; exact h w (.head _)),
      w.apply_bytes, ih fun w hw => h w (.tail _ hw)]
    rfl

theorem replay_storeRun_off (h : p.toNat + bs.length ≤ 2 ^ 64)
    (ha : a.toNat < p.toNat ∨ p.toNat + bs.length ≤ a.toNat) : replay (storeRun p bs) m a = m a := by
  rw [replay_storeRun (by omega), MemWrite.apply_copy, if_neg]
  rw [ByteMem.toNat_sub_lt h]
  omega

theorem holds_storeRun (h : bs.length ≤ 2 ^ 64) : (replay (storeRun p bs) m).Holds p bs := by
  intro i b hb
  have hi := (List.getElem?_eq_some_iff.mp hb).1
  have hsub : (p + BitVec.ofNat 64 i - p).toNat = i := by
    rw [BitVec.add_comm, BitVec.add_sub_cancel, BitVec.toNat_ofNat, Nat.mod_eq_of_lt (by omega)]
  rw [replay_storeRun h, MemWrite.apply_copy, hsub, if_pos hi, List.getD_eq_getElem?_getD, hb]
  rfl

/-- The stores are to addresses from `lo` on as long as they are to addresses below `hi`, and if all
of them are, `Q` holds. -/
def StoresFrom (lo hi : Nat) (Q : Prop) : List Access → Prop
  | [] => Q
  | .load _ _ :: t => StoresFrom lo hi Q t
  | .store p _ :: t => lo ≤ p.toNat ∧ (p.toNat < hi → StoresFrom lo hi Q t)

section StoresFrom

variable {lo hi : Nat} {Q : Prop}

theorem storesFrom_filter : StoresFrom lo hi Q (t.filter isStore) ↔ StoresFrom lo hi Q t := by
  induction t with
  | nil => rfl
  | cons x t ih =>
    cases x with
    | load p b => exact ih
    | store p b => exact and_congr_right fun _ => imp_congr_right fun _ => ih

theorem StoresFrom.mono {lo' : Nat} (h : StoresFrom lo hi Q t) (hlo : lo' ≤ lo) :
    StoresFrom lo' hi Q t := by
  induction t with
  | nil => exact h
  | cons x t ih =>
    cases x with
    | load p b => exact ih h
    | store p b => exact ⟨hlo.trans h.1, fun hlt => ih (h.2 hlt)⟩

/-- A run of stores does not come around. -/
theorem storesFrom_run (hlo : lo ≤ p.toNat) (hhi : hi < 2 ^ 64)
    (h : bs = [] ∨ p.toNat + bs.length ≤ hi → StoresFrom lo hi Q t) :
    StoresFrom lo hi Q (storeRun p bs ++ t) := by
  induction bs generalizing p with
  | nil => exact h (.inl rfl)
  | cons b bs ih =>
    refine ⟨hlo, fun hlt => ?_⟩
    have hnext : (p + 1).toNat = p.toNat + 1 := by
      rw [BitVec.toNat_add, show (1 : BitVec 64).toNat = 1 from rfl]
      omega
    refine ih (by omega) fun hle => h (.inr ?_)
    rw [List.length_cons]
    rcases hle with rfl | hle
    · rw [List.length_nil]
      omega
    · omega

end StoresFrom

end Access

/-! ## Programs -/

/-- A program over a memory of bytes with a result in `α`. -/
inductive MemProg (α : Type) where
  | pure (a : α)
  | load (p : BitVec 64) (k : UInt8 → MemProg α)
  | store (p : BitVec 64) (b : UInt8) (k : MemProg α)
  | stuck

namespace MemProg

variable {α β : Type}

def bind : MemProg α → (α → MemProg β) → MemProg β
  | .pure a, f => f a
  | .load p k, f => .load p fun b => (k b).bind f
  | .store p b k, f => .store p b (k.bind f)
  | .stuck, _ => .stuck

instance : Monad MemProg where
  pure := .pure
  bind := bind

/-- The program makes the accesses and returns the result. -/
inductive Does : MemProg α → List Access → α → Prop where
  | pure (a : α) : Does (.pure a) [] a
  | load {p : BitVec 64} {k : UInt8 → MemProg α} {b : UInt8} {t : List Access} {a : α} :
      Does (k b) t a → Does (.load p k) (.load p b :: t) a
  | store {p : BitVec 64} {b : UInt8} {k : MemProg α} {t : List Access} {a : α} :
      Does k t a → Does (.store p b k) (.store p b :: t) a

variable {x : MemProg α} {f : α → MemProg β} {t t1 t2 : List Access} {a : α} {c : β} {p : BitVec 64}
  {b : UInt8} {bs : List UInt8}

@[simp] theorem does_pure {a b : α} : Does (Pure.pure a) t b ↔ t = [] ∧ b = a := by
  constructor
  · intro h
    cases h
    exact ⟨rfl, rfl⟩
  · rintro ⟨rfl, rfl⟩
    exact .pure _

theorem Does.bind (hx : x.Does t1 a) (hf : (f a).Does t2 c) : (x >>= f).Does (t1 ++ t2) c := by
  induction hx with
  | pure a => exact hf
  | load _ ih => exact .load (ih hf)
  | store _ ih => exact .store (ih hf)

/-- The accesses of one program after another. -/
theorem does_bind : (x >>= f).Does t c ↔
    ∃ t1 a t2, x.Does t1 a ∧ (f a).Does t2 c ∧ t = t1 ++ t2 := by
  constructor
  · intro h
    induction x generalizing t with
    | pure a => exact ⟨[], a, t, .pure a, h, rfl⟩
    | load p k ih =>
      cases h with
      | @load _ _ b t _ h =>
        obtain ⟨t1, a, t2, hx, hf, rfl⟩ := ih b h
        exact ⟨_, a, t2, .load hx, hf, rfl⟩
    | store p b k ih =>
      cases h with
      | store h =>
        obtain ⟨t1, a, t2, hx, hf, rfl⟩ := ih h
        exact ⟨_, a, t2, .store hx, hf, rfl⟩
    | stuck => cases h
  · rintro ⟨t1, a, t2, hx, hf, rfl⟩
    exact hx.bind hf

/-- An assertion. -/
def assert (p : Prop) [Decidable p] : MemProg Unit := if p then Pure.pure () else .stuck

def loadByte (p : BitVec 64) : MemProg UInt8 := .load p .pure

def storeByte (p : BitVec 64) (b : UInt8) : MemProg Unit := .store p b (.pure ())

/-- The `n` bytes from `p` on. -/
def loadBytes : BitVec 64 → Nat → MemProg (List UInt8)
  | _, 0 => return []
  | p, n + 1 => do
      let b ← loadByte p
      let bs ← loadBytes (p + 1) n
      return b :: bs

def storeBytes : BitVec 64 → List UInt8 → MemProg Unit
  | _, [] => return ()
  | p, b :: bs => do
      storeByte p b
      storeBytes (p + 1) bs

/-- The writes, in order. -/
def storeAll : List MemWrite → MemProg Unit
  | [] => return ()
  | w :: ws => do
      storeBytes w.start w.bytes
      storeAll ws

/-- A 64-bit word. -/
def loadWord (p : BitVec 64) : MemProg (BitVec 64) := do
  let bs ← loadBytes p 8
  return BitVec.ofNat 64 (leValue bs)

def storeWord (p w : BitVec 64) : MemProg Unit := storeBytes p (leBytes w.toNat 8)

@[simp] theorem does_loadByte :
    (loadByte p).Does t b ↔ t = [.load p b] := by
  constructor
  · intro h
    cases h with
    | load h =>
      cases h
      rfl
  · rintro rfl
    exact .load (.pure b)

@[simp] theorem does_storeByte :
    (storeByte p b).Does t u ↔ t = [.store p b] := by
  constructor
  · intro h
    cases h with
    | store h =>
      cases h
      rfl
  · rintro rfl
    exact .store (.pure ())

@[simp] theorem does_assert {p : Prop} [Decidable p] :
    (assert p).Does t u ↔ p ∧ t = [] := by
  rw [assert]
  split
  case isTrue h => simp [h]
  case isFalse h => exact ⟨nofun, fun hp => absurd hp.1 h⟩

theorem does_storeBytes :
    (storeBytes p bs).Does t u ↔ t = Access.storeRun p bs := by
  induction bs generalizing p t with
  | nil => simp [storeBytes, Access.storeRun]
  | cons b bs ih => simp [storeBytes, does_bind, ih, Access.storeRun]

theorem does_storeAll :
    (storeAll ws).Does t u ↔ t = ws.flatMap fun w => Access.storeRun w.start w.bytes := by
  induction ws generalizing t with
  | nil => simp [storeAll]
  | cons w ws ih => simp [storeAll, does_bind, does_storeBytes, ih]

/-- Only loads. -/
def Reads (t : List Access) : Prop := t.filter Access.isStore = []

theorem Reads.append (h₁ : Reads t1) (h2 : Reads t2) : Reads (t1 ++ t2) := by
  rw [Reads, List.filter_append, h₁, h2]
  rfl

theorem reads_loadBytes {n : Nat} (h : (loadBytes p n).Does t bs) :
    Reads t ∧ bs.length = n := by
  induction n generalizing p t bs with
  | zero =>
    obtain ⟨rfl, rfl⟩ := does_pure.mp h
    exact ⟨rfl, rfl⟩
  | succ n ih =>
    obtain ⟨t1, b, t2, h₁, h2, rfl⟩ := does_bind.mp h
    obtain ⟨t3, bs', t4, h3, h4, rfl⟩ := does_bind.mp h2
    obtain rfl := does_loadByte.mp h₁
    obtain ⟨rfl, rfl⟩ := does_pure.mp h4
    obtain ⟨hreads, hlen⟩ := ih h3
    exact ⟨.append rfl (hreads.append rfl), congrArg Nat.succ hlen⟩

theorem reads_loadWord {w : BitVec 64} (h : (loadWord p).Does t w) : Reads t := by
  obtain ⟨t1, bs, t2, h₁, h2, rfl⟩ := does_bind.mp h
  obtain ⟨rfl, rfl⟩ := does_pure.mp h2
  exact (reads_loadBytes h₁).1.append rfl

end MemProg

/-! ## Machines -/

/-- A machine with bytes: what a load and a store do to its state, if it goes on. -/
structure ByteMachine (σ : Type) where
  load : σ → BitVec 64 → Option (UInt8 × σ)
  store : σ → BitVec 64 → UInt8 → Option σ

namespace ByteMachine

variable {σ α β : Type} (M : ByteMachine σ)

/-- The state after an access. -/
def step (s : σ) : Access → Option σ
  | .load p b => (M.load s p).bind fun (b', s') => if b' = b then some s' else none
  | .store p b => M.store s p b

/-- The state after accesses. -/
def steps : σ → List Access → Option σ
  | s, [] => some s
  | s, x :: t => (M.step s x).bind fun s' => steps s' t

/-- The result of a program, and the state it leaves. -/
def run : MemProg α → σ → Option (α × σ)
  | .pure a, s => some (a, s)
  | .load p k, s => (M.load s p).bind fun (b, s') => run (k b) s'
  | .store p b k, s => (M.store s p b).bind fun s' => run k s'
  | .stuck, _ => none

/-- The accesses that a program makes, as far as it goes. -/
def trace : MemProg α → σ → List Access
  | .pure _, _ => []
  | .load p k, s =>
      match M.load s p with
      | some (b, s') => .load p b :: trace (k b) s'
      | none => []
  | .store p b k, s =>
      match M.store s p b with
      | some s' => .store p b :: trace k s'
      | none => []
  | .stuck, _ => []

variable {M} {x : MemProg α} {f : α → MemProg β} {s s' s'' : σ} {t t' : List Access} {a : α} {c : β}

theorem step_load {p : BitVec 64} {b : UInt8} :
    M.step s (.load p b) = some s' ↔ M.load s p = some (b, s') := by
  rw [step, Option.bind_eq_some_iff]
  constructor
  · rintro ⟨⟨b', s1⟩, h, heq⟩
    change (if b' = b then some s1 else none) = some s' at heq
    split at heq
    case isTrue hb =>
      cases heq
      rw [h, hb]
    case isFalse => cases heq
  · intro h
    exact ⟨_, h, if_pos rfl⟩

/-- A program that runs has made the accesses of its trace. -/
theorem run_trace (h : M.run x s = some (a, s')) :
    x.Does (M.trace x s) a ∧ M.steps s (M.trace x s) = some s' := by
  induction x generalizing s with
  | pure a' =>
    cases h
    exact ⟨.pure _, rfl⟩
  | load p k ih =>
    obtain ⟨⟨b, s1⟩, hload, h⟩ := Option.bind_eq_some_iff.mp h
    obtain ⟨hdoes, hsteps⟩ := ih b h
    rw [trace, hload]
    exact ⟨.load hdoes, by rw [steps, step_load.mpr hload]; exact hsteps⟩
  | store p b k ih =>
    obtain ⟨s1, hstore, h⟩ := Option.bind_eq_some_iff.mp h
    obtain ⟨hdoes, hsteps⟩ := ih h
    rw [trace, hstore]
    exact ⟨.store hdoes, by rw [steps, step, hstore]; exact hsteps⟩
  | stuck => cases h

/-- A program runs when the machine goes along with its accesses. -/
theorem run_eq_some : M.run x s = some (a, s') ↔ ∃ t, x.Does t a ∧ M.steps s t = some s' := by
  constructor
  · intro h
    exact ⟨_, run_trace h⟩
  · rintro ⟨t, hdoes, hsteps⟩
    induction hdoes generalizing s with
    | pure a =>
      cases hsteps
      rfl
    | @load p k b t a _ ih =>
      obtain ⟨s1, hstep, hsteps⟩ := Option.bind_eq_some_iff.mp hsteps
      rw [run, step_load.mp hstep]
      exact ih hsteps
    | @store p b k t a _ ih =>
      obtain ⟨s1, hstep, hsteps⟩ := Option.bind_eq_some_iff.mp hsteps
      rw [run, show M.store s p b = some s1 from hstep]
      exact ih hsteps

theorem run_bind (x : MemProg α) (f : α → MemProg β) (s : σ) :
    M.run (x >>= f) s = (M.run x s).bind fun r => M.run (f r.1) r.2 := by
  induction x generalizing s with
  | pure a => rfl
  | load p k ih =>
    rw [run, Option.bind_assoc]
    exact Option.bind_congr fun (b, s') _ => ih b s'
  | store p b k ih =>
    rw [run, Option.bind_assoc]
    exact Option.bind_congr fun s' _ => ih s'
  | stuck => rfl

@[simp] theorem run_pure (a : α) (s : σ) : M.run (Pure.pure a) s = some (a, s) := rfl

/-! ## A memory and nothing else -/

/-- The machine whose state is its memory, and which does not go on at an access outside of `D`. -/
def flatOn (D : BitVec 64 → Prop) [DecidablePred D] : ByteMachine ByteMem where
  load m p := if D p then some (m p, m) else none
  store m p b := if D p then some (Function.update m p b) else none

/-- The machine whose state is its memory. -/
abbrev flat : ByteMachine ByteMem := flatOn fun _ => True

open ByteMem MemProg

variable {D : BitVec 64 → Prop} [DecidablePred D] {m m' : ByteMem} {p q : BitVec 64} {b : UInt8}
  {bs : List UInt8}

theorem flatOn_steps (h : (flatOn D).steps m t = some m') : m' = Access.replay t m := by
  induction t generalizing m with
  | nil =>
    cases h
    rfl
  | cons x t ih =>
    obtain ⟨m1, hstep, h⟩ := Option.bind_eq_some_iff.mp h
    rw [ih h]
    cases x with
    | load p b =>
      have hload := step_load.mp hstep
      simp only [flatOn, Option.ite_none_right_eq_some, Option.some.injEq, Prod.mk.injEq] at hload
      rw [← hload.2.2]
      rfl
    | store p b =>
      simp only [step, flatOn, Option.ite_none_right_eq_some, Option.some.injEq] at hstep
      rw [← hstep.2]
      rfl

theorem flatOn_loadByte (h : D p) (m : ByteMem) : (flatOn D).run (loadByte p) m = some (m p, m) := by
  simp [loadByte, run, flatOn, h]

theorem flatOn_storeByte (h : D p) (m : ByteMem) (b : UInt8) :
    (flatOn D).run (storeByte p b) m = some ((), Function.update m p b) := by
  simp [storeByte, run, flatOn, h]

theorem flatOn_loadBytes (h : m.Holds p bs) (hD : ∀ k < bs.length, D (p + BitVec.ofNat 64 k)) :
    (flatOn D).run (loadBytes p bs.length) m = some (bs, m) := by
  induction bs generalizing p with
  | nil => rfl
  | cons b bs ih =>
    obtain ⟨rfl, hrest⟩ := Holds.cons_iff.mp h
    have hp : D p := by simpa using hD 0 (Nat.succ_pos _)
    have hnext : ∀ k < bs.length, D (p + 1 + BitVec.ofNat 64 k) := fun k hk => by
      rw [add_one_ofNat]
      exact hD (k + 1) (Nat.succ_lt_succ hk)
    simp only [List.length_cons, loadBytes, run_bind, flatOn_loadByte hp, Option.bind_some,
      ih hrest hnext, run_pure]

theorem flatOn_loadWord {w : BitVec 64} (h : m.Holds p (leBytes w.toNat 8))
    (hD : ∀ k < 8, D (p + BitVec.ofNat 64 k)) : (flatOn D).run (loadWord p) m = some (w, m) := by
  have hw := w.isLt
  have hbytes := flatOn_loadBytes h (by rwa [length_leBytes])
  rw [length_leBytes] at hbytes
  rw [loadWord, run_bind, hbytes, Option.bind_some, run_pure, leValue_leBytes (by omega),
    BitVec.ofNat_toNat, BitVec.setWidth_eq]

theorem flatOn_storeBytes (m : ByteMem) (hD : ∀ k < bs.length, D (p + BitVec.ofNat 64 k)) :
    (flatOn D).run (storeBytes p bs) m = some ((), Access.replay (Access.storeRun p bs) m) := by
  induction bs generalizing p m with
  | nil => rfl
  | cons b bs ih =>
    have hp : D p := by simpa using hD 0 (Nat.succ_pos _)
    rw [storeBytes, run_bind, flatOn_storeByte hp, Option.bind_some, ih _ fun k hk => ?_]
    · rfl
    · rw [add_one_ofNat]
      exact hD (k + 1) (Nat.succ_lt_succ hk)

/-- At the addresses of `D` the machine's states show bytes that loads return and stores change. -/
structure Shows (M : ByteMachine σ) (D : BitVec 64 → Prop) (Inv : σ → Prop) (view : σ → ByteMem) :
    Prop where
  load : ∀ {s s' p b}, Inv s → D p → M.load s p = some (b, s') →
    b = view s p ∧ Inv s' ∧ ∀ a, D a → view s' a = view s a
  store : ∀ {s s' p b}, Inv s → D p → M.store s p b = some s' →
    Inv s' ∧ ∀ a, D a → view s' a = Function.update (view s) p b a

/-- A program that stays in `D` does what it does on the bytes that are shown, if the machine goes
along with it. -/
theorem Shows.run {Inv : σ → Prop} {view : σ → ByteMem} (h : Shows M D Inv view) {a' : α}
    (hinv : Inv s) (hview : ∀ p, D p → m p = view s p) (hflat : (flatOn D).run x m = some (a, m'))
    (hrun : M.run x s = some (a', s')) : a' = a ∧ Inv s' ∧ ∀ p, D p → m' p = view s' p := by
  induction x generalizing s m with
  | pure c =>
    cases hflat
    cases hrun
    exact ⟨rfl, hinv, hview⟩
  | load p k ih =>
    obtain ⟨⟨b, s1⟩, hload, hrun⟩ := Option.bind_eq_some_iff.mp hrun
    obtain ⟨⟨b', m1⟩, hbyte, hflat⟩ := Option.bind_eq_some_iff.mp hflat
    simp only [flatOn, Option.ite_none_right_eq_some, Option.some.injEq, Prod.mk.injEq] at hbyte
    obtain ⟨hp, rfl, rfl⟩ := hbyte
    obtain ⟨rfl, hinv', hsame⟩ := h.load hinv hp hload
    rw [hview p hp] at hflat
    exact ih _ hinv' (fun q hq => (hview q hq).trans (hsame q hq).symm) hflat hrun
  | store p b k ih =>
    obtain ⟨s1, hstore, hrun⟩ := Option.bind_eq_some_iff.mp hrun
    obtain ⟨m1, hbyte, hflat⟩ := Option.bind_eq_some_iff.mp hflat
    simp only [flatOn, Option.ite_none_right_eq_some, Option.some.injEq] at hbyte
    obtain ⟨hp, rfl⟩ := hbyte
    obtain ⟨hinv', hchanged⟩ := h.store hinv hp hstore
    refine ih hinv' (fun q hq => ?_) hflat hrun
    rw [hchanged q hq]
    by_cases hqp : q = p
    · subst hqp
      rw [update_self, update_self]
    · rw [update_of_ne hqp, update_of_ne hqp, hview q hq]
  | stuck => cases hrun

end ByteMachine

end MiniOs
