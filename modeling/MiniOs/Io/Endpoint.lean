import Mathlib.Data.BitVec
import MiniOs.Io.Device

/-!
# Endpoints and the calls on them (`io.c`)

An endpoint is the table of its functions over a state.  A buffer is the list of its bytes: a
function that reads returns the bytes it put at the start of the buffer, and one that writes is
given the bytes from the start on.  `long` counts that may be negative are `Int`, and positions are
64-bit words.

`iowrite` calls the endpoint until everything is taken, nothing is taken, or there is an error.
However the endpoint splits the buffer, what it has taken at each point is a prefix of the buffer.
-/

namespace MiniOs

/-- The commands of `ioctl`, with what their argument points to. -/
inductive IoCmd where
  | getblksz
  | getend
  | setend (v : BitVec 64)
  | getpos
  | setpos (v : BitVec 64)
  | other (cmd : Nat)
deriving DecidableEq

/-- `struct iointf`, less `close`; a null pointer is `none`.  `cntl` also returns what it stores
through its argument. -/
structure Iointf (σ : Type) where
  cntl : Option (σ → IoCmd → Int × Option (BitVec 64) × σ)
  read : Option (σ → Nat → Int × List UInt8 × σ)
  write : Option (σ → List UInt8 → Int × σ)
  readat : Option (σ → BitVec 64 → Nat → Int × List UInt8 × σ)
  writeat : Option (σ → BitVec 64 → List UInt8 → Int × σ)

namespace Iointf

variable {σ : Type}

/-- `ioread`. -/
def ioread (e : Iointf σ) (s : σ) (bufsz : Int) : Int × List UInt8 × σ :=
  match e.read with
  | none => (-ENOTSUP, [], s)
  | some read => if bufsz < 0 then (-EINVAL, [], s) else read s bufsz.toNat

/-- The loop of `iofill`; `got` are the bytes in the buffer, up to `bufpos`. -/
def iofillLoop (read : σ → Nat → Int × List UInt8 × σ) (bufsz : Nat) :
    Nat → List UInt8 → σ → Option (Int × List UInt8 × σ)
  | 0, _, _ => none
  | fuel + 1, got, s =>
      if got.length < bufsz then
        let (nread, bytes, s) := read s (bufsz - got.length)
        if nread ≤ 0 then some (if nread < 0 then nread else got.length, got, s)
        else iofillLoop read bufsz fuel (got ++ bytes.take nread.toNat) s
      else some (got.length, got, s)

/-- `iofill`. -/
def iofill (e : Iointf σ) (s : σ) (bufsz : Int) : Option (Int × List UInt8 × σ) :=
  match e.read with
  | none => some (-ENOTSUP, [], s)
  | some read =>
      if bufsz < 0 then some (-EINVAL, [], s)
      else iofillLoop read bufsz.toNat (bufsz.toNat + 1) [] s

/-- The loop of `iowrite` on the bytes `buf`. -/
def iowriteLoop (write : σ → List UInt8 → Int × σ) (buf : List UInt8) :
    Nat → Nat → σ → Option (Int × σ)
  | 0, _, _ => none
  | fuel + 1, bufpos, s =>
      let (n, s) := write s (buf.drop bufpos)
      if n ≤ 0 then some (if n < 0 then n else bufpos, s)
      else
        let bufpos := bufpos + n.toNat
        if bufpos < buf.length then iowriteLoop write buf fuel bufpos s else some (bufpos, s)

/-- `iowrite` of the first `len` bytes of `buf`. -/
def iowrite (e : Iointf σ) (s : σ) (buf : List UInt8) (len : Int) : Option (Int × σ) :=
  match e.write with
  | none => some (-ENOTSUP, s)
  | some write =>
      if len < 0 then some (-EINVAL, s)
      else iowriteLoop write (buf.take len.toNat) (len.toNat + 1) 0 s

/-- `ioreadat`. -/
def ioreadat (e : Iointf σ) (s : σ) (pos : BitVec 64) (bufsz : Int) : Int × List UInt8 × σ :=
  match e.readat with
  | none => (-ENOTSUP, [], s)
  | some readat => if bufsz < 0 then (-EINVAL, [], s) else readat s pos bufsz.toNat

/-- `iowriteat` of the first `len` bytes of `buf`. -/
def iowriteat (e : Iointf σ) (s : σ) (pos : BitVec 64) (buf : List UInt8) (len : Int) : Int × σ :=
  match e.writeat with
  | none => (-ENOTSUP, s)
  | some writeat => if len < 0 then (-EINVAL, s) else writeat s pos (buf.take len.toNat)

/-- `ioctl`. -/
def ioctl (e : Iointf σ) (s : σ) (cmd : IoCmd) : Int × Option (BitVec 64) × σ :=
  match e.cntl with
  | some cntl => cntl s cmd
  | none => if cmd = .getblksz then (1, none, s) else (-ENOTSUP, none, s)

/-- `ioblksz`. -/
def ioblksz (e : Iointf σ) (s : σ) : Int := (e.ioctl s .getblksz).1

/-- `ioseek`. -/
def ioseek (e : Iointf σ) (s : σ) (pos : BitVec 64) : Int × σ :=
  let (rc, _, s) := e.ioctl s (.setpos pos)
  (rc, s)

/-- `iowrite` returns, and what every call of the endpoint keeps is kept. -/
theorem iowriteLoop_keeps {write : σ → List UInt8 → Int × σ} {Inv : σ → Prop}
    (h : ∀ s xs, Inv s → Inv (write s xs).2) {buf : List UInt8} :
    ∀ {fuel bufpos : Nat} {s : σ}, buf.length - bufpos < fuel → Inv s →
      ∃ r s', iowriteLoop write buf fuel bufpos s = some (r, s') ∧ Inv s' := by
  intro fuel
  induction fuel with
  | zero =>
    intro bufpos s hfuel
    exact absurd hfuel (Nat.not_lt_zero _)
  | succ fuel ih =>
    intro bufpos s hfuel hs
    have hs1 := h s (buf.drop bufpos) hs
    rw [iowriteLoop]
    generalize write s (buf.drop bufpos) = x at hs1 ⊢
    obtain ⟨n, s1⟩ := x
    dsimp only at hs1 ⊢
    split
    · exact ⟨_, _, rfl, hs1⟩
    · split
      · exact ih (by omega) hs1
      · exact ⟨_, _, rfl, hs1⟩

/-! ## What `iowrite` delivers -/

/-- Each call of `write` takes some of the bytes it is given, from the first on, and returns how many
or an error.  `accepted` is all that the endpoint has taken. -/
structure Accepts (write : σ → List UInt8 → Int × σ) (accepted : σ → List UInt8) : Prop where
  count : ∀ s xs, (write s xs).1 ≤ xs.length
  taken : ∀ s xs, 0 ≤ (write s xs).1 →
    accepted (write s xs).2 = accepted s ++ xs.take (write s xs).1.toNat
  failed : ∀ s xs, (write s xs).1 < 0 → ∃ k, accepted (write s xs).2 = accepted s ++ xs.take k

variable {write : σ → List UInt8 → Int × σ} {accepted : σ → List UInt8} {buf : List UInt8} {s₀ s : σ}

/-- What `iowrite` returns, and what the endpoint has taken since the state was `s₀`. -/
structure Delivered (write : σ → List UInt8 → Int × σ) (accepted : σ → List UInt8) (s₀ : σ)
    (buf : List UInt8) (r : Int) (s' : σ) : Prop where
  le : r ≤ buf.length
  once : 0 ≤ r → accepted s' = accepted s₀ ++ buf.take r.toNat
  /-- Less than everything is taken when the last call took nothing. -/
  short : 0 ≤ r → r < buf.length → ∃ s, write s (buf.drop r.toNat) = (0, s')
  failed : r < 0 → ∃ k, accepted s' = accepted s₀ ++ buf.take k

/-- A piece of the buffer after what was taken. -/
theorem take_append_piece (buf : List UInt8) (n k : Nat) :
    buf.take n ++ (buf.drop n).take k = buf.take (n + k) := (List.take_add ..).symm

/-- The loop, with the first `bufpos` bytes taken. -/
theorem iowriteLoop_delivers (h : Accepts write accepted) :
    ∀ {fuel bufpos : Nat} {s : σ}, buf.length - bufpos < fuel → bufpos ≤ buf.length →
      accepted s = accepted s₀ ++ buf.take bufpos →
      ∃ r s', iowriteLoop write buf fuel bufpos s = some (r, s') ∧
        Delivered write accepted s₀ buf r s' := by
  intro fuel
  induction fuel with
  | zero =>
    intro bufpos s hfuel
    exact absurd hfuel (Nat.not_lt_zero _)
  | succ fuel ih =>
    intro bufpos s hfuel hpos hacc
    have hcount := h.count s (buf.drop bufpos)
    have htaken := h.taken s (buf.drop bufpos)
    have hfailed := h.failed s (buf.drop bufpos)
    rw [iowriteLoop]
    generalize hcall : write s (buf.drop bufpos) = x at hcount htaken hfailed ⊢
    obtain ⟨n, s1⟩ := x
    dsimp only at hcount htaken hfailed ⊢
    rw [List.length_drop] at hcount
    rcases lt_trichotomy n 0 with hneg | rfl | hn
    · obtain ⟨k, hk⟩ := hfailed hneg
      refine ⟨n, s1, ?_, by omega, fun hnn => by omega, fun hnn => by omega, fun _ => ⟨bufpos + k, ?_⟩⟩
      · rw [if_pos hneg.le, if_pos hneg]
      · rw [hk, hacc, List.append_assoc, take_append_piece]
    · refine ⟨bufpos, s1, by simp, by omega, fun _ => ?_, fun _ _ => ⟨s, ?_⟩, fun hneg => by omega⟩
      · rw [htaken le_rfl, hacc]
        simp
      · simpa using hcall
    · obtain ⟨k, rfl⟩ := Int.eq_ofNat_of_zero_le hn.le
      have hacc1 : accepted s1 = accepted s₀ ++ buf.take (bufpos + k) := by
        rw [htaken hn.le, hacc, List.append_assoc, Int.toNat_natCast, take_append_piece]
      rw [if_neg (by omega), Int.toNat_natCast]
      by_cases hmore : bufpos + k < buf.length
      · rw [if_pos hmore]
        exact ih (by omega) hmore.le hacc1
      · rw [if_neg hmore]
        refine ⟨_, s1, rfl, by omega, fun _ => ?_, fun _ hlt => ?_, fun hneg => by omega⟩
        · rw [hacc1]
          rfl
        · exact absurd hlt (by omega)

/-- `iowrite` delivers a prefix of the buffer, once and in order. -/
theorem iowrite_delivers (e : Iointf σ) (hwrite : e.write = some write) (h : Accepts write accepted)
    (s : σ) (buf : List UInt8) {len : Int} (hnn : 0 ≤ len) (hlen : len ≤ buf.length) :
    ∃ r s', e.iowrite s buf len = some (r, s') ∧
      Delivered write accepted s (buf.take len.toNat) r s' := by
  have htake : (buf.take len.toNat).length = len.toNat := by
    rw [List.length_take]
    omega
  rw [iowrite, hwrite]
  dsimp only
  rw [if_neg (by omega)]
  exact iowriteLoop_delivers h (by omega) (Nat.zero_le _) (by simp)

/-- An endpoint that takes at most two bytes at a time, and four in all. -/
def twoByTwo : Iointf (List UInt8) where
  cntl := none
  read := none
  write := some fun s xs => ((xs.take (min 2 (4 - s.length))).length, s ++ xs.take (min 2 (4 - s.length)))
  readat := none
  writeat := none

theorem iowrite_delivers_twoByTwo : twoByTwo.iowrite [] [1, 2, 3, 4, 5] 5 = some (4, [1, 2, 3, 4]) ∧
    ∃ r s', twoByTwo.iowrite [] [1, 2, 3, 4, 5] 5 = some (r, s') ∧
      Delivered (fun s xs => (((xs.take (min 2 (4 - s.length))).length : Int),
        s ++ xs.take (min 2 (4 - s.length)))) id [] [1, 2, 3, 4, 5] r s' := by
  refine ⟨by decide, iowrite_delivers twoByTwo rfl ⟨fun s xs => ?_, fun s xs _ => ?_, fun s xs hneg => ?_⟩
    [] [1, 2, 3, 4, 5] (by decide) (by decide)⟩
  · simp
  · rw [Int.toNat_natCast, List.length_take, ← List.take_eq_take_min]
    rfl
  · exact absurd hneg (by omega)

end Iointf

end MiniOs
