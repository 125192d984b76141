import MiniOs.Base.Runs
import MiniOs.Io.Endpoint

/-!
# Memory I/O and seekable I/O (`io.c`)

A seekable endpoint keeps a position and a copy of the end of its backing endpoint.  The number of
bytes up to the end is the unsigned difference `end - pos`, so everything rests on `pos ≤ end`.
`SETEND` is the only call that does not look at the position: `bounded_iff` says that the requests
to the backing endpoint stay within its end as long as no `SETEND` goes below the position.
-/

namespace MiniOs

/-! ## Memory I/O -/

/-- `struct memio`: the memory from `buf` on, and the size. -/
structure Memio where
  buf : List UInt8
  size : BitVec 64
deriving DecidableEq

namespace Memio

/-- `memio_readat`; `ioreadat` has refused a negative size. -/
def readat (m : Memio) (pos : BitVec 64) (bufsz : Nat) : Int × List UInt8 × Memio :=
  if m.size ≤ pos then (0, [], m)
  else
    let avail := (m.size - pos).toNat
    let bufsz := if avail < bufsz then avail else bufsz
    (bufsz, (m.buf.drop pos.toNat).take bufsz, m)

/-- `memio_writeat`; `iowriteat` has refused a negative length. -/
def writeat (m : Memio) (pos : BitVec 64) (buf : List UInt8) : Int × Memio :=
  if m.size ≤ pos then (0, m)
  else
    let avail := (m.size - pos).toNat
    let len := if avail < buf.length then avail else buf.length
    (len, { m with
      buf := m.buf.take pos.toNat ++ buf.take len ++ m.buf.drop (pos.toNat + len) })

/-- `memio_cntl`. -/
def cntl (m : Memio) : IoCmd → Int × Option (BitVec 64) × Memio
  | .getblksz => (1, none, m)
  | .getend => (0, some m.size, m)
  | .setend ne => if m.size < ne then (-EINVAL, none, m) else (0, none, { m with size := ne })
  | _ => (-ENOTSUP, none, m)

/-- `memio_iointf`. -/
def iointf : Iointf Memio where
  cntl := some cntl
  read := none
  write := none
  readat := some readat
  writeat := some writeat

end Memio

/-! ## Seekable I/O -/

/-- `struct seekio`; `fin` is the source's `end`. -/
structure Seekio (σ : Type) where
  bkgio : σ
  pos : BitVec 64
  fin : BitVec 64
  blksz : Nat
deriving DecidableEq

namespace Seekio

variable {σ : Type} {n : Nat}

/-- `n & ~(blksz - 1)`. -/
def truncate (blksz n : Nat) : Nat := (BitVec.ofNat 64 n &&& ~~~(BitVec.ofNat 64 blksz - 1)).toNat

/-- `seekio_cntl`.  After `SETEND` the end is read from the argument again. -/
def cntl (e : Iointf σ) (sio : Seekio σ) : IoCmd → Int × Option (BitVec 64) × Seekio σ
  | .getblksz => (sio.blksz, none, sio)
  | .getpos => (0, some sio.pos, sio)
  | .setpos v =>
      if v &&& (BitVec.ofNat 64 sio.blksz - 1) ≠ 0 then (-EINVAL, none, sio)
      else if sio.fin < v then (-EINVAL, none, sio)
      else (0, none, { sio with pos := v })
  | .getend => (0, some sio.fin, sio)
  | .setend v =>
      let (result, out, bkgio) := e.ioctl sio.bkgio (.setend v)
      let sio := { sio with bkgio }
      (result, out, if result = 0 then { sio with fin := out.getD v } else sio)
  | .other cmd =>
      let (result, out, bkgio) := e.ioctl sio.bkgio (.other cmd)
      (result, out, { sio with bkgio })

/-- `seekio_read`. -/
def read (e : Iointf σ) (sio : Seekio σ) (bufsz : Nat) : Int × List UInt8 × Seekio σ :=
  let avail := (sio.fin - sio.pos).toNat
  let bufsz := if avail < bufsz then avail else bufsz
  if bufsz = 0 then (0, [], sio)
  else if bufsz < sio.blksz then (-EINVAL, [], sio)
  else
    let (rcnt, bytes, bkgio) := e.ioreadat sio.bkgio sio.pos (truncate sio.blksz bufsz)
    (rcnt, bytes, { sio with bkgio, pos := sio.pos + BitVec.ofInt 64 (if rcnt < 0 then 0 else rcnt) })

/-- The end of `seekio_write`, with the end far enough. -/
def writeHere (e : Iointf σ) (sio : Seekio σ) (buf : List UInt8) (len : Nat) : Int × Seekio σ :=
  let (wcnt, bkgio) := e.iowriteat sio.bkgio sio.pos buf len
  (wcnt, { sio with bkgio, pos := sio.pos + BitVec.ofInt 64 (if wcnt < 0 then 0 else wcnt) })

/-- `seekio_write`. -/
def write (e : Iointf σ) (sio : Seekio σ) (buf : List UInt8) : Int × Seekio σ :=
  if buf.length = 0 then (0, sio)
  else if buf.length < sio.blksz then (-EINVAL, sio)
  else
    let len := truncate sio.blksz buf.length
    if (sio.fin - sio.pos).toNat < len then
      if (BitVec.allOnes 64 - sio.pos).toNat < len then (-EINVAL, sio)
      else
        let fin := sio.pos + BitVec.ofNat 64 len
        let (result, out, bkgio) := e.ioctl sio.bkgio (.setend fin)
        let sio := { sio with bkgio }
        if result ≠ 0 then (result, sio) else writeHere e { sio with fin := out.getD fin } buf len
    else writeHere e sio buf len

/-- `seekio_readat`. -/
def readat (e : Iointf σ) (sio : Seekio σ) (pos : BitVec 64) (bufsz : Nat) :
    Int × List UInt8 × Seekio σ :=
  let (rcnt, bytes, bkgio) := e.ioreadat sio.bkgio pos bufsz
  (rcnt, bytes, { sio with bkgio })

/-- `seekio_writeat`. -/
def writeat (e : Iointf σ) (sio : Seekio σ) (pos : BitVec 64) (buf : List UInt8) : Int × Seekio σ :=
  let (wcnt, bkgio) := e.iowriteat sio.bkgio pos buf buf.length
  (wcnt, { sio with bkgio })

/-- `seekio_iointf`. -/
def iointf (e : Iointf σ) : Iointf (Seekio σ) where
  cntl := some (cntl e)
  read := some (read e)
  write := some (write e)
  readat := some (readat e)
  writeat := some (writeat e)

/-- `create_seekable_io`; `none` is a failed assertion. -/
def createSeekableIo (e : Iointf σ) (io : σ) : Option (Seekio σ) :=
  let (blksz, _, io) := e.ioctl io .getblksz
  if ¬ 0 < blksz then none
  else if BitVec.ofInt 32 blksz &&& (BitVec.ofInt 32 blksz - 1) ≠ 0 then none
  else
    match e.ioctl io .getend with
    | (result, some fin, io) =>
        if result = 0 then some { bkgio := io, pos := 0, fin, blksz := blksz.toNat } else none
    | (_, none, _) => none

theorem truncate_le (blksz n : Nat) : truncate blksz n ≤ n := by
  rw [truncate, BitVec.toNat_and, BitVec.toNat_ofNat]
  exact Nat.and_le_left.trans (Nat.mod_le _ _)

theorem truncate_one (h : n < 2 ^ 64) : truncate 1 n = n := by
  have hmask : ~~~(BitVec.ofNat 64 1 - 1) = BitVec.allOnes 64 := by decide
  rw [truncate, hmask, BitVec.and_allOnes, BitVec.toNat_ofNat, Nat.mod_eq_of_lt h]

/-! ## Sequential reads of a memory -/

section Memory

variable (m : Memio) {p : Nat}

/-- The seekable endpoint of a memory, at the position `p`. -/
def onMem (p : Nat) : Seekio Memio := ⟨m, BitVec.ofNat 64 p, m.size, 1⟩

/-- The bytes of the memory from `p` on, `n` of them or up to the end. -/
def slice (p n : Nat) : List UInt8 := ((m.buf.take m.size.toNat).drop p).take n

variable {m}

/-- A read returns what there is. -/
theorem read_onMem (hp : p ≤ m.size.toNat) (n : Nat) :
    read Memio.iointf (onMem m p) n =
      (((min n (m.size.toNat - p) : Nat) : Int), slice m p (min n (m.size.toNat - p)),
        onMem m (p + min n (m.size.toNat - p))) := by
  have hlt := m.size.isLt
  have hpos : (BitVec.ofNat 64 p).toNat = p := by
    rw [BitVec.toNat_ofNat, Nat.mod_eq_of_lt (by omega)]
  have hsub : (m.size - BitVec.ofNat 64 p).toNat = m.size.toNat - p := by
    rw [BitVec.toNat_sub_of_le (by rw [BitVec.le_def, hpos]; exact hp), hpos]
  have hmin : (if m.size.toNat - p < n then m.size.toNat - p else n) = min n (m.size.toNat - p) := by
    split <;> omega
  rw [onMem]
  unfold read
  dsimp only
  rw [hsub, hmin]
  generalize hk : min n (m.size.toNat - p) = k
  cases k with
  | zero => simp [slice, onMem]
  | succ k =>
    have havail : ¬ m.size ≤ BitVec.ofNat 64 p := by
      rw [BitVec.le_def, hpos]
      omega
    rw [if_neg (Nat.succ_ne_zero k), if_neg (by omega), truncate_one (by omega)]
    simp only [Iointf.ioreadat, Memio.iointf, Memio.readat, if_neg havail, hsub]
    rw [if_neg (by omega), Int.toNat_natCast, if_neg (by omega), if_neg (by omega), hpos, slice,
      List.drop_take, List.take_take, min_eq_left (by omega)]
    rw [onMem, BitVec.ofNat_add, BitVec.ofInt_natCast]

end Memory

/-- Reads of the sizes one after the other, with the result and the bytes of each. -/
def ioreads (e : Iointf σ) : σ → List Nat → List (Int × List UInt8) × σ
  | s, [] => ([], s)
  | s, n :: sizes =>
      let (rcnt, bytes, s) := e.ioread s n
      let (rest, s) := ioreads e s sizes
      ((rcnt, bytes) :: rest, s)

variable {m : Memio} {p : Nat}

theorem length_slice (hbuf : m.size.toNat ≤ m.buf.length) (h : p + n ≤ m.size.toNat) :
    (slice m p n).length = n := by
  rw [slice, List.length_take, List.length_drop, List.length_take]
  omega

/-- Slices one after the other are a slice. -/
theorem slice_append (a b : Nat) : slice m p a ++ slice m (p + a) b = slice m p (a + b) := by
  rw [slice, slice, slice, ← List.drop_drop, ← List.take_add]

/-- The reads of a list of sizes return a slice, piece by piece. -/
theorem ioreads_onMem (hbuf : m.size.toNat ≤ m.buf.length) (sizes : List Nat) :
    ∀ {p : Nat}, p ≤ m.size.toNat → ∃ results,
      ioreads (iointf Memio.iointf) (onMem m p) sizes =
        (results, onMem m (p + min sizes.sum (m.size.toNat - p))) ∧
      (∀ r ∈ results, r.1 = r.2.length) ∧
      results.flatMap (·.2) = slice m p (min sizes.sum (m.size.toNat - p)) := by
  induction sizes with
  | nil =>
    intro p hp
    exact ⟨[], by simp [ioreads], by simp, by simp [slice]⟩
  | cons n sizes ih =>
    intro p hp
    obtain ⟨results, hrun, hcounts, hbytes⟩ := ih (p := p + min n (m.size.toNat - p)) (by omega)
    have hk : min n (m.size.toNat - p) + min sizes.sum (m.size.toNat - (p + min n (m.size.toNat - p)))
        = min (n :: sizes).sum (m.size.toNat - p) := by
      rw [List.sum_cons]
      omega
    have hread : (iointf Memio.iointf).ioread (onMem m p) n = read Memio.iointf (onMem m p) n := by
      rw [Iointf.ioread, iointf]
      dsimp only
      rw [if_neg (by omega), Int.toNat_natCast]
    refine ⟨(((min n (m.size.toNat - p) : Nat) : Int), slice m p (min n (m.size.toNat - p))) :: results,
      ?_, ?_, ?_⟩
    · rw [ioreads, hread, read_onMem hp]
      dsimp only
      rw [hrun, Nat.add_assoc, hk]
    · intro r hr
      rcases List.mem_cons.mp hr with rfl | hr
      · rw [length_slice hbuf (by omega)]
      · exact hcounts r hr
    · rw [List.flatMap_cons, hbytes, slice_append, hk]

/-- One turn of `iofill` finds all there is, and a second one nothing more. -/
theorem iofill_onMem (hbuf : m.size.toNat ≤ m.buf.length) (hp : p ≤ m.size.toNat) (n : Nat) :
    (iointf Memio.iointf).iofill (onMem m p) n =
      some (((min n (m.size.toNat - p) : Nat) : Int), slice m p (min n (m.size.toNat - p)),
        onMem m (p + min n (m.size.toNat - p))) := by
  have hlen := length_slice (m := m) (p := p) (n := min n (m.size.toNat - p)) hbuf (by omega)
  rw [Iointf.iofill, iointf]
  dsimp only
  rw [if_neg (by omega), Int.toNat_natCast]
  cases n with
  | zero => simp [Iointf.iofillLoop, slice]
  | succ n =>
    rw [Iointf.iofillLoop, List.length_nil, if_pos (Nat.succ_pos n), Nat.sub_zero, read_onMem hp]
    generalize hk : min (n + 1) (m.size.toNat - p) = k at hlen ⊢
    dsimp only
    cases k with
    | zero => simp [slice]
    | succ k =>
      rw [if_neg (by omega), Int.toNat_natCast, List.nil_append, List.take_of_length_le hlen.le,
        Iointf.iofillLoop, hlen]
      by_cases hmore : k + 1 < n + 1
      · have hnone : min (n + 1 - (k + 1)) (m.size.toNat - (p + (k + 1))) = 0 := by omega
        rw [if_pos hmore, read_onMem (by omega), hnone]
        simp
      · rw [if_neg hmore]

/-- Reading a memory in pieces of any sizes and reading it at once give the same bytes, from the
position that `SETPOS` has set to the end, and leave the same position. -/
theorem reads_independent_of_sizes (m : Memio) (hbuf : m.size.toNat ≤ m.buf.length) (p : BitVec 64)
    (hp : p ≤ m.size) (sizes : List Nat) :
    ∃ s₀ s results s',
      createSeekableIo Memio.iointf m = some s₀ ∧
      (iointf Memio.iointf).ioseek s₀ p = (0, s) ∧
      ioreads (iointf Memio.iointf) s sizes = (results, s') ∧
      (∀ r ∈ results, r.1 = r.2.length) ∧
      results.flatMap (·.2) =
        ((m.buf.take m.size.toNat).drop p.toNat).take (min sizes.sum (m.size.toNat - p.toNat)) ∧
      s'.pos.toNat = p.toNat + min sizes.sum (m.size.toNat - p.toNat) ∧
      (iointf Memio.iointf).iofill s (sizes.sum : Nat) =
        some (((results.flatMap (·.2)).length : Int), results.flatMap (·.2), s') := by
  have hp' : p.toNat ≤ m.size.toNat := hp
  obtain ⟨results, hrun, hcounts, hbytes⟩ := ioreads_onMem hbuf sizes hp'
  have hlt := m.size.isLt
  refine ⟨onMem m 0, onMem m p.toNat, results, _, ?_, ?_, hrun, hcounts, hbytes, ?_, ?_⟩
  · simp [createSeekableIo, Iointf.ioctl, Memio.iointf, Memio.cntl, onMem]
  · have hmask : p &&& (BitVec.ofNat 64 1 - 1) = 0 := by simp
    have hnot : ¬ m.size < p := BitVec.not_lt.mpr hp
    rw [Iointf.ioseek, Iointf.ioctl, iointf]
    dsimp only [cntl, onMem]
    rw [if_neg (not_not_intro hmask), if_neg hnot, BitVec.ofNat_toNat, BitVec.setWidth_eq]
  · rw [onMem, BitVec.toNat_ofNat, Nat.mod_eq_of_lt (by omega)]
  · rw [iofill_onMem hbuf hp', hbytes, length_slice hbuf (by omega)]

theorem reads_independent_of_sizes_abc : ∃ s₀ s results s',
    createSeekableIo Memio.iointf ⟨[1, 2, 3, 4], 3⟩ = some s₀ ∧
    (iointf Memio.iointf).ioseek s₀ 1 = (0, s) ∧
    ioreads (iointf Memio.iointf) s [1, 0, 7] = (results, s') ∧
    (∀ r ∈ results, r.1 = r.2.length) ∧
    results.flatMap (·.2) = [2, 3] ∧
    s'.pos.toNat = 3 ∧
    (iointf Memio.iointf).iofill s 8 =
      some (((results.flatMap (·.2)).length : Int), results.flatMap (·.2), s') :=
  reads_independent_of_sizes ⟨[1, 2, 3, 4], 3⟩ (by decide) 1 (by decide) [1, 0, 7]

/-! ## The requests to the backing endpoint -/

/-- A request to the backing endpoint; for `SETEND`, whether it returned 0. -/
inductive Request where
  | readat (pos : BitVec 64) (bufsz : Nat)
  | writeat (pos : BitVec 64) (len : Nat)
  | setend (v : BitVec 64) (granted : Bool)
deriving DecidableEq

/-- The endpoint `e` with a record of the requests. -/
def recorded (e : Iointf σ) : Iointf (σ × List Request) where
  cntl := e.cntl.map fun cntl s cmd =>
    let (result, out, t) := cntl s.1 cmd
    match cmd with
    | .setend v => (result, out, t, s.2 ++ [.setend v (result = 0)])
    | _ => (result, out, t, s.2)
  read := none
  write := none
  readat := e.readat.map fun readat s pos bufsz =>
    let (rcnt, bytes, t) := readat s.1 pos bufsz
    (rcnt, bytes, t, s.2 ++ [.readat pos bufsz])
  writeat := e.writeat.map fun writeat s pos buf =>
    let (wcnt, t) := writeat s.1 pos buf
    (wcnt, t, s.2 ++ [.writeat pos buf.length])

/-- The end that the requests leave. -/
def endAfter : BitVec 64 → List Request → BitVec 64
  | fin, [] => fin
  | _, .setend v true :: rs => endAfter v rs
  | fin, _ :: rs => endAfter fin rs

/-- Reads and writes stay within the end there is at that point. -/
def Within : BitVec 64 → List Request → Prop
  | _, [] => True
  | fin, .readat pos n :: rs => pos.toNat + n ≤ fin.toNat ∧ Within fin rs
  | fin, .writeat pos n :: rs => pos.toNat + n ≤ fin.toNat ∧ Within fin rs
  | _, .setend v true :: rs => Within v rs
  | fin, .setend _ false :: rs => Within fin rs

theorem endAfter_append (rs : List Request) :
    ∀ {fin : BitVec 64} {ss : List Request}, endAfter fin (rs ++ ss) = endAfter (endAfter fin rs) ss := by
  induction rs with
  | nil => exact rfl
  | cons r rs ih =>
    intro fin ss
    match r with
    | .readat .. | .writeat .. | .setend _ false | .setend _ true => exact ih

theorem within_append (rs : List Request) :
    ∀ {fin : BitVec 64} {ss : List Request},
      Within fin (rs ++ ss) ↔ Within fin rs ∧ Within (endAfter fin rs) ss := by
  induction rs with
  | nil => exact fun {_ _} => (true_and _).symm.to_iff
  | cons r rs ih =>
    intro fin ss
    match r with
    | .readat .. | .writeat .. => exact (and_congr_right fun _ => ih).trans and_assoc.symm
    | .setend _ false | .setend _ true => exact ih

/-- An endpoint with the calls that a seekable one makes: it transfers at most what it is asked to,
and only reads the argument of `SETEND`. -/
structure Backing (e : Iointf σ) : Prop where
  readat : ∃ f, e.readat = some f ∧ ∀ s pos n, (f s pos n).1 ≤ n
  writeat : ∃ f, e.writeat = some f ∧ ∀ s pos buf, (f s pos buf).1 ≤ buf.length
  cntl : ∃ f, e.cntl = some f ∧ ∀ s v, (f s (.setend v)).2.1 = none

/-- The position is within the end, the record with the end `fin₀` at its start leads to the end,
and its requests are within the end. -/
structure Bounded (fin₀ : BitVec 64) (sio : Seekio (σ × List Request)) : Prop where
  pos : sio.pos ≤ sio.fin
  fin : endAfter fin₀ sio.bkgio.2 = sio.fin
  within : Within fin₀ sio.bkgio.2

/-- The calls through the seekable endpoint. -/
inductive Op where
  | ioread (bufsz : Int)
  | iowrite (buf : List UInt8) (len : Int)
  | setpos (v : BitVec 64)
  | setend (v : BitVec 64)
  | getpos
  | getend

/-- The state after a call; `iowrite` always returns (`Iointf.iowriteLoop_keeps`). -/
def step (e : Iointf σ) (sio : Seekio σ) : Op → Seekio σ
  | .ioread bufsz => ((iointf e).ioread sio bufsz).2.2
  | .iowrite buf len => (((iointf e).iowrite sio buf len).map (·.2)).getD sio
  | .setpos v => ((iointf e).ioctl sio (.setpos v)).2.2
  | .setend v => ((iointf e).ioctl sio (.setend v)).2.2
  | .getpos => ((iointf e).ioctl sio .getpos).2.2
  | .getend => ((iointf e).ioctl sio .getend).2.2

section Recorded

variable {e : Iointf σ} {fin₀ : BitVec 64} {sio : Seekio (σ × List Request)} {s : σ × List Request}
  {buf : List UInt8}

theorem Backing.ioreadat (h : Backing e) (pos : BitVec 64) (n : Nat) :
    ∃ rcnt bytes t, (recorded e).ioreadat s pos n = (rcnt, bytes, t, s.2 ++ [.readat pos n]) ∧
      rcnt ≤ n := by
  obtain ⟨f, hf, hcount⟩ := h.readat
  refine ⟨_, (f s.1 pos n).2.1, (f s.1 pos n).2.2, ?_, hcount s.1 pos n⟩
  rw [Iointf.ioreadat, recorded, hf]
  dsimp only [Option.map_some]
  rw [if_neg (by omega), Int.toNat_natCast]

theorem Backing.iowriteat (h : Backing e) (pos : BitVec 64) (hn : n ≤ buf.length) :
    ∃ wcnt t, (recorded e).iowriteat s pos buf n = (wcnt, t, s.2 ++ [.writeat pos n]) ∧ wcnt ≤ n := by
  obtain ⟨f, hf, hcount⟩ := h.writeat
  have hlen : (buf.take n).length = n := List.length_take_of_le hn
  have hle := hcount s.1 pos (buf.take n)
  rw [hlen] at hle
  refine ⟨_, (f s.1 pos (buf.take n)).2, ?_, hle⟩
  rw [Iointf.iowriteat, recorded, hf]
  dsimp only [Option.map_some]
  rw [if_neg (by omega), Int.toNat_natCast, hlen]

theorem Backing.setend_ioctl (h : Backing e) (v : BitVec 64) :
    ∃ t, (recorded e).ioctl s (.setend v) = ((e.ioctl s.1 (.setend v)).1, none, t,
      s.2 ++ [.setend v ((e.ioctl s.1 (.setend v)).1 = 0)]) := by
  obtain ⟨f, hf, hnone⟩ := h.cntl
  refine ⟨(f s.1 (.setend v)).2.2, ?_⟩
  simp only [Iointf.ioctl, recorded, hf, Option.map_some, hnone]

section

variable (h : Bounded fin₀ sio)

include h

/-- A transfer of at most `n` bytes, within the end. -/
theorem Bounded.transfer {cnt : Int} (t : σ) {r : Request}
    (hr : r = .readat sio.pos n ∨ r = .writeat sio.pos n) (hcnt : cnt ≤ n)
    (hn : sio.pos.toNat + n ≤ sio.fin.toNat) :
    Bounded fin₀ { sio with
      bkgio := (t, sio.bkgio.2 ++ [r])
      pos := sio.pos + BitVec.ofInt 64 (if cnt < 0 then 0 else cnt) } := by
  have hlt := sio.fin.isLt
  have hend : endAfter sio.fin [r] = sio.fin := by rcases hr with rfl | rfl <;> rfl
  have hwithin : Within sio.fin [r] := by rcases hr with rfl | rfl <;> exact ⟨hn, trivial⟩
  obtain ⟨k, hk, hle⟩ : ∃ k : Nat, (if cnt < 0 then 0 else cnt) = k ∧ k ≤ n :=
    ⟨cnt.toNat, by split <;> omega, by omega⟩
  refine ⟨?_, ?_, ?_⟩
  · rw [hk, BitVec.ofInt_natCast, BitVec.le_def, BitVec.toNat_add, BitVec.toNat_ofNat,
      Nat.mod_eq_of_lt (a := k) (by omega), Nat.mod_eq_of_lt (by omega)]
    exact (Nat.add_le_add_left hle _).trans hn
  · rw [endAfter_append, h.fin, hend]
  · exact (within_append _).mpr ⟨h.within, h.fin.symm ▸ hwithin⟩

variable {v : BitVec 64}

/-- The end after a `SETEND` of at least the position. -/
theorem Bounded.extend {t : σ} (hv : sio.pos ≤ v) :
    Bounded fin₀ { sio with bkgio := (t, sio.bkgio.2 ++ [.setend v true]), fin := v } :=
  ⟨hv, by rw [endAfter_append]; rfl, (within_append _).mpr ⟨h.within, trivial⟩⟩

/-- A `SETEND` that the backing endpoint refuses. -/
theorem Bounded.refused {t : σ} :
    Bounded fin₀ { sio with bkgio := (t, sio.bkgio.2 ++ [.setend v false]) } :=
  ⟨h.pos, by rw [endAfter_append, h.fin]; rfl, (within_append _).mpr ⟨h.within, trivial⟩⟩

/-- What there is up to the end. -/
theorem Bounded.avail :
    (sio.fin - sio.pos).toNat = sio.fin.toNat - sio.pos.toNat := BitVec.toNat_sub_of_le h.pos

theorem Bounded.read (hback : Backing e) (bufsz : Nat) :
    Bounded fin₀ (read (recorded e) sio bufsz).2.2 := by
  have hpos : sio.pos.toNat ≤ sio.fin.toNat := h.pos
  unfold Seekio.read
  dsimp only
  obtain ⟨k, hk, hfin⟩ : ∃ k, (if (sio.fin - sio.pos).toNat < bufsz then (sio.fin - sio.pos).toNat
      else bufsz) = k ∧ sio.pos.toNat + k ≤ sio.fin.toNat := by
    refine ⟨_, rfl, ?_⟩
    rw [h.avail]
    split <;> omega
  rw [hk]
  split
  · exact h
  · split
    · exact h
    · obtain ⟨rcnt, bytes, t, hcall, hle⟩ :=
        hback.ioreadat (s := sio.bkgio) sio.pos (truncate sio.blksz k)
      rw [hcall]
      exact h.transfer t (.inl rfl) hle ((Nat.add_le_add_left (truncate_le _ _) _).trans hfin)

theorem Bounded.writeHere (hback : Backing e) {len : Nat}
    (hlen : len ≤ buf.length) (hfin : sio.pos.toNat + len ≤ sio.fin.toNat) :
    Bounded fin₀ (writeHere (recorded e) sio buf len).2 := by
  obtain ⟨wcnt, t, hcall, hle⟩ := hback.iowriteat (s := sio.bkgio) sio.pos hlen
  rw [Seekio.writeHere, hcall]
  exact h.transfer t (.inr rfl) hle hfin

theorem Bounded.write (hback : Backing e) (buf : List UInt8) :
    Bounded fin₀ (write (recorded e) sio buf).2 := by
  have hpos : sio.pos.toNat ≤ sio.fin.toNat := h.pos
  have hlen := truncate_le sio.blksz buf.length
  unfold Seekio.write
  generalize truncate sio.blksz buf.length = len at hlen ⊢
  dsimp only
  rw [h.avail]
  split
  · exact h
  split
  · exact h
  split
  · split
    · exact h
    -- the end moves to `pos + len`, which is a 64-bit number
    · rename_i hshort hroom
      have hlt := sio.pos.isLt
      have hones : (BitVec.allOnes 64 - sio.pos).toNat = 2 ^ 64 - 1 - sio.pos.toNat := by
        rw [BitVec.toNat_sub_of_le (by rw [BitVec.le_def, BitVec.toNat_allOnes]; omega),
          BitVec.toNat_allOnes]
      rw [hones] at hroom
      have hsum : (sio.pos + BitVec.ofNat 64 len).toNat = sio.pos.toNat + len := by
        rw [BitVec.toNat_add, BitVec.toNat_ofNat, Nat.mod_eq_of_lt (a := len) (by omega),
          Nat.mod_eq_of_lt (by omega)]
      obtain ⟨t, hcall⟩ := hback.setend_ioctl (s := sio.bkgio) (sio.pos + BitVec.ofNat 64 len)
      rw [hcall]
      split
      · rename_i hres
        rw [decide_eq_false hres]
        exact h.refused
      · rename_i hres
        rw [decide_eq_true (not_not.mp hres)]
        refine (h.extend ?_).writeHere hback hlen ?_
        · exact (Nat.le_add_right _ _).trans hsum.ge
        · exact hsum.ge
  · exact h.writeHere hback hlen (by omega)

end

/-- Every call but a `SETEND` keeps the bounds, and a `SETEND` does when it fails or is not below the
position. -/
def NotBelow (e : Iointf σ) (sio : Seekio (σ × List Request)) (op : Op) : Prop :=
  ∀ v, op = .setend v → (e.ioctl sio.bkgio.1 (.setend v)).1 = 0 → sio.pos ≤ v

theorem Bounded.setpos (h : Bounded fin₀ sio) (e : Iointf (σ × List Request)) (v : BitVec 64) :
    Bounded fin₀ (cntl e sio (.setpos v)).2.2 := by
  rw [cntl]
  split
  · exact h
  · split
    · exact h
    · rename_i hnot
      exact ⟨BitVec.not_lt.mp hnot, h.fin, h.within⟩

theorem Bounded.setend_iff (h : Bounded fin₀ sio) (hback : Backing e) (v : BitVec 64) :
    Bounded fin₀ (cntl (recorded e) sio (.setend v)).2.2 ↔
      ((e.ioctl sio.bkgio.1 (.setend v)).1 = 0 → sio.pos ≤ v) := by
  obtain ⟨t, hcall⟩ := hback.setend_ioctl (s := sio.bkgio) v
  rw [cntl, hcall]
  dsimp only
  by_cases hres : (e.ioctl sio.bkgio.1 (.setend v)).1 = 0
  · rw [if_pos hres, decide_eq_true hres]
    exact ⟨fun hb _ => hb.pos, fun hv => h.extend (hv hres)⟩
  · rw [if_neg hres, decide_eq_false hres]
    exact iff_of_true h.refused fun hres' => absurd hres' hres

theorem Bounded.iowrite (h : Bounded fin₀ sio) (hback : Backing e) (buf : List UInt8) (len : Int) :
    Bounded fin₀ (step (recorded e) sio (.iowrite buf len)) := by
  rw [step, Iointf.iowrite, iointf]
  dsimp only
  split
  · exact h
  · have hwrite : ∀ sio xs, Bounded fin₀ sio → Bounded fin₀ (Seekio.write (recorded e) sio xs).2 :=
      fun _ xs hb => hb.write hback xs
    have hfuel : (buf.take len.toNat).length - 0 < len.toNat + 1 := by
      rw [List.length_take]
      omega
    obtain ⟨r, sio', hrun, h'⟩ := Iointf.iowriteLoop_keeps hwrite hfuel h
    rw [hrun]
    exact h'

theorem Bounded.step_iff (h : Bounded fin₀ sio) (hback : Backing e) (op : Op) :
    Bounded fin₀ (step (recorded e) sio op) ↔ NotBelow e sio op := by
  have hkeeps : ∀ {sio' : Seekio (σ × List Request)}, Bounded fin₀ sio' → (∀ v, op ≠ .setend v) →
      (Bounded fin₀ sio' ↔ NotBelow e sio op) :=
    fun h' hop => iff_of_true h' fun v hv => absurd hv (hop v)
  cases op with
  | ioread bufsz =>
    refine hkeeps ?_ (by simp)
    rw [step, Iointf.ioread, iointf]
    dsimp only
    split
    · exact h
    · exact h.read hback _
  | iowrite buf len => exact hkeeps (h.iowrite hback buf len) (by simp)
  | setpos v => exact hkeeps (h.setpos (recorded e) v) (by simp)
  | setend v =>
    refine (h.setend_iff hback v).trans ⟨fun hv w hw => ?_, fun hv => hv v rfl⟩
    cases hw
    exact hv
  | getpos => exact hkeeps h (by simp)
  | getend => exact hkeeps h (by simp)

/-- A new seekable endpoint starts at the beginning, with the end of the backing endpoint. -/
theorem bounded_createSeekableIo {io : σ}
    (h : createSeekableIo (recorded e) (io, []) = some sio) : Bounded sio.fin sio := by
  have hrecord : ∀ s, ((recorded e).ioctl s .getblksz).2.2.2 = s.2 ∧
      ((recorded e).ioctl s .getend).2.2.2 = s.2 := by
    intro s
    rw [Iointf.ioctl, Iointf.ioctl, recorded]
    cases e.cntl with
    | none => exact ⟨rfl, rfl⟩
    | some f => exact ⟨rfl, rfl⟩
  have hblksz := (hrecord (io, [])).1
  rw [createSeekableIo] at h
  generalize (recorded e).ioctl (io, []) .getblksz = x at h hblksz
  obtain ⟨blksz, _, s1⟩ := x
  have hend := (hrecord s1).2
  dsimp only at h hblksz
  split at h
  · cases h
  split at h
  · cases h
  generalize (recorded e).ioctl s1 .getend = y at h hend
  obtain ⟨result, out, s2⟩ := y
  cases out with
  | none => cases h
  | some fin =>
    dsimp only at h hend
    split at h
    · cases h
      have hnil : s2.2 = [] := hend.trans hblksz
      exact ⟨Nat.zero_le _, by rw [hnil]; rfl, by rw [hnil]; exact trivial⟩
    · cases h

/-- From a new seekable endpoint, the position stays within the end, and the requests to the backing
endpoint within what it has then, exactly in the runs where no `SETEND` goes below the position. -/
theorem bounded_iff (hback : Backing e) {io : σ}
    (hnew : createSeekableIo (recorded e) (io, []) = some sio) (ops : List Op) :
    Throughout (step (recorded e)) (Bounded sio.fin) sio ops ↔
      Along (step (recorded e)) (NotBelow e) sio ops := by
  have hstep : ∀ s op, True → Bounded sio.fin s → True →
      True ∧ (Bounded sio.fin (step (recorded e) s op) ↔ NotBelow e s op) :=
    fun s op _ hb _ => ⟨trivial, hb.step_iff hback op⟩
  exact throughout_iff_along hstep trivial (bounded_createSeekableIo hnew)
    (Along.of_forall (fun _ _ => trivial) _ _)

end Recorded

/-- Ten bytes of memory. -/
def tenBytes : Memio := ⟨List.replicate 10 0, 10⟩

theorem backing_memio : Backing Memio.iointf := by
  refine ⟨⟨_, rfl, fun m pos n => ?_⟩, ⟨_, rfl, fun m pos buf => ?_⟩, ⟨_, rfl, fun m v => ?_⟩⟩
  · rw [Memio.readat]
    split
    · exact Int.natCast_nonneg n
    · dsimp only
      split <;> omega
  · rw [Memio.writeat]
    split
    · exact Int.natCast_nonneg _
    · dsimp only
      split <;> omega
  · rw [Memio.cntl]
    split <;> rfl

/-- The position stays at 8 when the end is set to 4, and a read then asks for bytes from 8 on. -/
theorem setend_below_position : ∃ sio, createSeekableIo (recorded Memio.iointf) (tenBytes, []) = some sio ∧
    ¬ Throughout (step (recorded Memio.iointf)) (Bounded sio.fin) sio [.setpos 8, .setend 4, .ioread 2] ∧
    let s := [Op.setpos 8, .setend 4, .ioread 2].foldl (step (recorded Memio.iointf)) sio
    s.pos = 8 ∧ s.fin = 4 ∧ s.bkgio.2 = [.setend 4 true, .readat 8 2] := by
  refine ⟨⟨(tenBytes, []), 0, 10, 1⟩, by decide, ?_, by decide⟩
  intro h
  exact absurd h.2.2.head.pos (by decide)

theorem bounded_iff_tenBytes :
    createSeekableIo (recorded Memio.iointf) (tenBytes, []) = some ⟨(tenBytes, []), 0, 10, 1⟩ ∧
    (Throughout (step (recorded Memio.iointf)) (Bounded 10) ⟨(tenBytes, []), 0, 10, 1⟩
        [.setpos 8, .setend 9, .ioread 2] ↔
      Along (step (recorded Memio.iointf)) (NotBelow Memio.iointf) ⟨(tenBytes, []), 0, 10, 1⟩
        [.setpos 8, .setend 9, .ioread 2]) :=
  have hnew : createSeekableIo (recorded Memio.iointf) (tenBytes, []) =
      some ⟨(tenBytes, []), 0, 10, 1⟩ := by decide
  ⟨hnew, bounded_iff backing_memio hnew _⟩

end Seekio

end MiniOs
