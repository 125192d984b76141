import MiniOs.Virtio.Queue
import MiniOs.Io.Device
import Mathlib.Data.Fintype.Basic

/-!
# The block driver (`vioblk.c`)

`BlkPc` says before which statement of `vioblk_io` a thread is.  Assignments to the members of
one structure are one step.  `lock_acquire` and `lock_release` change the lock with interrupts
masked, so each test of the lock is one step; a thread that finds the lock taken waits and tests
again.  Threads take their steps in any order, and the device serves a published chain at any
time.

A descriptor names the header, the status byte or a buffer of the caller.  The device follows
the chain from the ring entry on, and the transfer it performs is what the header and the
descriptors say at that time.  `requests` and `served` are the history: who published which
request, and the transfers performed with the status byte of each.  `consumed` is the number of
completions that `last_used_idx` has taken note of.
-/

namespace MiniOs

/-- What a descriptor of this driver points to. -/
inductive BlkAddr where
  | null
  | hdr
  | status
  | data (addr : BitVec 64)
deriving DecidableEq

/-- `struct virtio_blk_req_hdr`. -/
structure BlkHdr where
  type : BitVec 32
  reserved : BitVec 32
  sector : BitVec 64
deriving DecidableEq

/-- `VIRTIO_BLK_T_IN`. -/
def virtioBlkTIn : BitVec 32 := 0

/-- `VIRTIO_BLK_S_OK`. -/
def virtioBlkSOk : UInt8 := 0

/-- The arguments of `vioblk_io`. -/
structure BlkCall where
  type : BitVec 32
  pos : BitVec 64
  buf : BitVec 64
  len : Int
deriving DecidableEq

/-- A transfer between the disk and a buffer. -/
structure Transfer where
  type : BitVec 32
  sector : BitVec 64
  buf : BitVec 64
  len : Nat
deriving DecidableEq

namespace BlkCall

/-- The transfer a call asks for. -/
def transfer (c : BlkCall) : Transfer := ⟨c.type, c.pos / 512, c.buf, c.len.toNat⟩

/-- The header and the three descriptors of the request. -/
def hdr (c : BlkCall) : BlkHdr := ⟨c.type, 0, c.pos / 512⟩

def desc0 : VirtqDesc BlkAddr := ⟨.hdr, 16, virtqDescFNext, 1⟩

def desc1 (c : BlkCall) : VirtqDesc BlkAddr :=
  ⟨.data c.buf, BitVec.ofInt 32 c.len,
    virtqDescFNext ||| (if c.type = virtioBlkTIn then virtqDescFWrite else 0), 2⟩

def desc2 : VirtqDesc BlkAddr := ⟨.status, 1, virtqDescFWrite, 0⟩

end BlkCall

/-- `struct vioblk_device`, the device's position in the available ring, and the history. -/
structure Vioblk (T : Type) where
  /-- `io_lock.owner` and `io_lock.count`. -/
  owner : Option T
  count : Nat
  lastUsedIdx : BitVec 16
  availIdx : BitVec 16
  availRing : Nat → BitVec 16
  usedIdx : BitVec 16
  desc : Nat → VirtqDesc BlkAddr
  hdr : BlkHdr
  status : UInt8
  devIdx : BitVec 16
  requests : List (T × Transfer)
  served : List (Transfer × UInt8)
  consumed : Nat

namespace Vioblk

variable {T : Type}

/-- The device after `vioblk_attach`, which clears it. -/
def attached : Vioblk T where
  owner := none
  count := 0
  lastUsedIdx := 0
  availIdx := 0
  availRing := fun _ => 0
  usedIdx := 0
  desc := fun _ => ⟨.null, 0, 0, 0⟩
  hdr := ⟨0, 0, 0⟩
  status := 0
  devIdx := 0
  requests := []
  served := []
  consumed := 0

/-- The transfer that a chain describes, from its first descriptor on. -/
def chain (d : Vioblk T) (head : BitVec 16) : Option Transfer :=
  let d0 := d.desc head.toNat
  let d1 := d.desc d0.next.toNat
  let d2 := d.desc d1.next.toNat
  if d0.addr = .hdr ∧ d0.flags = virtqDescFNext ∧ d1.flags &&& virtqDescFNext ≠ 0 ∧
      (d1.flags &&& virtqDescFWrite ≠ 0 ↔ d.hdr.type = virtioBlkTIn) ∧
      d2.addr = .status ∧ d2.flags = virtqDescFWrite then
    match d1.addr with
    | .data buf => some ⟨d.hdr.type, d.hdr.sector, buf, d1.len.toNat⟩
    | _ => none
  else none

/-- The device takes the next published chain, performs its transfer and reports `status`.
There is no result when no chain is published, or it is not well formed. -/
def serve (d : Vioblk T) (status : UInt8) : Option (Vioblk T) :=
  if d.devIdx = d.availIdx then none
  else (d.chain (d.availRing (d.devIdx.toNat % 3))).map fun x =>
    { d with
      status := status
      served := d.served ++ [(x, status)]
      usedIdx := d.usedIdx + 1
      devIdx := d.devIdx + 1 }

end Vioblk

/-- Before which statement of `vioblk_io` a thread is. -/
inductive BlkPc where
  /-- At the first test of `lock_acquire`, and in its loop. -/
  | acquire
  | blocked
  | setHdr
  | setStatus
  | setDesc0
  | setDesc1
  | setDesc2
  | setRing
  | publish
  /-- At the test of the loop, and in its `thread_yield`. -/
  | wait
  | yield
  /-- Before `last_used_idx` is set, and before the status is read. -/
  | ack
  | readStatus
  | release (ok : Bool)
  | ret (res : Int)
deriving DecidableEq

namespace BlkPc

/-- Between `lock_acquire` and `lock_release`. -/
def critical : BlkPc → Bool
  | .acquire | .blocked | .ret _ => false
  | _ => true

end BlkPc

/-- A call under way: its arguments, the number of requests published before it, and the number
of its own request once it is published. -/
structure BlkFrame where
  call : BlkCall
  start : Nat
  req : Option Nat
deriving DecidableEq

namespace Vioblk

variable {T : Type} [DecidableEq T]

/-- One statement of `vioblk_io` in thread `t`. -/
def statement (d : Vioblk T) (t : T) (f : BlkFrame) : BlkPc → Option (Vioblk T × BlkPc × BlkFrame)
  | .acquire =>
      if d.owner = some t then some ({ d with count := d.count + 1 }, .setHdr, f)
      else if d.owner = none then some ({ d with owner := some t, count := 1 }, .setHdr, f)
      else some (d, .blocked, f)
  | .blocked =>
      if d.owner = none then some ({ d with owner := some t, count := 1 }, .setHdr, f)
      else some (d, .blocked, f)
  | .setHdr => some ({ d with hdr := f.call.hdr }, .setStatus, f)
  | .setStatus => some ({ d with status := 0xFF }, .setDesc0, f)
  | .setDesc0 => some ({ d with desc := Function.update d.desc 0 BlkCall.desc0 }, .setDesc1, f)
  | .setDesc1 => some ({ d with desc := Function.update d.desc 1 f.call.desc1 }, .setDesc2, f)
  | .setDesc2 => some ({ d with desc := Function.update d.desc 2 BlkCall.desc2 }, .setRing, f)
  | .setRing =>
      some ({ d with availRing := Function.update d.availRing (d.availIdx.toNat % 3) 0 }, .publish, f)
  | .publish =>
      some ({ d with
        availIdx := d.availIdx + 1
        requests := d.requests ++ [(t, f.call.transfer)] }, .wait,
        { f with req := some d.requests.length })
  | .wait => some (d, if d.usedIdx = d.lastUsedIdx then .yield else .ack, f)
  | .yield => some (d, .wait, f)
  | .ack =>
      some ({ d with lastUsedIdx := d.usedIdx, consumed := d.served.length }, .readStatus, f)
  | .readStatus => some (d, .release (d.status == virtioBlkSOk), f)
  | .release ok =>
      let res := if ok then f.call.len else - EIO
      if d.owner ≠ some t then some (d, .ret res, f)
      else if 0 < d.count - 1 then some ({ d with count := d.count - 1 }, .ret res, f)
      else some ({ d with owner := none, count := d.count - 1 }, .ret res, f)
  | .ret _ => none

end Vioblk

/-- The device, and the calls under way. -/
structure BlkPort (T : Type) where
  dev : Vioblk T
  phase : T → Option (BlkPc × BlkFrame)

/-- What can happen next. -/
inductive BlkLabel (T : Type) where
  | io (t : T) (c : BlkCall)
  | run (t : T)
  | ret (t : T)
  | serve (status : UInt8)

namespace BlkPort

variable {T : Type} [DecidableEq T]

/-- The port with thread `t` at `ph`. -/
def goto (p : BlkPort T) (t : T) (ph : Option (BlkPc × BlkFrame)) : BlkPort T :=
  { p with phase := Function.update p.phase t ph }

@[simp]
theorem phase_goto_self (p : BlkPort T) (t : T) (ph : Option (BlkPc × BlkFrame)) :
    (p.goto t ph).phase t = ph :=
  Function.update_self ..

theorem phase_goto_of_ne (p : BlkPort T) {t u : T} (h : u ≠ t) (ph : Option (BlkPc × BlkFrame)) :
    (p.goto t ph).phase u = p.phase u :=
  Function.update_of_ne h _ _

/-- One step.  There is no result when the thread is not where the step begins, or the device
has nothing to serve. -/
def step (p : BlkPort T) : BlkLabel T → Option (BlkPort T)
  | .io t c =>
      match p.phase t with
      | none => some (p.goto t (some
          (if c.pos.toNat % 512 ≠ 0 ∨ c.len ≤ 0 ∨ c.len % 512 ≠ 0 then .ret (- EINVAL) else .acquire,
            ⟨c, p.dev.requests.length, none⟩)))
      | some _ => none
  | .run t =>
      match p.phase t with
      | some (pc, f) => (p.dev.statement t f pc).map fun (d, pc, f) =>
          { p.goto t (some (pc, f)) with dev := d }
      | none => none
  | .ret t =>
      match p.phase t with
      | some (.ret _, _) => some (p.goto t none)
      | _ => none
  | .serve status => (p.dev.serve status).map fun d => { p with dev := d }

/-- The states that runs reach from `vioblk_attach` by steps that satisfy `ok`. -/
inductive Run (ok : BlkLabel T → Prop) : BlkPort T → Prop where
  | attached : Run ok ⟨.attached, fun _ => none⟩
  | step {p p' : BlkPort T} (lbl : BlkLabel T) : Run ok p → ok lbl → p.step lbl = some p' → Run ok p'

end BlkPort

end MiniOs
