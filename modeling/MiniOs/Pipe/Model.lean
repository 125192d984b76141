import MiniOs.Base.Ring
import MiniOs.Thread.Machine

/-!
# Pipes (`io.c`)

A pipe is a ring buffer with a lock and two conditions.  The pipe functions run in the
threads of `MiniOs.Thread.Machine`: a call is cut into the segments between the points where
it gives up the processor, which are the waits in `lock_acquire` and the `condition_wait` of a
reader that finds the pipe empty or of a writer that finds it full.

A segment takes the conditions that interrupts broadcast while it runs, window by window.  The lock and the conditions of the pipe are members of `struct pipe_state`,
which only the pipe functions use.  `kfree` is not modelled: the memory of a pipe that both
sides have closed stays as it is.
-/

namespace MiniOs

def EBADFD : Int := 9
def EPIPE : Int := 15

/-- `PIPE_BUF_SIZE`. -/
abbrev pipeBufSize : Nat := 2 ^ 12

/-- `struct pipe_state`, less the lock and the conditions. -/
structure PipeState where
  writeOpen : Bool
  readOpen : Bool
  ring : Ring UInt8 16 12

namespace PipeState

/-- The state `create_pipe` makes. -/
def create : PipeState where
  writeOpen := true
  readOpen := true
  ring := { head := 0, tail := 0, buf := fun _ => 0 }

/-- `pipe_count`. -/
def pipeCount (s : PipeState) : Nat := s.ring.count

/-- The second loop of `pipe_read`: the bytes it takes, at most `room`. -/
def readLoop : Nat → PipeState → List UInt8 × PipeState
  | 0, s => ([], s)
  | room + 1, s =>
      if 0 < s.pipeCount then
        let (bs, s') := readLoop room { s with ring := s.ring.pop }
        (s.ring.front :: bs, s')
      else ([], s)

/-- The inner loop of `pipe_write`: the bytes that are left when it ends. -/
def writeLoop : List UInt8 → PipeState → List UInt8 × PipeState
  | [], s => ([], s)
  | b :: bs, s =>
      if s.pipeCount < pipeBufSize then writeLoop bs { s with ring := s.ring.push b }
      else (b :: bs, s)

/-- One end is closed. -/
def closeEnd (s : PipeState) (isWriter : Bool) : PipeState :=
  if isWriter then { s with writeOpen := false } else { s with readOpen := false }

end PipeState

/-- The lock and the conditions of a pipe. -/
structure Pipe (nl : Nat) where
  lock : Fin nl
  notEmpty : Nat
  notFull : Nat
  ne : notEmpty ≠ notFull

/-- Where a thread goes on in a pipe function: in `lock_acquire`, or in a `condition_wait`.
A writer knows the bytes that are left and the number of bytes written. -/
inductive PipePc where
  | user
  | readLock (bufsz : Nat)
  | readWait (bufsz : Nat)
  | writeLock (data : List UInt8)
  | writeWait (data : List UInt8) (written : Nat)
  | closeLock (isWriter : Bool)
deriving DecidableEq

/-- What a call of a pipe function returns. -/
inductive PipeRet where
  | read (bufsz result : Int)
  | write (result : Int)
  | close
deriving DecidableEq

/-- What is left after a segment of a pipe function: the kernel and the pipe, where the thread
goes on or what the call returned, the bytes `pipe_read` took and the bytes `pipe_write` put. -/
structure Segment (nl : Nat) where
  k : Kernel nl
  s : PipeState
  pc : PipePc
  ret : Option PipeRet
  took : List UInt8
  put : List UInt8

/-- The interrupts in each window of a segment. -/
abbrev Windows (nl : Nat) := List (List (Cond nl))

/-- The interrupts in window `i`. -/
def Windows.window {nl : Nat} (isr : Windows nl) (i : Nat) : List (Cond nl) := isr.getD i []

namespace Pipe

variable {nl : Nat} (p : Pipe nl)

/-- The end of a call: the lock is released and the call returns. -/
def leave (isr : Windows nl) (k : Kernel nl) (s : PipeState) (ret : PipeRet)
    (took put : List UInt8) : Option (Segment nl) := do
  let k ← k.interrupts (Windows.window isr 0)
  let k ← k.lockRelease p.lock
  return { k := k, s := s, pc := .user, ret := some ret, took := took, put := put }

/-- `pipe_read` from its first loop on. -/
def readBody (isr : Windows nl) (bufsz : Nat) (k : Kernel nl) (s : PipeState) :
    Option (Segment nl) :=
  if s.pipeCount = 0 ∧ s.writeOpen = true then
    (k.conditionWait (.other p.notEmpty) (Windows.window isr 1) (Windows.window isr 2)).map fun k =>
      { k := k, s := s, pc := .readWait bufsz, ret := none, took := [], put := [] }
  else
    let (bytes, s') := s.readLoop bufsz
    let k := if bytes ≠ [] then k.conditionBroadcast (.other p.notFull) else some k
    k.bind fun k => p.leave isr k s' (.read bufsz bytes.length) bytes []

/-- `pipe_write` from its outer loop on, with the bytes that are left to write.  Each turn of
the loop writes a byte, waits or returns. -/
def writeBody (isr : Windows nl) : Nat → List UInt8 → Nat → List UInt8 → Kernel nl → PipeState →
    Option (Segment nl)
  | 0, _, _, _, _, _ => none
  | fuel + 1, rest, written, put, k, s =>
      if rest = [] then p.leave isr k s (.write written) [] put
      else if s.pipeCount = pipeBufSize ∧ s.readOpen = true then
        (k.conditionWait (.other p.notFull) (Windows.window isr 1) (Windows.window isr 2)).map fun k =>
          { k := k, s := s, pc := .writeWait rest written, ret := none, took := [], put := put }
      else if s.readOpen = false then
        p.leave isr k s (.write (if 0 < written then written else -EPIPE)) [] put
      else
        let (rest', s') := s.writeLoop rest
        let now := rest.take (rest.length - rest'.length)
        (k.conditionBroadcast (.other p.notEmpty)).bind fun k =>
          (k.interrupts (Windows.window isr (fuel + 3))).bind fun k =>
            writeBody isr fuel rest' (written + now.length) (put ++ now) k s'

/-- `pipe_close` with the lock held. -/
def closeBody (isr : Windows nl) (isWriter : Bool) (k : Kernel nl) (s : PipeState) :
    Option (Segment nl) :=
  (k.conditionBroadcast (.other (if isWriter then p.notEmpty else p.notFull))).bind fun k =>
    p.leave isr k (s.closeEnd isWriter) .close [] []

/-- The code of a pipe function that follows the point `pc`. -/
def body (isr : Windows nl) (pc : PipePc) (k : Kernel nl) (s : PipeState) : Option (Segment nl) :=
  match pc with
  | .user => none
  | .readLock bufsz | .readWait bufsz => p.readBody isr bufsz k s
  | .writeLock data => p.writeBody isr (data.length + 1) data 0 [] k s
  | .writeWait data written => p.writeBody isr (data.length + 1) data written [] k s
  | .closeLock isWriter => p.closeBody isr isWriter k s

/-- The code from the result of `lock_acquire` on: the call goes on if the lock was taken. -/
def locked (isr : Windows nl) (pc : PipePc) (s : PipeState) (acquired : Option (Bool × Kernel nl)) :
    Option (Segment nl) := do
  let (done, k) ← acquired
  if done then
    let k ← k.interrupts (Windows.window isr 3)
    p.body isr pc k s
  else return { k := k, s := s, pc := pc, ret := none, took := [], put := [] }

/-- A call of the running thread. -/
inductive Op where
  /-- `pipe_read`, on the end that is the writer's or on the other one. -/
  | read (isWriter : Bool) (bufsz : Int)
  /-- `pipe_write` of the `len` bytes at `buf`; there are none if `len` is not positive. -/
  | write (isWriter : Bool) (data : List UInt8)
  | close (isWriter : Bool)

/-- A call that returns at once. -/
def fail (k : Kernel nl) (s : PipeState) (ret : PipeRet) : Segment nl :=
  { k := k, s := s, pc := .user, ret := some ret, took := [], put := [] }

/-- The first segment of a call. -/
def start (isr : Windows nl) (k : Kernel nl) (s : PipeState) : Op → Option (Segment nl)
  | .read isWriter bufsz =>
      if isWriter then some (fail k s (.read bufsz (-EBADFD)))
      else if bufsz ≤ 0 then some (fail k s (.read bufsz 0))
      else p.locked isr (.readLock bufsz.toNat) s (k.lockAcquire p.lock)
  | .write isWriter data =>
      if !isWriter then some (fail k s (.write (-EBADFD)))
      else if data = [] then some (fail k s (.write 0))
      else p.locked isr (.writeLock data) s (k.lockAcquire p.lock)
  | .close isWriter => p.locked isr (.closeLock isWriter) s (k.lockAcquire p.lock)

/-- A later segment of a call. -/
def resume (isr : Windows nl) (pc : PipePc) (k : Kernel nl) (s : PipeState) : Option (Segment nl) :=
  match pc with
  | .readLock _ | .writeLock _ | .closeLock _ => p.locked isr pc s (k.lockAcquireLoop p.lock)
  | .user | .readWait _ | .writeWait _ _ => p.body isr pc k s

/-! ## Runs -/

/-- The threads, the pipe, and the bytes that went through it. -/
structure System (nl : Nat) where
  m : Machine nl
  s : PipeState
  pc : Tid → PipePc
  /-- The bytes that calls of `pipe_write` put into the pipe, in this order. -/
  accepted : List UInt8
  /-- The bytes that calls of `pipe_read` took, in this order. -/
  delivered : List UInt8

/-- One segment: of a pipe function, or of anything else. -/
inductive Action (nl : Nat) where
  | other (lbl : Label nl)
  | start (op : Op) (isr : Windows nl)
  | resume (isr : Windows nl)

namespace System

variable {nl : Nat}

/-- A pipe is made when the thread manager has started. -/
def init : System nl where
  m := Machine.init
  s := PipeState.create
  pc _ := .user
  accepted := []
  delivered := []

/-- The state after a segment of a pipe function. -/
def after (c : System nl) (g : Segment nl) : System nl where
  m := { c.m with k := g.k }
  s := g.s
  pc := Function.update c.pc c.m.k.tp g.pc
  accepted := c.accepted ++ g.put
  delivered := c.delivered ++ g.took

/-- One segment, and what a call of a pipe function returned in it. -/
def step (p : Pipe nl) (c : System nl) : Action nl → Option (System nl × Option PipeRet)
  | .other lbl => (c.m.step lbl).map fun m => ({ c with m := m }, none)
  | .start op isr => (p.start isr c.m.k c.s op).map fun g => (c.after g, g.ret)
  | .resume isr => (p.resume isr (c.pc c.m.k.tp) c.m.k c.s).map fun g => (c.after g, g.ret)

/-- The conditions of the pipe and of its lock. -/
def Inside (p : Pipe nl) (c : Cond nl) : Prop :=
  c = .other p.notEmpty ∨ c = .other p.notFull ∨ c = .lockCv p.lock

instance (p : Pipe nl) : DecidablePred (Inside p) := fun c =>
  inferInstanceAs (Decidable (c = .other p.notEmpty ∨ c = .other p.notFull ∨ c = .lockCv p.lock))

/-- Only the pipe functions use the lock and the conditions of the pipe. -/
def Outside (p : Pipe nl) (lbl : Label nl) : Prop :=
  (∀ c ∈ Machine.conds lbl, ¬ Inside p c) ∧
    lbl ≠ .call (.acquire p.lock) ∧ lbl ≠ .call (.release p.lock)

/-- The segments that can come next. -/
def Enabled (p : Pipe nl) (c : System nl) : Action nl → Prop
  | .other (.isr cond) => ¬ Inside p cond
  | .other lbl => c.pc c.m.k.tp = .user ∧ c.m.Enabled lbl ∧ Outside p lbl
  | .start _ isr => c.pc c.m.k.tp = .user ∧ c.m.pc c.m.k.tp = .user ∧ c.m.k.tp ≠ idleTid ∧
      ∀ w ∈ isr, ∀ cond ∈ w, ¬ Inside p cond
  | .resume isr => c.pc c.m.k.tp ≠ .user ∧ ∀ w ∈ isr, ∀ cond ∈ w, ¬ Inside p cond

/-- The states reached by runs of segments that satisfy `ok`. -/
inductive Run (p : Pipe nl) (ok : System nl → Action nl → Prop) : System nl → Prop where
  | init : Run p ok init
  | step {c c' : System nl} {a : Action nl} {r : Option PipeRet} : Run p ok c → c.Enabled p a →
      ok c a → c.step p a = some (c', r) → Run p ok c'

instance (p : Pipe nl) (lbl : Label nl) : Decidable (Outside p lbl) :=
  inferInstanceAs (Decidable (_ ∧ _ ∧ _))

instance (p : Pipe nl) (c : System nl) : (a : Action nl) → Decidable (c.Enabled p a)
  | .other (.isr cond) => inferInstanceAs (Decidable (¬ Inside p cond))
  | .other (.call op) => inferInstanceAs (Decidable (_ ∧ c.m.Enabled (.call op) ∧ Outside p (.call op)))
  | .other (.resume isr₁ isr₂) => inferInstanceAs
      (Decidable (_ ∧ c.m.Enabled (.resume isr₁ isr₂) ∧ Outside p (.resume isr₁ isr₂)))
  | .start _ isr => inferInstanceAs
      (Decidable (_ ∧ _ ∧ _ ∧ ∀ w ∈ isr, ∀ cond ∈ w, ¬ Inside p cond))
  | .resume isr => inferInstanceAs (Decidable (_ ∧ ∀ w ∈ isr, ∀ cond ∈ w, ¬ Inside p cond))

/-- The state after a given run, if each of its segments can come next and satisfies `ok`. -/
def exec (p : Pipe nl) (ok : System nl → Action nl → Prop) [∀ c a, Decidable (ok c a)]
    (c : System nl) : List (Action nl) → Option (System nl)
  | [] => some c
  | a :: as =>
      if c.Enabled p a ∧ ok c a then (c.step p a).bind fun (c', _) => exec p ok c' as else none

theorem Run.exec {p : Pipe nl} {ok : System nl → Action nl → Prop} [∀ c a, Decidable (ok c a)]
    {c c' : System nl} {as : List (Action nl)} (h : Run p ok c)
    (heq : System.exec p ok c as = some c') : Run p ok c' :=
  keeps_of_run (fun _ => rfl) (fun _ _ _ => rfl) (fun h hen => h.step hen.1 hen.2) h heq

end System

end Pipe

end MiniOs
