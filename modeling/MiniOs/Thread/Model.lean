import MiniOs.Base.Links
import MiniOs.Io.Device
import Mathlib.Algebra.BigOperators.Fin

/-!
# Threads, conditions and locks (`thread.c`)

A pointer to a `struct thread` is modelled by the index of its slot in `thrtab`, and
`thrtab` itself says which slots are taken.  The `list_next` members of all threads are
one field of the kernel, and so are the lists: the ready list and the wait list of every
condition.  Locks are numbered, and their `next` members are one field too.

An `assert` that fails, and a loop that does not end, give no result.  A function that
suspends the running thread ends in the thread that runs next, with `tp` pointing to it.
What the suspended thread does when it is resumed is not part of the function here: it is
the next code segment of the call, and the machine in `MiniOs.Thread.Machine` knows which
one that is.

Interrupts are masked while a list is changed, so an interrupt service routine runs between
these changes.  All it does to the kernel is broadcast conditions.  `conditionWait` and
`threadExit` take the conditions broadcast by interrupts in each of their unmasked windows.
-/

namespace MiniOs

/-- `NTHR`. -/
abbrev nthr : Nat := 32

/-- An index into `thrtab`, and so a pointer to a thread. -/
abbrev Tid := Fin nthr

/-- `MAIN_TID`. -/
def mainTid : Tid := 0

/-- `IDLE_TID`. -/
def idleTid : Tid := 31

def EMTHR : Int := 12

/-- `enum thread_state`. -/
inductive ThreadState where
  | uninitialized
  | waiting
  | self
  | ready
  | exited
deriving DecidableEq

/-- The conditions: `child_exit` of a thread, `cv` of a lock, and any other. -/
inductive Cond (nl : Nat) where
  | childExit (t : Tid)
  | lockCv (l : Fin nl)
  | other (c : Nat)
deriving DecidableEq

/-- The thread lists: the ready list, and the wait list of a condition. -/
inductive ListRef (nl : Nat) where
  | ready
  | wait (c : Cond nl)
deriving DecidableEq

/-- `struct thread`, less `list_next`. -/
structure Thread (nl : Nat) where
  state : ThreadState
  parent : Option Tid
  waitCond : Option (Cond nl)
  /-- The first lock this thread holds. -/
  lockList : Option (Fin nl)
deriving DecidableEq

/-- `struct lock`, less `next`. -/
structure Lock where
  owner : Option Tid
  count : Int
deriving DecidableEq

/-- The state of the thread manager, with `nl` locks. -/
structure Kernel (nl : Nat) where
  /-- The slots of `thrtab` that are not null. -/
  thrtab : Tid → Bool
  thr : Tid → Thread nl
  listNext : Tid → Option Tid
  list : ListRef nl → Ends Tid
  lock : Fin nl → Lock
  lockNext : Fin nl → Option (Fin nl)
  /-- The running thread. -/
  tp : Tid

namespace Kernel

variable {nl : Nat}

/-- The kernel with thread `t` replaced. -/
def setThr (k : Kernel nl) (t : Tid) (th : Thread nl) : Kernel nl :=
  { k with thr := Function.update k.thr t th }

/-- `set_thread_state`. -/
def setState (k : Kernel nl) (t : Tid) (st : ThreadState) : Kernel nl :=
  k.setThr t { k.thr t with state := st }

/-- The kernel with list `r` replaced. -/
def setList (k : Kernel nl) (r : ListRef nl) (q : Ends Tid) : Kernel nl :=
  { k with list := Function.update k.list r q }

/-- The kernel with lock `l` replaced. -/
def setLock (k : Kernel nl) (l : Fin nl) (lk : Lock) : Kernel nl :=
  { k with lock := Function.update k.lock l lk }

/-! ## Thread lists -/

/-- `tlinsert`. -/
def tlinsert (k : Kernel nl) (r : ListRef nl) (t : Tid) : Option (Kernel nl) :=
  (insertTail k.listNext (k.list r) t).map fun (next, q) => { k with listNext := next }.setList r q

/-- `tlremove`. -/
def tlremove (k : Kernel nl) (r : ListRef nl) : Option Tid × Kernel nl :=
  let (t, next, q) := removeHead k.listNext (k.list r)
  (t, { k with listNext := next }.setList r q)

/-! ## Scheduling -/

/-- The first part of `running_thread_suspend`: a thread that only yields goes to the end of
the ready list. -/
def requeueSelf (k : Kernel nl) : Option (Kernel nl) :=
  if (k.thr k.tp).state = .self then (k.setState k.tp .ready).tlinsert .ready k.tp else some k

/-- `running_thread_suspend`. -/
def runningThreadSuspend (k : Kernel nl) : Option (Kernel nl) := do
  let k ← k.requeueSelf
  match k.tlremove .ready with
  | (none, _) => none
  | (some next, k) => some { k.setState next .self with tp := next }

/-- `thread_yield`. -/
def threadYield (k : Kernel nl) : Option (Kernel nl) := k.runningThreadSuspend

/-! ## Conditions -/

/-- The loop of `condition_broadcast`. -/
def drainWaitList (c : Cond nl) : Nat → Kernel nl → Option (Kernel nl)
  | 0, _ => none
  | fuel + 1, k =>
      match k.tlremove (.wait c) with
      | (none, k) => some k
      | (some t, k) => do
          let k := k.setThr t { k.thr t with waitCond := none, state := .ready }
          let k ← k.tlinsert .ready t
          drainWaitList c fuel k

/-- `condition_broadcast`.  A wait list holds at most every thread. -/
def conditionBroadcast (k : Kernel nl) (c : Cond nl) : Option (Kernel nl) :=
  drainWaitList c (nthr + 1) k

/-- The broadcasts of the interrupts that arrive in one window. -/
def interrupts (k : Kernel nl) (isr : List (Cond nl)) : Option (Kernel nl) :=
  isr.foldlM conditionBroadcast k

/-- The first lines of `condition_wait`: the running thread is marked waiting. -/
def markWaiting (k : Kernel nl) (c : Cond nl) : Kernel nl :=
  { k.setThr k.tp { k.thr k.tp with state := .waiting, waitCond := some c } with
    listNext := Function.update k.listNext k.tp none }

/-- `condition_wait`, up to the switch to the next thread.  Interrupts broadcast `isr₁` before
the thread is put on the wait list, and `isr₂` before it is suspended. -/
def conditionWait (k : Kernel nl) (c : Cond nl) (isr₁ isr₂ : List (Cond nl)) :
    Option (Kernel nl) := do
  guard ((k.thr k.tp).state = .self)
  let k ← (k.markWaiting c).interrupts isr₁
  let k ← k.tlinsert (.wait c) k.tp
  let k ← k.interrupts isr₂
  k.runningThreadSuspend

/-! ## Locks -/

/-- The code of `lock_acquire` from its `while` on: the running thread waits for the lock, or
takes it.  The result tells whether it was taken. -/
def lockAcquireLoop (k : Kernel nl) (l : Fin nl) : Option (Bool × Kernel nl) :=
  if (k.lock l).owner ≠ none then do
    -- interrupts are masked since the start of lock_acquire
    let k ← k.conditionWait (.lockCv l) [] []
    return (false, k)
  else
    let k := k.setLock l { owner := some k.tp, count := 1 }
    let k := { k with lockNext := Function.update k.lockNext l (k.thr k.tp).lockList }
    return (true, k.setThr k.tp { k.thr k.tp with lockList := some l })

/-- `lock_acquire`, up to its return or its first wait. -/
def lockAcquire (k : Kernel nl) (l : Fin nl) : Option (Bool × Kernel nl) :=
  if (k.lock l).owner = some k.tp then
    return (true, k.setLock l { k.lock l with count := (k.lock l).count + 1 })
  else k.lockAcquireLoop l

/-- The part of `lock_release` that takes the lock off its owner's list and wakes the threads
that wait for it. -/
def lockFree (k : Kernel nl) (l : Fin nl) : Option (Kernel nl) := do
  let (next, head) ← unlink k.lockNext (k.thr k.tp).lockList l (nl + 1) none
  let k := k.setThr k.tp { k.thr k.tp with lockList := head }
  let k := { k with lockNext := Function.update next l none }
  let k := k.setLock l { k.lock l with owner := none }
  k.conditionBroadcast (.lockCv l)

/-- `lock_release`. -/
def lockRelease (k : Kernel nl) (l : Fin nl) : Option (Kernel nl) :=
  if (k.lock l).owner ≠ some k.tp then some k
  else
    let k := k.setLock l { k.lock l with count := (k.lock l).count - 1 }
    if 0 < (k.lock l).count then some k else k.lockFree l

/-! ## Threads -/

/-- The slot `create_thread` takes: the first free one after the main thread's. -/
def freeSlot (k : Kernel nl) : Option Tid :=
  (List.finRange nthr).find? fun t => t ≠ mainTid && !k.thrtab t

/-- What `create_thread` makes in the free slot `t`, with the state `thread_spawn` gives it. -/
def createThread (k : Kernel nl) (t : Tid) : Kernel nl :=
  { k.setThr t { state := .ready, parent := some k.tp, waitCond := none, lockList := none } with
    thrtab := Function.update k.thrtab t true }

/-- `thread_spawn`: the thread id of the child, or an error. -/
def threadSpawn (k : Kernel nl) : Option (Int × Kernel nl) :=
  match k.freeSlot with
  | none => some (-EMTHR, k)
  | some t => do
      let k ← (k.createThread t).tlinsert .ready t
      return (t.val, k.setList (.wait (.childExit t)) Ends.empty)

/-- The loop of `thread_exit` that releases the locks the thread holds. -/
def drainLocks : Nat → Kernel nl → Option (Kernel nl)
  | 0, k => if (k.thr k.tp).lockList = none then some k else none
  | fuel + 1, k =>
      match (k.thr k.tp).lockList with
      | none => some k
      | some l => (k.lockRelease l).bind (drainLocks fuel)

/-- As many turns of that loop as there are acquires to undo. -/
def lockDepth (k : Kernel nl) : Nat := ∑ l, (k.lock l).count.toNat

/-- The broadcast of `thread_exit` to the parent. -/
def signalParent (k : Kernel nl) : Option (Kernel nl) :=
  match (k.thr k.tp).parent with
  | none => some k
  | some p => k.conditionBroadcast (.childExit p)

/-- `thread_exit` of a thread other than the main one, up to the switch to the next thread.
Interrupts broadcast `isr` before the switch. -/
def threadExit (k : Kernel nl) (isr : List (Cond nl)) : Option (Kernel nl) := do
  let k ← drainLocks k.lockDepth k
  let k := k.setState k.tp .exited
  let k ← k.signalParent
  let k ← k.interrupts isr
  k.runningThreadSuspend

/-- `thread_reclaim`. -/
def threadReclaim (k : Kernel nl) (t : Tid) : Option (Kernel nl) := do
  guard (t ≠ mainTid ∧ k.thrtab t ∧ (k.thr t).state = .exited)
  let thr := fun c =>
    if c ≠ mainTid ∧ k.thrtab c ∧ (k.thr c).parent = some t
    then { k.thr c with parent := (k.thr t).parent } else k.thr c
  return { k with thr := thr, thrtab := Function.update k.thrtab t false }

/-- A child of the running thread that `thread_join(tid)` waits for. -/
def isMatch (k : Kernel nl) (tid : Int) (c : Tid) : Bool :=
  c ≠ mainTid && k.thrtab c && (k.thr c).parent = some k.tp && (tid = 0 || (c.val : Int) = tid)

/-- `thread_join`, one turn of its loop: it returns a thread id or an error, or it waits.
Interrupts broadcast `isr₁` and `isr₂` in the windows of the wait. -/
def threadJoin (k : Kernel nl) (tid : Int) (isr₁ isr₂ : List (Cond nl)) :
    Option (Option Int × Kernel nl) :=
  match (List.finRange nthr).find? fun c => k.isMatch tid c && (k.thr c).state = .exited with
  | some c => do
      let k ← k.threadReclaim c
      return (some c.val, k)
  | none =>
      if (List.finRange nthr).any (k.isMatch tid) then do
        let k ← k.conditionWait (.childExit k.tp) isr₁ isr₂
        return (none, k)
      else return (some (-EINVAL), k)

/-- The kernel after `thrmgr_init`: the main thread runs, the idle thread is ready, and every
other condition and lock is initialised and unused. -/
def init : Kernel nl where
  thrtab t := t = mainTid || t = idleTid
  thr t :=
    { state := if t = mainTid then .self else if t = idleTid then .ready else .uninitialized
      parent := if t = idleTid then some mainTid else none
      waitCond := none
      lockList := none }
  listNext _ := none
  list r := if r = .ready then ⟨some idleTid, some idleTid⟩ else Ends.empty
  lock _ := { owner := none, count := 0 }
  lockNext _ := none
  tp := mainTid

end Kernel

end MiniOs
