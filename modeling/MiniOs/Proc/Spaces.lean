import MiniOs.Proc.Descriptors
import MiniOs.Memory.Model
import MiniOs.Thread.Machine

/-!
# Processes and the active address space

`process_fork`, `process_exit` and the part of `running_thread_suspend` that switches the address
space, on top of the thread manager.  A process is named by the address of its `struct process`;
`procs` says which of these are allocated, and a freed one may be allocated again.  Using a freed
one gives no result.

Of the memory manager there is the register `satp` and, for each physical page, the address space
that has it.  Which pages a clone takes is part of its label; the trees of tables themselves are
in `MiniOs.Memory`.  `process.c` gives up the processor where it waits for a child and in
`thread_exit`; `Stage` says where a thread is in `process.c`, so that interrupts come there too.
-/

namespace MiniOs

/-- `struct process`, less `tid` and `iotab`. -/
structure Process where
  idx : Fin nproc
  mtag : Word
deriving DecidableEq

/-- Where a thread is in `process.c`. -/
inductive Stage where
  /-- Not in one of the places below. -/
  | code
  /-- In `process_fork`, about to wait on the condition until the child has started. -/
  | forking (c : Nat)
  /-- In `process_fork` without a thread for the child, in the space of the child. -/
  | undoing (child : Nat) (saved : Word)
  /-- At the start of `fork_func`. -/
  | started (c : Nat)
  /-- In `process_exit`, about to call `thread_exit`. -/
  | exiting
deriving DecidableEq

/-- The page of a root table. -/
def rootPage (mtag : Word) : BitVec 44 := pagenum (Memory.mtagToPtab mtag)

/-- The threads, the processes and the address spaces. -/
structure ProcSys (nl : Nat) where
  m : Machine nl
  /-- `proc` of the threads. -/
  proc : Tid → Option Nat
  /-- The `struct process` that are allocated; number 0 is `main_proc`. -/
  procs : Nat → Option Process
  proctab : Fin nproc → Option Nat
  mainMtag : Word
  satp : Word
  /-- The address space that has a page; none has a free page. -/
  owner : BitVec 44 → Option Word
  stage : Tid → Stage
  halted : Bool

namespace Machine

variable {nl : Nat}

/-- The segment ends in `running_thread_suspend`. -/
def suspends (m : Machine nl) : Label nl → Bool
  | .call .yield | .call (.wait ..) | .call (.exit _) => true
  | .call (.join tid isr₁ isr₂) => ((m.k.threadJoin tid isr₁ isr₂).map fun (r, _) => r.isNone) = some true
  | .call (.acquire l) => ((m.k.lockAcquire l).map fun (done, _) => !done) = some true
  | .resume isr₁ isr₂ =>
      match m.pc m.k.tp with
      | .user => false
      | .acquire l => ((m.k.lockAcquireLoop l).map fun (done, _) => !done) = some true
      | .join tid => ((m.k.threadJoin tid isr₁ isr₂).map fun (r, _) => r.isNone) = some true
  | .call .spawn | .call (.broadcast _) | .call (.release _) | .isr _ => false

end Machine

namespace ProcSys

variable {nl : Nat}

local instance : NeZero nproc := ⟨by decide⟩

/-- The running thread. -/
abbrev tp (s : ProcSys nl) : Tid := s.m.k.tp

/-! ## Address spaces -/

/-- `switch_mspace`. -/
def switchMspace (s : ProcSys nl) (mtag : Word) : ProcSys nl := { s with satp := mtag }

/-- `reset_active_mspace` gives back the pages of the space, less the root table. -/
def resetActiveMspace (s : ProcSys nl) : ProcSys nl :=
  { s with owner := fun f =>
      if s.owner f = some s.satp ∧ f ≠ rootPage s.satp then none else s.owner f }

/-- `discard_active_mspace` gives back the pages of the space and the root table. -/
def discardActiveMspace (s : ProcSys nl) : ProcSys nl :=
  { s with
    satp := s.mainMtag
    owner := fun f =>
      if s.owner f = some s.satp ∨ f = rootPage s.satp then none else s.owner f }

/-! ## Segments -/

/-- The switch to the address space of the thread that runs next, if it has a process. -/
def switchToNext (s : ProcSys nl) : Option (ProcSys nl) :=
  match s.proc s.tp with
  | none => some s
  | some q => (s.procs q).map fun p => if p.mtag ≠ 0 then s.switchMspace p.mtag else s

/-- A segment of the thread manager. -/
def segment (s : ProcSys nl) (lbl : Label nl) : Option (ProcSys nl) :=
  (s.m.step lbl).bind fun m =>
    if s.m.suspends lbl then { s with m := m }.switchToNext else some { s with m := m }

/-- The running thread goes on at `st`. -/
def goto (s : ProcSys nl) (st : Stage) : ProcSys nl :=
  { s with stage := Function.update s.stage s.tp st }

/-- The index `process_fork` takes. -/
def freeIdx (s : ProcSys nl) : Option (Fin nproc) :=
  (List.finRange nproc).find? fun i => i ≠ 0 && (s.proctab i).isNone

/-- The process that `process_fork` makes: its structure, and its address space with the root table
in page `root`. -/
def makeChild (s : ProcSys nl) (child : Nat) (idx : Fin nproc) (root : BitVec 44)
    (pages : List (BitVec 44)) : ProcSys nl :=
  let mtag := Memory.ptabToMtag (pageptr root)
  { s with
    procs := Function.update s.procs child (some ⟨idx, mtag⟩)
    owner := fun f => if f = root ∨ f ∈ pages then some mtag else s.owner f }

/-- The thread `t` that `thread_spawn` made for the process `child`. -/
def setProcess (s : ProcSys nl) (m : Machine nl) (t : Tid) (child c : Nat) : ProcSys nl :=
  { s with
    m := m
    proc := Function.update s.proc t (some child)
    stage := Function.update s.stage t (.started c) }

/-- `process_fork`, up to the wait for the child or to the switch to the space of the child that
gets no thread.  `mem` is what `kcalloc` returned, `clone` the root table and the other pages of
the space `clone_active_mspace` made, and `c` the condition on the stack. -/
def processFork (s : ProcSys nl) (mem : Option Nat) (clone : Option (BitVec 44 × List (BitVec 44)))
    (c : Nat) : Option (ProcSys nl) :=
  match s.proc s.tp, s.freeIdx, mem, clone with
  | some _, some idx, some child, some (root, pages) =>
      let s := s.makeChild child idx root pages
      (s.m.step (.call .spawn)).map fun m =>
        match s.m.k.freeSlot with
        -- the entry of the process table is null again
        | none => (s.switchMspace (Memory.ptabToMtag (pageptr root))).goto (.undoing child s.satp)
        | some t =>
            { s.setProcess m t child c with
              proctab := Function.update s.proctab idx (some child) }.goto (.forking c)
  | _, _, _, _ => some s

/-- The wait of `process_fork` for the child. -/
def forkWait (s : ProcSys nl) (c : Nat) : Option (ProcSys nl) :=
  (s.goto .code).segment (.call (.wait (.other c) [] []))

/-- The end of `process_fork` without a thread for the child. -/
def forkUndo (s : ProcSys nl) (child : Nat) (saved : Word) : ProcSys nl :=
  let s := s.resetActiveMspace.switchMspace saved
  { s with procs := Function.update s.procs child none }.goto .code

/-- `fork_func`, up to the jump to user mode. -/
def forkFunc (s : ProcSys nl) (c : Nat) : Option (ProcSys nl) :=
  (s.m.step (.call (.broadcast (.other c)))).bind fun m => ({ s with m := m }.goto .code).switchToNext

/-- `process_exit`, up to `thread_exit`. -/
def processExit (s : ProcSys nl) : Option (ProcSys nl) :=
  match s.proc s.tp with
  | none => some (s.goto .exiting)
  | some q => (s.procs q).map fun p =>
      if p.idx ≠ 0 then
        let s := s.discardActiveMspace
        { s with
          proctab := Function.update s.proctab p.idx none
          procs := Function.update s.procs q none }.goto .exiting
      else s.resetActiveMspace.goto .exiting

/-- `thread_exit`.  That of the main thread halts the system. -/
def threadExit (s : ProcSys nl) (isr : List (Cond nl)) : Option (ProcSys nl) :=
  if s.tp = mainTid then some { s with halted := true } else s.segment (.call (.exit isr))

/-! ## Runs -/

/-- What can come next: a segment of the thread manager, a page that the memory manager takes for
the active space or gives back, or a part of `process.c`. -/
inductive Act (nl : Nat) where
  | thread (lbl : Label nl)
  | take (f : BitVec 44)
  | give (f : BitVec 44)
  | fork (mem : Option Nat) (clone : Option (BitVec 44 × List (BitVec 44))) (c : Nat)
  | wait (c : Nat)
  | undo (child : Nat) (saved : Word)
  | start (c : Nat)
  | exit
  | last (isr : List (Cond nl))
deriving DecidableEq

/-- One act.  There is no result when an assertion fails or a freed process is used. -/
def step (s : ProcSys nl) : Act nl → Option (ProcSys nl)
  | .thread lbl => s.segment lbl
  | .take f => some { s with owner := Function.update s.owner f (some s.satp) }
  | .give f => some { s with owner := Function.update s.owner f none }
  | .fork mem clone c => s.processFork mem clone c
  | .wait c => s.forkWait c
  | .undo child saved => some (s.forkUndo child saved)
  | .start c => s.forkFunc c
  | .exit => s.processExit
  | .last isr => s.threadExit isr

/-- Threads are made by `process_fork` and end in `process_exit` only. -/
def plain : Label nl → Bool
  | .call .spawn | .call (.exit _) => false
  | _ => true

/-- The acts that can come next. -/
def Enabled (s : ProcSys nl) : Act nl → Prop
  | .thread (.isr _) => s.halted = false
  | .thread lbl => s.halted = false ∧ s.stage s.tp = .code ∧ s.m.Enabled lbl ∧ plain lbl = true
  | .take f => s.halted = false ∧ s.owner f = none
  | .give f => s.halted = false ∧ s.owner f = some s.satp ∧ f ≠ rootPage s.satp
  | .fork mem clone c => s.halted = false ∧ s.stage s.tp = .code ∧ s.m.Enabled (.call .spawn) ∧
      (mem.all fun q => (s.procs q).isNone) = true ∧
      (clone.all fun x => (s.owner x.1).isNone && x.2.all fun f => (s.owner f).isNone) = true ∧
      s.m.k.list (.wait (.other c)) = Ends.empty
  | .wait c => s.halted = false ∧ s.stage s.tp = .forking c ∧
      s.m.Enabled (.call (.wait (.other c) [] []))
  | .undo child saved => s.halted = false ∧ s.stage s.tp = .undoing child saved
  | .start c => s.halted = false ∧ s.stage s.tp = .started c ∧
      s.m.Enabled (.call (.broadcast (.other c)))
  | .exit => s.halted = false ∧ s.stage s.tp = .code ∧ s.m.Enabled (.call .spawn)
  | .last isr => s.halted = false ∧ s.stage s.tp = .exiting ∧
      (s.tp ≠ mainTid → s.m.Enabled (.call (.exit isr)))

instance (s : ProcSys nl) : (a : Act nl) → Decidable (s.Enabled a)
  | .thread (.isr _) => inferInstanceAs (Decidable (_ = _))
  | .thread (.call _) | .thread (.resume _ _) => inferInstanceAs (Decidable (_ ∧ _ ∧ _ ∧ _))
  | .take _ => inferInstanceAs (Decidable (_ ∧ _))
  | .give _ => inferInstanceAs (Decidable (_ ∧ _ ∧ _))
  | .fork .. => inferInstanceAs (Decidable (_ ∧ _ ∧ _ ∧ _ ∧ _ ∧ _))
  | .wait _ | .start _ | .exit | .last _ => inferInstanceAs (Decidable (_ ∧ _ ∧ _))
  | .undo .. => inferInstanceAs (Decidable (_ ∧ _))

/-- The state after `procmgr_init`, with the root table of the main space in page `root`. -/
def boot (root : BitVec 44) : ProcSys nl :=
  let mainMtag := Memory.ptabToMtag (pageptr root)
  { m := .init
    proc := fun t => if t = mainTid then some 0 else none
    procs := fun q => if q = 0 then some ⟨0, mainMtag⟩ else none
    proctab := fun i => if i = 0 then some 0 else none
    mainMtag := mainMtag
    satp := mainMtag
    owner := fun f => if f = root then some mainMtag else none
    stage := fun _ => .code
    halted := false }

/-- The states that runs reach. -/
inductive Run (root : BitVec 44) : ProcSys nl → Prop where
  | boot : Run root (boot root)
  | step {s s' : ProcSys nl} {a : Act nl} : Run root s → s.Enabled a → s.step a = some s' →
      Run root s'

end ProcSys

end MiniOs
