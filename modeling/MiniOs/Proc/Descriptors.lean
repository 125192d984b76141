import MiniOs.Pipe.Model
import MiniOs.Ktfs.Model

/-!
# Descriptors of processes (`syscall.c`, `process.c`, `io.c`)

The system calls that install, replace, duplicate and drop references to I/O objects.  An
object is the one of a device, the one of an entry of the table of open files, or one that was
allocated (a console or an end of a pipe); the heap hands out no block twice, so allocated
objects are numbered.  A process is named by its index in `proctab`.

What a call reads outside of the tables is part of its label: what looking up a file and reading
its inode returned, whether `create_pipe` got its memory, what `clone_active_mspace` and
`thread_spawn` returned.  A failed assertion gives no result.

`opened` and `closed` count, for each object, how often its first reference was made and how
often its close function ran.
-/

namespace MiniOs

def EBUSY : Int := 2
def ENODEV : Int := 4
def EMFILE : Int := 10
def EMPROC : Int := 11

/-- `NPROC` and `PROCESS_IOMAX`. -/
abbrev nproc : Nat := 16

abbrev processIomax : Nat := 16

/-- A pointer to an I/O object. -/
inductive IoObj where
  | dev (i : Nat)
  | file (f : Fin Ktfs.ktfsMaxOpen)
  | heap (n : Nat)
deriving DecidableEq

/-- The open functions of the devices. -/
inductive OpenFn where
  /-- `uart_open`, `viorng_open` and `vioblk_open`. -/
  | exclusive
  /-- `rtc_open`. -/
  | shared
  /-- `console_open`. -/
  | console
deriving DecidableEq

/-- An entry of `devtab`.  The object of entry `i` is `dev i`. -/
structure DevEntry where
  name : String
  openfn : Option OpenFn
deriving DecidableEq

abbrev Iotab := Fin processIomax → Option IoObj

/-- The I/O objects, the tables, and the history of the objects. -/
structure IoSys where
  devtab : List DevEntry
  refcnt : IoObj → Nat
  /-- `in_use` of the entries of `g_open_files`. -/
  inUse : Fin Ktfs.ktfsMaxOpen → Bool
  /-- The number of the next object that is allocated. -/
  next : Nat
  proctab : Fin nproc → Option Iotab
  opened : IoObj → Nat
  closed : IoObj → Nat
  halted : Bool

namespace IoSys

/-- One more in a count. -/
def count (f : IoObj → Nat) (o : IoObj) : IoObj → Nat := Function.update f o (f o + 1)

/-! ## References -/

/-- `ioinit1`. -/
def ioinit1 (s : IoSys) (o : IoObj) : IoSys :=
  { s with refcnt := Function.update s.refcnt o 1, opened := count s.opened o }

/-- `ioaddref`. -/
def ioaddref (s : IoSys) (o : IoObj) : IoSys :=
  { s with
    refcnt := count s.refcnt o
    opened := if s.refcnt o = 0 then count s.opened o else s.opened }

/-- The close function of an object.  That of a file gives back its entry; a device's asserts that
there is no reference. -/
def close (s : IoSys) (o : IoObj) : IoSys :=
  let s := { s with closed := count s.closed o }
  match o with
  | .file f => { s with inUse := Function.update s.inUse f false }
  | .dev _ | .heap _ => s

/-- `ioclose`. -/
def ioclose (s : IoSys) (o : IoObj) : Option IoSys :=
  if s.refcnt o = 0 then none
  else
    let s := { s with refcnt := Function.update s.refcnt o (s.refcnt o - 1) }
    if s.refcnt o = 0 then some (s.close o) else some s

/-! ## Opening -/

/-- The loop of `open_device`: entry `i` is next, and `k` entries had the name. -/
def findDevice (name : String) (instno : Int) : List DevEntry → Nat → Int → Option (Nat × DevEntry)
  | [], _, _ => none
  | d :: ds, i, k =>
      if d.name = name then
        if k = instno then some (i, d) else findDevice name instno ds (i + 1) (k + 1)
      else findDevice name instno ds (i + 1) k

/-- `open_device`. -/
def openDevice (s : IoSys) (name : String) (instno : Int) : Except Int (IoObj × IoSys) :=
  match findDevice name instno s.devtab 0 0 with
  | none => .error (-ENODEV)
  | some (i, d) =>
      match d.openfn with
      | none => .error (-ENOTSUP)
      | some .exclusive =>
          if s.refcnt (.dev i) ≠ 0 then .error (-EBUSY) else .ok (.dev i, s.ioaddref (.dev i))
      | some .shared => .ok (.dev i, s.ioaddref (.dev i))
      | some .console => .ok (.heap s.next, { s.ioinit1 (.heap s.next) with next := s.next + 1 })

/-- `ktfs_open`, when looking up the name gives `found` and reading the inode gives `read`. -/
def fsopen (s : IoSys) (found read : Int) : Except Int (IoObj × IoSys) :=
  if found ≠ 0 then .error found
  else
    match (List.finRange Ktfs.ktfsMaxOpen).find? fun f => !s.inUse f with
    | none => .error (-ENOMEM)
    | some f =>
        if read ≠ 0 then .error read
        else .ok (.file f, { s with inUse := Function.update s.inUse f true }.ioinit1 (.file f))

/-! ## Descriptor tables -/

/-- `valid_fd`. -/
def validFd (fd : Int) : Option (Fin processIomax) :=
  if h : 0 ≤ fd ∧ fd < processIomax then some ⟨fd.toNat, by omega⟩ else none

/-- `iotab[fd]` of process `p`. -/
def slot (s : IoSys) (p : Fin nproc) (fd : Fin processIomax) : Option IoObj :=
  (s.proctab p).bind fun tab => tab fd

/-- `iotab[fd]` of process `p` is set. -/
def setSlot (s : IoSys) (p : Fin nproc) (fd : Fin processIomax) (v : Option IoObj) : IoSys :=
  { s with
    proctab := Function.update s.proctab p ((s.proctab p).map fun tab => Function.update tab fd v) }

/-- `find_free_fd`, the first entry that is null. -/
def findFreeFd (s : IoSys) (p : Fin nproc) : Option (Fin processIomax) :=
  (List.finRange processIomax).find? fun i => (s.slot p i).isNone

/-- The reference in `iotab[fd]`, if there is one, is dropped. -/
def closeSlot (s : IoSys) (p : Fin nproc) (fd : Fin processIomax) : Option IoSys :=
  match s.slot p fd with
  | none => some s
  | some o => (s.ioclose o).map fun s => s.setSlot p fd none

/-- `install_io`. -/
def installIo (s : IoSys) (p : Fin nproc) (fd : Int) (o : IoObj) : Option (Int × IoSys) :=
  match validFd fd with
  | none => some (-EINVAL, s)
  | some i => (s.closeSlot p i).map fun s => (0, s.setSlot p i (some o))

/-- The rest of `sysdevopen` and `sysfsopen`, when the open returned object `o`. -/
def installOpened (s : IoSys) (p : Fin nproc) (fd : Int) (o : IoObj) : Option (Int × IoSys) :=
  let install (fd : Int) := do
    let (rc, s) ← s.installIo p fd o
    if rc ≠ 0 then
      let s ← s.ioclose o
      return (rc, s)
    else return (fd, s)
  if fd < 0 then
    match s.findFreeFd p with
    | none => (s.ioclose o).map fun s => (-EMFILE, s)
    | some i => install i.val
  else install fd

/-- `sysdevopen`. -/
def sysdevopen (s : IoSys) (p : Fin nproc) (fd : Int) (name : Option String) (instno : Int) :
    Option (Int × IoSys) :=
  match name with
  | none => some (-EINVAL, s)
  | some name =>
      match s.openDevice name instno with
      | .error rc => some (rc, s)
      | .ok (o, s) => s.installOpened p fd o

/-- `sysfsopen`.  The name matters only for what the look-up gives. -/
def sysfsopen (s : IoSys) (p : Fin nproc) (fd : Int) (named : Bool) (found read : Int) :
    Option (Int × IoSys) :=
  if !named then some (-EINVAL, s)
  else
    match s.fsopen found read with
    | .error rc => some (rc, s)
    | .ok (o, s) => s.installOpened p fd o

/-- `sysclose`. -/
def sysclose (s : IoSys) (p : Fin nproc) (fd : Int) : Option (Int × IoSys) :=
  match validFd fd with
  | none => some (-EINVAL, s)
  | some i =>
      match s.slot p i with
      | none => some (-EINVAL, s)
      | some _ => (s.closeSlot p i).map fun s => (0, s)

/-- `sysiodup`. -/
def sysiodup (s : IoSys) (p : Fin nproc) (oldfd newfd : Int) : Option (Int × IoSys) :=
  match validFd oldfd with
  | none => some (-EBADFD, s)
  | some old =>
      match s.slot p old with
      | none => some (-EBADFD, s)
      | some _ =>
          let dup (new : Fin processIomax) :=
            if old = new then some ((new.val : Int), s)
            else do
              let s ← s.closeSlot p new
              let o ← s.slot p old
              return ((new.val : Int), (s.ioaddref o).setSlot p new (some o))
          if newfd < 0 then
            match s.findFreeFd p with
            | none => some (-EMFILE, s)
            | some new => dup new
          else
            match validFd newfd with
            | none => some (-EBADFD, s)
            | some new => dup new

/-- The slot `syspipe` takes for an end: the one asked for, if it is valid and free, or the first
free one but `other`. -/
def pipeSlot (s : IoSys) (p : Fin nproc) (fd : Int) (other : Option (Fin processIomax)) :
    Except Int (Fin processIomax) :=
  if fd < 0 then
    match (List.finRange processIomax).find? fun i => some i ≠ other && (s.slot p i).isNone with
    | none => .error (-EMFILE)
    | some i => .ok i
  else
    match validFd fd with
    | none => .error (-EBADFD)
    | some i => if (s.slot p i).isSome then .error (-EBADFD) else .ok i

/-- `create_pipe`, when there is memory: the two ends. -/
def createPipe (s : IoSys) : IoObj × IoObj × IoSys :=
  let w := IoObj.heap s.next
  let r := IoObj.heap (s.next + 1)
  (w, r, { (s.ioinit1 w).ioinit1 r with next := s.next + 2 })

/-- `syspipe`, with the two numbers its arguments point to: the result, and what is stored there
on success. -/
def syspipe (s : IoSys) (p : Fin nproc) (fds : Option (Int × Int)) (mem : Bool) :
    Int × Option (Int × Int) × IoSys :=
  match fds with
  | none => (-EINVAL, none, s)
  | some (wfd, rfd) =>
      match s.pipeSlot p wfd none with
      | .error rc => (rc, none, s)
      | .ok wfd =>
          match s.pipeSlot p rfd (some wfd) with
          | .error rc => (rc, none, s)
          | .ok rfd =>
              if wfd = rfd then (-EBADFD, none, s)
              else if !mem then (-ENOMEM, none, s)
              else
                let (w, r, s) := s.createPipe
                (0, some (wfd.val, rfd.val), (s.setSlot p wfd (some w)).setSlot p rfd (some r))

/-! ## Processes -/

/-- The loop of `process_fork` that copies the table. -/
def copyTab (s : IoSys) (tab : Iotab) : IoSys :=
  (List.finRange processIomax).foldl (fun s i =>
    match tab i with
    | none => s
    | some o => s.ioaddref o) s

/-- The loop of `process_fork` that undoes it. -/
def closeTab (s : IoSys) (tab : Iotab) : Option IoSys :=
  (List.finRange processIomax).foldlM (fun s i =>
    match tab i with
    | none => some s
    | some o => s.ioclose o) s

/-- `process_fork`, up to the wait for the child.  `clone` says whether `clone_active_mspace` gave a
tag, and `tid` is what `thread_spawn` returned. -/
def processFork (s : IoSys) (p : Fin nproc) (clone : Bool) (tid : Int) : Option (Int × IoSys) :=
  match s.proctab p with
  | none => some (-EINVAL, s)
  | some tab =>
      match (List.finRange nproc).find? fun i => i ≠ 0 && (s.proctab i).isNone with
      | none => some (-EMPROC, s)
      | some idx =>
          let s := s.copyTab tab
          if !clone then (s.closeTab tab).map fun s => (-ENOMEM, s)
          else
            let s := { s with proctab := Function.update s.proctab idx (some tab) }
            if tid ≤ 0 then
              ({ s with proctab := Function.update s.proctab idx none }.closeTab tab).map
                fun s => (-EMTHR, s)
            else some (tid, s)

/-- `process_exit`.  The process at index 0 is the main thread's, whose exit halts the system. -/
def processExit (s : IoSys) (p : Fin nproc) : Option IoSys :=
  ((List.finRange processIomax).foldlM (fun (s : IoSys) i => s.closeSlot p i) s).map fun s =>
    if p ≠ 0 then { s with proctab := Function.update s.proctab p none } else { s with halted := true }

/-! ## Runs -/

/-- The system calls. -/
inductive IoCall where
  | devopen (fd : Int) (name : Option String) (instno : Int)
  | fsopen (fd : Int) (named : Bool) (found read : Int)
  | close (fd : Int)
  | iodup (oldfd newfd : Int)
  | pipe (fds : Option (Int × Int)) (mem : Bool)
  | fork (clone : Bool) (tid : Int)
  | exit
deriving DecidableEq

/-- A call by process `p`: the result and the new state.  An exit does not return. -/
def step (s : IoSys) (p : Fin nproc) : IoCall → Option (Int × IoSys)
  | .devopen fd name instno => s.sysdevopen p fd name instno
  | .fsopen fd named found read => s.sysfsopen p fd named found read
  | .close fd => s.sysclose p fd
  | .iodup oldfd newfd => s.sysiodup p oldfd newfd
  | .pipe fds mem =>
      let (rc, _, s) := s.syspipe p fds mem
      some (rc, s)
  | .fork clone tid => s.processFork p clone tid
  | .exit => (s.processExit p).map fun s => (0, s)

/-- The system runs, the process is there, and an error of the file system is a negative number. -/
def Enabled (s : IoSys) (p : Fin nproc) : IoCall → Prop
  | .fsopen _ _ found read =>
      s.halted = false ∧ (s.proctab p).isSome = true ∧ found ≤ 0 ∧ read ≤ 0
  | _ => s.halted = false ∧ (s.proctab p).isSome = true

/-- The references the kernel itself holds: the disk that is mounted, device `blk`, and the file of
the first program. -/
def kernelRefs (blk : Nat) (o : IoObj) : Nat := if o = .dev blk ∨ o = .file 0 then 1 else 0

/-- The state when the first program starts: its first three descriptors are the console. -/
def boot (devtab : List DevEntry) (blk : Nat) : IoSys where
  devtab := devtab
  refcnt o := kernelRefs blk o + if o = .heap 0 then 3 else 0
  inUse f := f = 0
  next := 1
  proctab p := if p = 0 then some fun fd => if fd.val < 3 then some (.heap 0) else none else none
  opened o := if o = .dev blk ∨ o = .file 0 ∨ o = .heap 0 then 1 else 0
  closed _ := 0
  halted := false

/-- The states that sequences of system calls reach. -/
inductive Run (devtab : List DevEntry) (blk : Nat) : IoSys → Prop where
  | boot : Run devtab blk (boot devtab blk)
  | step {s s' : IoSys} {p : Fin nproc} {c : IoCall} {rc : Int} : Run devtab blk s → s.Enabled p c →
      s.step p c = some (rc, s') → Run devtab blk s'

end IoSys

end MiniOs
