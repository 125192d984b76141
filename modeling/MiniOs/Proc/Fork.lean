import MiniOs.Proc.Descriptors
import MiniOs.Thread.Model
import MiniOs.Heap.Requests
import MiniOs.Memory.Teardown

/-!
# A fork without a thread for the child

`process_fork` with all that it takes: an entry of the process table, memory of the heap, references
to the I/O objects, an address space and a thread.  When there is no thread it gives these back.  It
uses `reset_active_mspace` for the address space, which is meant for a space that goes on being used
and leaves its root table, so the page of that table is lost.
-/

namespace MiniOs

open Memory

/-- What `process_fork` works on. -/
structure ForkSys (nl : Nat) where
  io : IoSys
  k : Kernel nl
  mem : Memory
  heap : Heap

namespace ForkSys

variable {nl : Nat}

local instance : NeZero nproc := ⟨by decide⟩

open CType in
/-- `idx`, `tid`, `mtag` and `iotab` of `struct process`. -/
def process : List CType := [int, int, ptr, array processIomax ptr]

open CType in
/-- The fields of `struct thread`, with the 14 registers of its context first. -/
def thread : List CType :=
  [array 14 ptr, int, int, ptr, ptr, ptr, ptr, ptr, ptr, struct HeapPipe.condition, ptr, ptr]

/-- `STACK_SIZE`. -/
def stackSize : Word := 4000

/-- `thread_spawn`: the thread id of the child, or an error. -/
def threadSpawn (s : ForkSys nl) (ra : Ptr) : Option (Int × ForkSys nl) :=
  match s.k.freeSlot with
  | none => some (-EMTHR, s)
  | some _ => do
      let (_, heap, mem) ← s.heap.kcalloc s.mem 1 (CType.sizeof thread) ra
      let (_, heap, mem) ← heap.kmalloc mem stackSize ra
      let (tid, k) ← s.k.threadSpawn
      return (tid, { s with k := k, mem := mem, heap := heap })

/-- The end of `process_fork` without a thread for the child. -/
def forkUndo (s : ForkSys nl) (idx : Fin nproc) (tab : Iotab) (child : Ptr) (mtag : Word) (ra : Ptr) :
    Option (ForkSys nl) := do
  let io ← { s.io with proctab := Function.update s.io.proctab idx none }.closeTab tab
  let saved := s.mem.satp
  let mem ← (s.mem.switchMspace mtag).resetActiveMspace
  let mem := mem.switchMspace saved
  let heap ← s.heap.heapFreeActual child ra
  return { s with io := io, mem := mem, heap := heap }

/-- `process_fork` by process `p`, up to the wait for the child. -/
def processFork (s : ForkSys nl) (p : Fin nproc) (ra : Ptr) : Option (Int × ForkSys nl) :=
  match s.io.proctab p with
  | none => some (-EINVAL, s)
  | some tab =>
      match (List.finRange nproc).find? fun i => i ≠ 0 && (s.io.proctab i).isNone with
      | none => some (-EMPROC, s)
      | some idx => do
          let (child, heap, mem) ← s.heap.kcalloc s.mem 1 (CType.sizeof process) ra
          if child = 0 then return (-ENOMEM, { s with mem := mem, heap := heap })
          let io := s.io.copyTab tab
          let (mtag, mem) ← mem.cloneActiveMspace
          if mtag = 0 then
            let io ← io.closeTab tab
            let heap ← heap.heapFreeActual child ra
            return (-ENOMEM, { s with io := io, mem := mem, heap := heap })
          let io := { io with proctab := Function.update io.proctab idx (some tab) }
          let (tid, s) ← threadSpawn { s with io := io, mem := mem, heap := heap } ra
          if tid ≤ 0 then
            let s ← s.forkUndo idx tab child mtag ra
            return (-EMTHR, s)
          return (tid, s)

/-! ## What is not given back -/

/-- `clone_active_mspace` succeeds in the call, and there is no slot for a thread. -/
structure NoThread (s : ForkSys nl) (ra : Ptr) : Prop where
  full : s.k.freeSlot = none
  cloned : ∃ child heap mem mtag mem', s.heap.kcalloc s.mem 1 (CType.sizeof process) ra =
    some (child, heap, mem) ∧ mem.cloneActiveMspace = some (mtag, mem') ∧ mtag ≠ 0

/-- A failed `process_fork` changes nothing: the process table, the references, the active space
and the pages of it, and the free pages are as they were. -/
structure Unchanged (lo hi : Nat) (s : ForkSys nl) (free : Finset Nat) (s' : ForkSys nl) : Prop where
  proctab : s'.io.proctab = s.io.proctab
  refcnt : s'.io.refcnt = s.io.refcnt
  satp : s'.mem.satp = s.mem.satp
  pages : ∀ f, f ∉ free → s'.mem.entry f = s.mem.entry f
  list : ∃ cs', FreeList lo hi s'.mem cs' free

variable {s s' : ForkSys nl} {lo hi : Nat} {cs : List Ptr} {free : Finset Nat} {mtag : Word}

/-- Memory of the heap may come from a page. -/
theorem kcalloc_mem {h h' : Heap} {m m' : Memory} {nelts eltsz : Word} {ra ptr : Ptr}
    (hlist : FreeList lo hi m cs free) (hlo : 0 < lo) (hhi : hi < 2 ^ 52)
    (heq : h.kcalloc m nelts eltsz ra = some (ptr, h', m')) :
    ∃ cs' free', FreeList lo hi m' cs' free' ∧ free' ⊆ free ∧ Within free m m' := by
  rw [Heap.kcalloc, Heap.withPage] at heq
  split at heq
  case isTrue =>
    obtain ⟨⟨newpage, m1⟩, halloc, heq⟩ := Option.bind_eq_some_iff.mp heq
    obtain ⟨x, _, hpair⟩ := Option.map_eq_some_iff.mp heq
    cases hpair
    rcases hlist.allocPhysPage hlo hhi with hnull | ⟨pp, m2, cs', halloc', -, -, -, hlist', hwithin⟩
    · rw [hnull] at halloc
      cases halloc
      exact ⟨cs, free, hlist, Finset.Subset.refl _, .refl _ _⟩
    · rw [halloc'] at halloc
      cases halloc
      exact ⟨cs', _, hlist', Finset.erase_subset _ _, hwithin⟩
  case isFalse =>
    obtain ⟨x, _, hpair⟩ := Option.map_eq_some_iff.mp heq
    cases hpair
    exact ⟨cs, free, hlist, Finset.Subset.refl _, .refl _ _⟩

/-- The call gets to the end without a thread. -/
theorem processFork_undo {ra child : Ptr} {p : Fin nproc} {heap : Heap} {m1 m2 : Memory}
    (hfull : s.k.freeSlot = none)
    (hcalloc : s.heap.kcalloc s.mem 1 (CType.sizeof process) ra = some (child, heap, m1))
    (hclone : m1.cloneActiveMspace = some (mtag, m2)) (hne : mtag ≠ 0)
    (heq : s.processFork p ra = some (-EMTHR, s')) :
    ∃ io idx tab, forkUndo { s with io := io, mem := m2, heap := heap } idx tab child mtag ra =
      some s' := by
  rw [processFork] at heq
  cases htab : s.io.proctab p with
  | none =>
    rw [htab] at heq
    cases heq
  | some tab =>
    cases hidx : (List.finRange nproc).find? fun i => i ≠ 0 && (s.io.proctab i).isNone with
    | none =>
      simp only [htab, hidx] at heq
      cases heq
    | some idx =>
      simp only [htab, hidx, hcalloc, hclone, Option.bind_eq_bind, Option.bind_some, if_neg hne] at heq
      split at heq
      case isTrue => cases heq
      case isFalse =>
        rw [threadSpawn, hfull] at heq
        have hneg : -EMTHR ≤ 0 := by decide
        simp only [Option.bind_some, if_pos hneg] at heq
        obtain ⟨s'', hundo, hpair⟩ := Option.bind_eq_some_iff.mp heq
        cases hpair
        exact ⟨_, idx, tab, hundo⟩

/-- The memory after the end without a thread. -/
theorem forkUndo_mem {idx : Fin nproc} {tab : Iotab} {ra child : Ptr} {m : Memory}
    (heq : s.forkUndo idx tab child mtag ra = some s')
    (hreset : (s.mem.switchMspace mtag).resetActiveMspace = some m) :
    s'.mem = m.switchMspace s.mem.satp := by
  rw [forkUndo] at heq
  obtain ⟨io, _, heq⟩ := Option.bind_eq_some_iff.mp heq
  obtain ⟨m', hm, heq⟩ := Option.bind_eq_some_iff.mp heq
  obtain rfl : m = m' := Option.some.inj (hreset.symm.trans hm)
  obtain ⟨heap, _, heq⟩ := Option.bind_eq_some_iff.mp heq
  cases heq
  rfl

/-- A fork that finds no thread for the child does not leave things as they were. -/
theorem fork_never_neutral (hlist : FreeList lo hi s.mem cs free) (hlo : 0 < lo) (hhi : hi ≤ 2 ^ 44)
    (hclon : Clonable 0 s.mem (activeRoot s.mem) free) {ra : Ptr} (h : s.NoThread ra) (p : Fin nproc) :
    ¬ ∃ s', s.processFork p ra = some (-EMTHR, s') ∧ Unchanged lo hi s free s' := by
  rintro ⟨s', heq, hsame⟩
  obtain ⟨child, heap, m1, mtag, m2, hcalloc, hclone, hne⟩ := h.cloned
  obtain ⟨cs1, free1, hlist1, hsub1, hwithin1⟩ := kcalloc_mem hlist hlo (by omega) hcalloc
  have hclon1 : Clonable 0 m1 (activeRoot m1) free1 := by
    rw [activeRoot_congr hwithin1.satp]
    exact hclon.congr hwithin1 hsub1
  obtain ⟨io, idx, tab, hundo⟩ := processFork_undo h.full hcalloc hclone hne heq
  obtain ⟨root, cs2, free2, rfl, hcloned⟩ := cloneActiveMspace_spec hlo hhi hlist1 hclon1 hclone hne
  obtain ⟨m3, cs3, free3, hreset, hlist3, -, hmem3⟩ := hcloned.reset hlo
  have hmem : s'.mem = m3.switchMspace m1.satp := by
    rw [forkUndo_mem hundo hreset]
    show m3.switchMspace m2.satp = _
    rw [hcloned.within.satp]
  obtain ⟨cs', hlist'⟩ := hsame.list
  rw [hmem] at hlist'
  have hfree := hlist'.unique hlist3
  obtain ⟨hroot, hlost⟩ := hcloned.root_lost
  refine hlost ((hmem3 _).mp ?_)
  rw [← hfree]
  exact hsub1 hroot

/-- The state after boot with memory `m`, when all slots have threads. -/
def crowded (m : Memory) : ForkSys 0 where
  io := IoSys.boot [] 0
  k := (fun k => (k.threadSpawn.map Prod.snd).getD k)^[30] Kernel.init
  mem := m
  heap := ⟨fun _ => 0, 0x80001000, 0x80002000⟩

theorem crowded_noThread : (crowded emptySpace).NoThread 0 := by
  have hfull : (crowded emptySpace).k.freeSlot = none := by decide +kernel
  have hcloned : ((crowded emptySpace).heap.kcalloc emptySpace 1 (CType.sizeof process) 0).bind
      (fun (_, _, m) => m.cloneActiveMspace.map fun (mtag, _) => decide (mtag ≠ 0)) = some true := by
    decide +kernel
  obtain ⟨⟨child, heap, m1⟩, hcalloc, hcloned⟩ := Option.bind_eq_some_iff.mp hcloned
  obtain ⟨⟨mtag, m2⟩, hclone, hne⟩ := Option.map_eq_some_iff.mp hcloned
  exact ⟨hfull, child, heap, m1, mtag, m2, hcalloc, hclone, of_decide_eq_true hne⟩

theorem emptySpace_clonable : Clonable 0 emptySpace (activeRoot emptySpace) (Finset.Ico 5 8) := by
  rw [emptySpace_root]
  have hreach : ∀ {p f}, ownReach emptySpace 0 1 p = some f → p = [] ∧ f = 1 := by
    intro p f hf
    cases p with
    | nil => exact ⟨rfl, (Option.some.inj hf).symm⟩
    | cons i p =>
      rw [Tree.reach_none (by rw [emptySpace_entry, ownLinks_null])] at hf
      cases hf
  refine ⟨fun hf => ?_, fun {p f i} hf _ hvalid => ?_⟩
  · rw [(hreach hf).2]
    decide
  · rw [(hreach hf).2, emptySpace_entry] at hvalid
    exact absurd hvalid (by decide)

/-- A space without entries. -/
theorem fork_never_neutral_empty : (crowded emptySpace).NoThread 0 ∧
    ¬ ∃ s', (crowded emptySpace).processFork 0 0 = some (-EMTHR, s') ∧
      Unchanged 2 8 (crowded emptySpace) (Finset.Ico 5 8) s' := by
  obtain ⟨cs, htree⟩ := emptySpace_tree
  have hlist : FreeList 2 8 (crowded emptySpace).mem cs (Finset.Ico 5 8) := View.Spaces.list htree
  exact ⟨crowded_noThread, fork_never_neutral hlist (by decide) (by decide) emptySpace_clonable
    crowded_noThread 0⟩

/-- A space with page 4 at the start of user memory, and five free pages. -/
def onePage : Memory :=
  (((Memory.initChunks ⟨fun _ => 0, 0, 1⟩ 0x5000 0xC000).mapPage 0xC0000000 (pageptr 4)
    (PTE_R ||| PTE_W ||| PTE_U)).map Prod.snd).getD ⟨fun _ => 0, 0, 0⟩

/-- After the fork four of the five pages are free. -/
theorem fork_loses_page : onePage.freePhysPageCount = some 5 ∧
    ((crowded onePage).processFork 0 0).map (fun (rc, s') => (rc, s'.mem.freePhysPageCount)) =
      some (-EMTHR, some 4) := by
  decide +kernel

end ForkSys

end MiniOs
