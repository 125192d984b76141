import MiniOs.Elf.Load
import MiniOs.Memory.Access
import MiniOs.Proc.BuildStack

/-!
# Executing a program (`process_exec`)

`process_exec` works in the space of the caller: it puts an empty page in the place of the top stack
page, lets the loader write over the caller's memory, and then reads the arguments from what is left
of it.  A call that fails later unmaps the page, and that is all it takes back.

What was written over, what was mapped for the loader, and the caller's own stack page are gone by
then.
-/

namespace MiniOs

open Memory Radix MemProg

namespace Exec

open Stack Elf

variable {t : List Access} {cs1 : List Ptr} {free1 : Finset Nat}

/-! ## The call -/

/-- The flags of the stack page. -/
abbrev stackFlags : BitVec 8 := PTE_R ||| PTE_W ||| PTE_U

/-- How `process_exec` ends: it returns an error code, or it jumps to user mode with the registers
`sepc`, `sp`, `a0` and `a1`.  The blocks are what `build_stack` has copied. -/
inductive ExecEnd where
  | failed (rc : Int)
  | jump (sepc sp a0 a1 : Word) (blocks : List (List UInt8))
deriving DecidableEq

/-- The two failures behind `map_page`. -/
def giveUp (rc : Int) (m : Memory) : Option (ExecEnd × Memory) :=
  (m.unmapAndFreeRange stackTop (BitVec.ofNat 64 pageSize)).map fun m => (.failed rc, m)

/-- `process_exec`, for a thread that is a process or not, and a file or none. -/
def processExec (isProc : Bool) (exeio : Option File) (argc : BitVec 32) (argv : Word) (m : Memory) :
    Option (ExecEnd × Memory) :=
  if isProc = false then some (.failed (-EINVAL), m)
  else
    match exeio with
    | none => some (.failed (-EINVAL), m)
    | some file =>
        (m.mapZeroPage stackTop stackFlags).bind fun (done, m) =>
          if done = false then some (.failed (-ENOMEM), m)
          else
            (paged.run (storeAll (elfLoad file).writes) m).bind fun (_, m) =>
              if (elfLoad file).rc ≠ 0 then giveUp (elfLoad file).rc m
              else
                (paged.run (buildStack stackTop argc argv) m).bind fun ((stksz, blocks), m) =>
                  if stksz < 0 then giveUp stksz m
                  else
                    let sp := umemEndVma - BitVec.ofInt 64 stksz
                    some (.jump ((elfLoad file).entry.getD 0) sp (argc.signExtend 64) sp blocks, m)

/-- The address is on the top page of user memory. -/
def OnTop (va : Word) : Prop := va.toNat / pageSize = stackTop.toNat / pageSize

instance (va : Word) : Decidable (OnTop va) := inferInstanceAs (Decidable (_ = _))

theorem isUser_stackTop : IsUser stackTop := by
  constructor <;> decide

theorem onTop_stackTop : OnTop stackTop := rfl

/-! ## The loader's writes -/

/-- The write is to user memory. -/
def UserWrite (w : MemWrite) : Prop :=
  w.size = 0 ∨ umemStart ≤ w.start.toNat ∧ w.start.toNat + w.size ≤ umemEnd

/-- Each write starts behind the start of user memory, if those before it are to user memory. -/
def Starts : List MemWrite → Prop
  | [] => True
  | w :: ws => umemStart ≤ w.start.toNat ∧ (UserWrite w → Starts ws)

theorem Starts.append {ws ws' : List MemWrite} (h : Starts ws)
    (h' : (∀ w ∈ ws, UserWrite w) → Starts ws') : Starts (ws ++ ws') := by
  induction ws with
  | nil => exact h' nofun
  | cons w ws ih =>
    exact ⟨h.1, fun hw => ih (h.2 hw) fun hall => h' (List.forall_mem_cons.mpr ⟨hw, hall⟩)⟩

theorem Starts.storesFrom {ws : List MemWrite} (h : Starts ws) {Q : Prop}
    (ht : (∀ w ∈ ws, UserWrite w) → Access.StoresFrom umemStart umemEnd Q t) :
    Access.StoresFrom umemStart umemEnd Q
      ((ws.flatMap fun w => Access.storeRun w.start w.bytes) ++ t) := by
  induction ws with
  | nil => exact ht nofun
  | cons w ws ih =>
    rw [List.flatMap_cons, List.append_assoc]
    refine Access.storesFrom_run h.1 (by decide) fun hw => ?_
    have huser : UserWrite w := by
      rw [← List.length_eq_zero_iff, w.length_bytes] at hw
      exact hw.imp_right fun hend => ⟨h.1, hend⟩
    exact ih (h.2 huser) fun hall => ht (List.forall_mem_cons.mpr ⟨huser, hall⟩)

/-- The zeros of a segment start where its data ends. -/
theorem starts_loadSegment (file : File) (ph : Phdr) : Starts (loadSegment file ph).2 := by
  by_cases hch : ph.Checked
  · obtain ⟨hstart, -, hsize⟩ := hch.bounds
    by_cases hneg : 2 ^ 63 ≤ ph.filesz.toNat
    · rw [loadSegment_neg hch hneg]
      exact ⟨hstart, fun _ => trivial⟩
    have hlt : ph.filesz.toNat < 2 ^ 63 := by omega
    rcases Nat.lt_or_ge (ph.got file) ph.filesz.toNat with hshort | hge
    · rw [loadSegment_short hch hlt hshort]
      exact ⟨hstart, fun _ => trivial⟩
    have hgot : ph.got file = ph.filesz.toNat := Nat.le_antisymm (ioreadat_length_le _ _ _) hge
    rw [loadSegment_full hch hlt hgot]
    refine .append ?_ fun hcopied => ?_
    · split
      · exact ⟨hstart, fun _ => trivial⟩
      · exact trivial
    · split
      case isFalse => exact trivial
      case isTrue =>
        refine ⟨?_, fun _ => trivial⟩
        change umemStart ≤ (ph.vaddr + ph.filesz).toNat
        have hv := ph.vaddr.isLt
        have hend : ph.filesz.toNat = 0 ∨ ph.vaddr.toNat + ph.filesz.toNat ≤ umemEnd := by
          by_cases hpos : 0 < ph.filesz
          · rw [if_pos hpos] at hcopied
            have hw := hcopied _ (.head _)
            change ph.got file = 0 ∨ umemStart ≤ ph.vaddr.toNat ∧ ph.vaddr.toNat + ph.got file ≤ umemEnd at hw
            omega
          · rw [BitVec.lt_def] at hpos
            exact .inl (by simpa using hpos)
        rw [BitVec.toNat_add]
        simp only [umemStart, umemEnd] at hstart hend ⊢
        omega
  · rw [loadSegment, if_neg hch]
    exact trivial

theorem starts_elfLoad (file : File) : Starts (elfLoad file).writes := by
  rw [elfLoad_writes]
  induction reached file with
  | nil => exact trivial
  | cons ph phs ih => exact (starts_loadSegment file ph).append fun _ => ih

section Calls

variable {lo hi : Nat} {hlo : 0 < lo} {hhi : hi ≤ 2 ^ 44} {m m' m1 m2 m3 : Memory} {cs cs' : List Ptr}
  {free free' : Finset Nat} {file : File} {argc : BitVec 32} {argv : Word}

/-- What the loader does to user memory. -/
theorem loaded (h : UserPages lo hi hlo hhi m cs free)
    (hload : paged.run (storeAll (elfLoad file).writes) m = some ((), m')) :
    (∀ w ∈ (elfLoad file).writes, UserWrite w) ∧ ∃ cs' free', Touched lo hi hlo hhi m free
      ((elfLoad file).writes.flatMap fun w => Access.storeRun w.start w.bytes) m' cs' free' := by
  obtain ⟨hdoes, hsteps⟩ := ByteMachine.run_trace hload
  rw [does_storeAll.mp hdoes] at hsteps
  have hfrom := (starts_elfLoad file).storesFrom
    (Q := ∀ w ∈ (elfLoad file).writes, UserWrite w) (t := []) id
  rw [List.append_nil] at hfrom
  obtain ⟨hall, -, htouched⟩ := h.steps hfrom hsteps
  exact ⟨hall, htouched⟩

/-- What `build_stack` does to user memory. -/
theorem built {value : Int} {blocks : List (List UInt8)} (h : UserPages lo hi hlo hhi m cs free)
    (hbuild : paged.run (buildStack stackTop argc argv) m = some ((value, blocks), m')) :
    (∃ cs' free', Touched lo hi hlo hhi m free (paged.trace (buildStack stackTop argc argv) m)
        m' cs' free') ∧
      ((value = -ENOMEM ∧ blocks = [] ∧ Reads (paged.trace (buildStack stackTop argc argv) m)) ∨
        ∃ stksz : Nat, value = stksz ∧ 8 * (argc.toNat + 1) + blocks.flatten.length ≤ stksz ∧
          stksz ≤ pageSize ∧ argc.toNat < pageSize / 8 ∧ blocks.length = argc.toNat ∧
          (paged.trace (buildStack stackTop argc argv) m).filter Access.isStore =
            pageStores stackTop stksz argc.toNat blocks) := by
  obtain ⟨hdoes, hsteps⟩ := ByteMachine.run_trace hbuild
  rcases does_buildStack hdoes with ⟨hvalue, hblocks, hreads⟩ |
    ⟨stksz, hvalue, -, hvec, hpage, hargc, hlen, hstores⟩
  · have hfrom : Access.StoresFrom umemStart umemEnd True (paged.trace (buildStack stackTop argc argv) m) := by
      rw [← Access.storesFrom_filter, hreads]
      exact trivial
    exact ⟨(h.steps hfrom hsteps).2.2, .inl ⟨hvalue, hblocks, hreads⟩⟩
  · have hspace : stackTop.toNat + pageSize < 2 ^ 64 := by decide
    have hfrom := (storesFrom_pageStores hspace hpage hlen hvec).mono
      (show umemStart ≤ stackTop.toNat by decide)
    rw [← hstores, Access.storesFrom_filter] at hfrom
    obtain ⟨hfit, -, htouched⟩ := h.steps hfrom hsteps
    exact ⟨htouched, .inr ⟨stksz, hvalue, hfit, hpage, hargc, hlen, hstores⟩⟩

/-! ## A call that fails -/

/-- User memory and the free pages are as they were. -/
def Intact (lo hi : Nat) (m : Memory) (free : Finset Nat) (m' : Memory) : Prop :=
  (∀ va, IsUser va → translate m' (activeRoot m') va = translate m (activeRoot m) va) ∧
    (∀ va, IsUser va → userView m' va = userView m va) ∧ ∃ cs', FreeList lo hi m' cs' free

/-- There is a table of level 0 for the address. -/
def HasTable (m : Memory) (va : Word) : Prop :=
  ∃ t, reach (links false) m.entry 0 (activeRoot m) [vpnIndex 2 va, vpnIndex 1 va] = some t

theorem unmapAndFreeRange_page (m : Memory) (va : Word) :
    m.unmapAndFreeRange va (BitVec.ofNat 64 pageSize) = m.unmapPage va := by
  have hcount : pageCount (BitVec.ofNat 64 pageSize) = 1 := by decide
  rw [unmapAndFreeRange, hcount, rangeLoop]
  cases m.unmapPage va <;> rfl

section

variable (h : UserPages lo hi hlo hhi m cs free)

include h

/-- The page for the stack is the only one taken when there is a table for it. -/
theorem placed_free {n : BitVec 44} (hmap : m.mapZeroPage stackTop stackFlags = some (true, m1))
    (hp : Placed lo hi hlo hhi m free stackTop stackFlags true m1 cs1 free1)
    (hx : translate m1 (activeRoot m) stackTop = some ⟨0, n, leafFlags stackFlags⟩)
    (hmem : n.toNat ∈ free) (hn : n.toNat ∉ free1) (hntab : n.toNat ∉ tables (activeRoot m) m1) :
    free1 = free.erase n.toNat ↔ HasTable m stackTop := by
  constructor
  · intro heq
    by_contra hno
    have hwalk := hx
    rw [translate, if_pos isUser_stackTop.wellformed] at hwalk
    have hroot : activeRoot m1 = activeRoot m := activeRoot_congr hp.within.satp
    rw [← hroot] at hwalk
    obtain ⟨t, hreach⟩ := reach_of_level hwalk rfl
    rw [hroot] at hreach
    -- the table is new, so it was a free page and another one than the stack's
    rcases hp.more hreach with hold | hfree
    · exact hno ⟨t, hold⟩
    · have hne : t ≠ n.toNat := by
        rintro rfl
        exact hntab ⟨_, hreach⟩
      have hin : t ∈ free1 := heq ▸ Finset.mem_erase.mpr ⟨hne, hfree⟩
      exact hp.tree.kept t (by rw [hroot]; exact ⟨_, hreach⟩) hin
  · rintro ⟨t, hreach⟩
    have hne : free ≠ ∅ := Finset.ne_empty_of_mem hmem
    obtain ⟨m2, cs2, k, hmap2, -, hlist⟩ := mapZeroPage_found h.tree hreach hne
      isUser_stackTop.ne_zero isUser_stackTop.wellformed (by decide) stackFlags
    rw [hmap] at hmap2
    cases hmap2
    have heq : free1 = free.erase k := hp.tree.list.unique hlist
    obtain rfl : n.toNat = k := by
      by_contra hnk
      exact hn (heq ▸ Finset.mem_erase.mpr ⟨hnk, hmem⟩)
    exact heq

/-- A page for the stack, and another one for the table if there is none. -/
theorem placed_two (hmap : m.mapZeroPage stackTop stackFlags = some (true, m1))
    (hp : Placed lo hi hlo hhi m free stackTop stackFlags true m1 cs1 free1) :
    free ≠ ∅ ∧ ¬ (¬ HasTable m stackTop ∧ free.card = 1) := by
  obtain ⟨n, hmem, hn, hntab, -, -, hset⟩ := hp.placed rfl
  have hx1 : translate m1 (activeRoot m) stackTop = some ⟨0, n, leafFlags stackFlags⟩ := by
    rw [hset, if_pos ⟨isUser_stackTop.wellformed, rfl⟩]
  refine ⟨Finset.ne_empty_of_mem hmem, ?_⟩
  rintro ⟨hno, hcard⟩
  refine hno ((placed_free h hmap hp hx1 hmem hn hntab).mp ?_)
  obtain ⟨k, rfl⟩ := Finset.card_eq_one.mp hcard
  obtain rfl := Finset.mem_singleton.mp hmem
  rw [Finset.erase_singleton, Finset.eq_empty_iff_forall_notMem]
  intro f hf
  rw [Finset.mem_singleton.mp (hp.subset hf)] at hf
  exact hn hf

/-- No page was mapped for the stack. -/
theorem unplaced_intact_iff (hmap : m.mapZeroPage stackTop stackFlags = some (false, m'))
    (hp : Placed lo hi hlo hhi m free stackTop stackFlags false m' cs' free') :
    (HasTable m stackTop → free = ∅) ∧ (Intact lo hi m free m' ↔ free = ∅ ∨ free.card = 1) := by
  have hroot : activeRoot m' = activeRoot m := activeRoot_congr hp.within.satp
  have hsame : Intact lo hi m free m' ↔ free' = free := by
    constructor
    · rintro ⟨-, -, cs'', hlist⟩
      exact (hlist.unique hp.tree.list).symm
    · rintro rfl
      refine ⟨fun va _ => by rw [hroot, hp.failed rfl], fun va hva => ?_, cs', hp.tree.list⟩
      rw [userView, userView, hroot, hp.failed rfl]
      cases hx : translate m (activeRoot m) va with
      | none => rfl
      | some x =>
        obtain ⟨-, hfree, htab⟩ := h.held hva hx
        rw [Option.map_some, Option.map_some, hp.within.word]
        rw [physWord_div, physPage_small (h.small hva hx)]
        exact fun hin => hin.elim hfree htab
  have hstarved := mapZeroPage_starved h.tree (fun x hx => h.small isUser_stackTop hx)
    isUser_stackTop.ne_zero isUser_stackTop.wellformed (by decide) hmap hp.tree.list
  constructor
  · rintro ⟨t, hreach⟩
    by_contra hne
    obtain ⟨m2, -, -, hmap2, -⟩ := mapZeroPage_found h.tree hreach hne
      isUser_stackTop.ne_zero isUser_stackTop.wellformed (by decide) stackFlags
    rw [hmap] at hmap2
    cases hmap2
  · rw [hsame]
    rcases hstarved with rfl | ⟨n, hn, rfl⟩
    · exact iff_of_true (Finset.subset_empty.mp hp.subset) (.inl rfl)
    · constructor
      · rintro rfl
        exact .inr (Finset.card_singleton n)
      · rintro (rfl | hcard)
        · cases hn
        · obtain ⟨k, rfl⟩ := Finset.card_eq_one.mp hcard
          rw [Finset.mem_singleton.mp hn]

/-- The stack page was mapped and taken back, and the accesses made in between. -/
theorem giveUp_intact_iff {cs3 : List Ptr} {free3 : Finset Nat} {rc : Int} {e : ExecEnd}
    (hmap : m.mapZeroPage stackTop stackFlags = some (true, m1))
    (hp : Placed lo hi hlo hhi m free stackTop stackFlags true m1 cs1 free1)
    (ht : Touched lo hi hlo hhi m1 free1 t m3 cs3 free3) (hgive : giveUp rc m3 = some (e, m')) :
    Intact lo hi m free m' ↔
      HasTable m stackTop ∧ translate m (activeRoot m) stackTop = none ∧
        (∀ a ∈ t, IsUser a.addr → ¬ OnTop a.addr → ∃ x, translate m (activeRoot m) a.addr = some x) ∧
        ∀ va, IsUser va → ¬ OnTop va → Access.replay t (userView m) va = userView m va := by
  obtain ⟨hpages1, hview1⟩ := h.placed isUser_stackTop (by decide) hp
  obtain ⟨n, hmem, hn, hntab, -, -, hset⟩ := hp.placed rfl
  have hroot1 : activeRoot m1 = activeRoot m := activeRoot_congr hp.within.satp
  have hx1 : translate m1 (activeRoot m) stackTop = some ⟨0, n, leafFlags stackFlags⟩ := by
    rw [hset, if_pos ⟨isUser_stackTop.wellformed, rfl⟩]
  have hoff1 : ∀ {va}, ¬ OnTop va → translate m1 (activeRoot m) va = translate m (activeRoot m) va := by
    intro va hva
    rw [hset, if_neg fun hand => hva hand.2]
  have htop : ∀ {va}, IsUser va → OnTop va → ∀ m : Memory, ∀ root,
      translate m root va = translate m root stackTop := fun hva hon m root =>
    translate_samePage hva isUser_stackTop hon m root
  have hroot3 : activeRoot m3 = activeRoot m := ht.root.trans hroot1
  have hx3 : translate m3 (activeRoot m3) stackTop = some ⟨0, n, leafFlags stackFlags⟩ := by
    rw [hroot3, ← hroot1]
    exact ht.keep (by rw [hroot1]; exact hx1)
  obtain ⟨m4, cs4, hunmap, hsatp, hpages, htr, hview⟩ := ht.pages.unmap isUser_stackTop hx3
  rw [giveUp, unmapAndFreeRange_page, hunmap, Option.map_some] at hgive
  cases hgive
  rw [hroot3] at htr
  have htr' : ∀ {va}, IsUser va → translate m' (activeRoot m) va =
      if OnTop va then none else translate m3 (activeRoot m) va := fun hva => htr _ hva
  have hroot : activeRoot m' = activeRoot m := (activeRoot_congr hsatp).trans hroot3
  have hn3 : n.toNat ∉ free3 := fun hf => hn (ht.subset hf)
  have hsub1 : free1 ⊆ free.erase n.toNat := fun f hf =>
    Finset.mem_erase.mpr ⟨fun heq => hn (heq ▸ hf), hp.subset hf⟩
  -- off the top page the bytes are those that the accesses have left
  have hoff : ∀ {va}, IsUser va → ¬ OnTop va → userView m' va = Access.replay t (userView m) va := by
    intro va hva hon
    rw [hview va hva hon, ht.view hva]
    refine Access.replay_congr (D := fun a => IsUser a ∧ ¬ OnTop a) (fun a ha => ?_) t va ⟨hva, hon⟩
    exact (hview1 a ha.1).trans (if_neg ha.2)
  constructor
  · rintro ⟨htrans, hbytes, cs', hlist⟩
    have hfree : free = insert n.toNat free3 := hlist.unique hpages.tree.list
    have hfree3 : free3 = free.erase n.toNat := by
      rw [hfree, Finset.erase_insert hn3]
    have hfree1 : free1 = free.erase n.toNat :=
      Finset.Subset.antisymm hsub1 (hfree3 ▸ ht.subset)
    refine ⟨(placed_free h hmap hp hx1 hmem hn hntab).mp hfree1, ?_, fun a ha hva hon => ?_,
      fun va hva hon => ?_⟩
    · have hgone := htrans stackTop isUser_stackTop
      rw [hroot, htr' isUser_stackTop, if_pos onTop_stackTop] at hgone
      exact hgone.symm
    · obtain ⟨x, hx⟩ := ht.same.mp (hfree3.trans hfree1.symm) a ha hva
      rw [hroot1, hoff1 hon] at hx
      exact ⟨x, hx⟩
    · rw [← hoff hva hon, hbytes va hva]
  · rintro ⟨htable, hnone, hmapped, hsame⟩
    have hfree1 := (placed_free h hmap hp hx1 hmem hn hntab).mpr htable
    have hfree3 : free3 = free1 := by
      refine ht.same.mpr fun a ha hva => ?_
      rw [hroot1]
      by_cases hon : OnTop a.addr
      · exact ⟨_, (htop hva hon m1 _).trans hx1⟩
      · rw [hoff1 hon]
        exact hmapped a ha hva hon
    refine ⟨fun va hva => ?_, fun va hva => ?_, cs4, ?_⟩
    · rw [hroot, htr' hva]
      by_cases hon : OnTop va
      · rw [if_pos hon, htop hva hon, hnone]
      · have heq := ht.translate_eq hfree3 hva
        rw [hroot1] at heq
        rw [if_neg hon, heq, hoff1 hon]
    · by_cases hon : OnTop va
      · rw [userView_of_unmapped, userView_of_unmapped]
        · rw [htop hva hon, hnone]
        · rw [hroot, htr' hva, if_pos hon]
      · rw [hoff hva hon, hsame va hva hon]
    · have hlist : FreeList lo hi m' cs4 (insert n.toNat free3) := hpages.tree.list
      rwa [hfree3, hfree1, Finset.insert_erase hmem] at hlist

end

/-- The accesses of `build_stack` when the loader is done. -/
def argAccesses (m : Memory) (file : File) (argc : BitVec 32) (argv : Word) : List Access :=
  match (m.mapZeroPage stackTop stackFlags).bind fun (_, m) =>
      paged.run (storeAll (elfLoad file).writes) m with
  | some (_, m) => paged.trace (buildStack stackTop argc argv) m
  | none => []

/-- Off the top page, the loader writes to pages that are mapped, and only the bytes that are there;
and if it succeeds, the arguments are read from pages that are mapped. -/
structure Harmless (m : Memory) (file : File) (argc : BitVec 32) (argv : Word) : Prop where
  mapped : ∀ w ∈ (elfLoad file).writes, ∀ va, w.Covers va → IsUser va → ¬ OnTop va →
    ∃ x, translate m (activeRoot m) va = some x
  same : ∀ va, IsUser va → ¬ OnTop va →
    MemWrite.applyAll (elfLoad file).writes (userView m) va = userView m va
  args : (elfLoad file).rc = 0 → ∀ a ∈ argAccesses m file argc argv, IsUser a.addr → ¬ OnTop a.addr →
    ∃ x, translate m (activeRoot m) a.addr = some x

theorem UserWrite.size_le {w : MemWrite} (h : UserWrite w) : w.size ≤ 2 ^ 64 := by
  rcases h with h | h
  · omega
  · simp only [umemEnd] at h
    omega

/-- The conditions on the accesses, for those of the loader and loads after them. -/
theorem harmless_iff (hall : ∀ w ∈ (elfLoad file).writes, UserWrite w) (hreads : Reads t)
    (harg : (elfLoad file).rc = 0 → argAccesses m file argc argv = t)
    (hnil : (elfLoad file).rc ≠ 0 → t = []) :
    Harmless m file argc argv ↔
      (∀ a ∈ ((elfLoad file).writes.flatMap fun w => Access.storeRun w.start w.bytes) ++ t,
        IsUser a.addr → ¬ OnTop a.addr → ∃ x, translate m (activeRoot m) a.addr = some x) ∧
      ∀ va, IsUser va → ¬ OnTop va → Access.replay
        (((elfLoad file).writes.flatMap fun w => Access.storeRun w.start w.bytes) ++ t)
        (userView m) va = userView m va := by
  have hreplay : ∀ v, Access.replay
      (((elfLoad file).writes.flatMap fun w => Access.storeRun w.start w.bytes) ++ t) v =
        MemWrite.applyAll (elfLoad file).writes v := by
    intro v
    rw [Access.replay_append, Access.replay_writes fun w hw => (hall w hw).size_le,
      ← Access.replay_filter t, hreads]
    rfl
  simp only [hreplay, List.forall_mem_append, List.forall_mem_flatMap]
  constructor
  · intro h
    refine ⟨⟨fun w hw a ha hva hon => ?_, fun a ha hva hon => ?_⟩, h.same⟩
    · exact h.mapped w hw a.addr ((Access.exists_mem_storeRun (hall w hw).size_le).mp ⟨a, ha, rfl⟩) hva hon
    · by_cases hrc : (elfLoad file).rc = 0
      · exact h.args hrc a (harg hrc ▸ ha) hva hon
      · rw [hnil hrc] at ha
        cases ha
  · rintro ⟨⟨hw, ht⟩, hsame⟩
    refine ⟨fun w hmem va hcov hva hon => ?_, hsame, fun hrc a ha => ht a (harg hrc ▸ ha)⟩
    obtain ⟨a, ha, rfl⟩ := (Access.exists_mem_storeRun (hall w hmem).size_le).mpr hcov
    exact hw w hmem a ha hva hon

/-- A call that fails leaves the caller as it was when it fails early, or when the stack's page was
not mapped and the loader and the arguments touch nothing that they leave changed. -/
theorem processExec_intact_iff {isProc : Bool} {exeio : Option File} {rc : Int}
    (h : UserPages lo hi hlo hhi m cs free)
    (hexec : processExec isProc exeio argc argv m = some (.failed rc, m')) :
    Intact lo hi m free m' ↔
      isProc = false ∨ exeio = none ∨ free = ∅ ∨ (¬ HasTable m stackTop ∧ free.card = 1) ∨
        (HasTable m stackTop ∧ translate m (activeRoot m) stackTop = none ∧
          ∃ file, exeio = some file ∧ Harmless m file argc argv) := by
  have hself : Intact lo hi m free m := ⟨fun _ _ => rfl, fun _ _ => rfl, cs, h.tree.list⟩
  cases isProc with
  | false =>
    cases hexec
    exact iff_of_true hself (.inl rfl)
  | true =>
  cases exeio with
  | none =>
    cases hexec
    exact iff_of_true hself (.inr (.inl rfl))
  | some file =>
  have hcond : (true = false ∨ some file = none ∨ free = ∅ ∨ (¬ HasTable m stackTop ∧ free.card = 1) ∨
      (HasTable m stackTop ∧ translate m (activeRoot m) stackTop = none ∧
        ∃ f, some file = some f ∧ Harmless m f argc argv)) ↔
      free = ∅ ∨ (¬ HasTable m stackTop ∧ free.card = 1) ∨
        (HasTable m stackTop ∧ translate m (activeRoot m) stackTop = none ∧
          Harmless m file argc argv) := by
    simp
  rw [hcond]
  have hrwx : Rwx stackFlags := by decide
  obtain ⟨done, m1, cs1, free1, hmap, hp⟩ := mapZeroPage_placed h.tree hrwx isUser_stackTop.ne_zero
  simp only [processExec, Bool.true_eq_false, if_false, hmap, Option.bind_some] at hexec
  cases done with
  | false =>
    rw [if_pos rfl] at hexec
    cases hexec
    obtain ⟨htable, hiff⟩ := unplaced_intact_iff h hmap hp
    rw [hiff]
    by_cases hhas : HasTable m stackTop
    · exact iff_of_true (.inl (htable hhas)) (.inl (htable hhas))
    · simp [hhas]
  | true =>
    rw [if_neg (by decide)] at hexec
    obtain ⟨⟨⟨⟩, m2⟩, hload, hexec⟩ := Option.bind_eq_some_iff.mp hexec
    obtain ⟨hall, cs2, free2, hwritten⟩ := loaded (h.placed isUser_stackTop (by decide) hp).1 hload
    obtain ⟨hne, hlast⟩ := placed_two h hmap hp
    have hargs : argAccesses m file argc argv = paged.trace (buildStack stackTop argc argv) m2 := by
      simp only [argAccesses, hmap, Option.bind_some, hload]
    simp only [hne, hlast, false_or]
    by_cases hrc : (elfLoad file).rc = 0
    · rw [if_neg (not_not.mpr hrc)] at hexec
      obtain ⟨⟨⟨stksz, blocks⟩, m3⟩, hbuild, hexec⟩ := Option.bind_eq_some_iff.mp hexec
      dsimp only at hexec
      obtain ⟨⟨cs3, free3, hread⟩, hcase⟩ := built hwritten.pages hbuild
      rcases hcase with ⟨rfl, -, hreads⟩ | ⟨size, rfl, -⟩
      · rw [if_pos (by decide)] at hexec
        rw [giveUp_intact_iff h hmap hp (hwritten.trans hread) hexec,
          harmless_iff hall hreads (fun _ => hargs) fun hne => absurd hrc hne]
      · rw [if_neg (by omega)] at hexec
        cases hexec
    · rw [if_pos hrc] at hexec
      have hnone : Touched lo hi hlo hhi m1 free1 (_ ++ []) m2 cs2 free2 :=
        hwritten.trans (.nil hwritten.pages)
      rw [giveUp_intact_iff h hmap hp hnone hexec,
        harmless_iff hall (t := []) rfl (fun heq => absurd heq hrc) fun _ => rfl]

end Calls

/-! ## A small memory -/

/-- A space with an empty root table in page 1, and the free pages 5 to 15. -/
def roomySpace : Memory := Memory.initChunks ⟨fun _ => 0, 0, 1⟩ 0x5000 0x10000

theorem roomySpace_pages :
    ∃ cs, UserPages 2 16 (by decide) (by decide) roomySpace cs (Finset.Ico 5 16) := by
  have hheap : Aligned 0x5000 := by decide
  have hram : Aligned 0x10000 := by decide
  have hroot : activeRoot roomySpace = 1 := by decide +kernel
  have hentry : ∀ i, roomySpace.entry (activeRoot roomySpace) i = nullPte := by
    rw [hroot]
    decide +kernel
  have hnone : ∀ va x, translate roomySpace (activeRoot roomySpace) va ≠ some x := by
    intro va x
    rw [translate_barren hentry]
    exact nofun
  obtain ⟨cs, hlist⟩ := FreeList.initChunks ⟨fun _ => 0, 0, 1⟩ hheap hram (by decide)
  refine ⟨cs, tableTree_barren hentry (hlist.mono (by decide) (by decide)) ?_,
    fun _ hx => absurd hx (hnone _ _), fun _ hx => absurd hx (hnone _ _),
    fun _ hx => absurd hx (hnone _ _), fun _ _ hx => absurd hx (hnone _ _),
    fun va _ => translate_barren hentry va⟩
  rw [hroot]
  decide

/-- The memory after the process has stored bytes. -/
def stored (m : Memory) (p : Word) (bs : List UInt8) : Memory :=
  ((paged.run (storeBytes p bs) m).getD ((), m)).2

theorem stored_pages {lo hi : Nat} {hlo : 0 < lo} {hhi : hi ≤ 2 ^ 44} {m : Memory} {cs : List Ptr}
    {free : Finset Nat} {p : Word} {bs : List UInt8} (h : UserPages lo hi hlo hhi m cs free)
    (hp : umemStart ≤ p.toNat) : ∃ cs' free', UserPages lo hi hlo hhi (stored m p bs) cs' free' := by
  rw [stored]
  cases hrun : paged.run (storeBytes p bs) m with
  | none => exact ⟨cs, free, h⟩
  | some r =>
    obtain ⟨hdoes, hsteps⟩ := ByteMachine.run_trace hrun
    rw [does_storeBytes.mp hdoes, ← List.append_nil (Access.storeRun p bs)] at hsteps
    obtain ⟨-, -, cs', free', htouched⟩ := h.steps
      (Access.storesFrom_run (Q := True) (t := []) hp (by decide) fun _ => trivial) hsteps
    exact ⟨cs', free', htouched.pages⟩

/-- A process that has touched the page below its top page. -/
def onePage : Memory := stored roomySpace 0xEFFFE000 [1]

theorem onePage_pages : ∃ cs free, UserPages 2 16 (by decide) (by decide) onePage cs free := by
  obtain ⟨cs, h⟩ := roomySpace_pages
  exact stored_pages h (by decide)

/-- The stack page comes and goes. -/
theorem processExec_intact_onePage :
    ∃ cs free m', UserPages 2 16 (by decide) (by decide) onePage cs free ∧
      processExec true (some []) 0 0 onePage = some (.failed (- EIO), m') ∧
      Intact 2 16 onePage free m' := by
  obtain ⟨cs, free, h⟩ := onePage_pages
  have hroot : activeRoot onePage = 1 := by decide +kernel
  have hend : (processExec true (some []) 0 0 onePage).map Prod.fst = some (.failed (- EIO)) := by
    decide +kernel
  obtain ⟨⟨e, m'⟩, hexec, rfl⟩ := Option.map_eq_some_iff.mp hend
  refine ⟨cs, free, m', h, hexec, (processExec_intact_iff h hexec).mpr ?_⟩
  have htable : (reach (links false) onePage.entry 0 (activeRoot onePage)
      [vpnIndex 2 stackTop, vpnIndex 1 stackTop]).isSome = true := by
    rw [hroot]
    decide +kernel
  have hwrites : (elfLoad []).writes = [] := by decide
  refine .inr (.inr (.inr (.inr ⟨Option.isSome_iff_exists.mp htable, ?_, [], rfl, ?_⟩)))
  · rw [hroot]
    decide +kernel
  · refine ⟨fun w hw => ?_, fun va _ _ => ?_, fun hrc => absurd hrc (by decide)⟩
    · rw [hwrites] at hw
      cases hw
    · rw [hwrites]
      rfl

/-- A process with an argument vector on the page below its top page, and the string on the top
page. -/
def caller : Memory :=
  stored (stored roomySpace 0xEFFFE000 (leBytes 0xEFFFFF00 8)) 0xEFFFFF00 ['a'.toUInt8]

theorem caller_pages : ∃ cs free, UserPages 2 16 (by decide) (by decide) caller cs free := by
  obtain ⟨cs, h⟩ := roomySpace_pages
  have hstart : umemStart ≤ (0xEFFFE000 : Word).toNat := by decide
  obtain ⟨cs1, free1, h1⟩ : ∃ cs1 free1, UserPages 2 16 (by decide) (by decide)
    (stored roomySpace 0xEFFFE000 (leBytes 0xEFFFFF00 8)) cs1 free1 := stored_pages h hstart
  exact stored_pages h1 (by decide)

/-- A file without a header costs the caller its stack. -/
theorem failedExec_loses_stack :
    ∃ cs free m', UserPages 2 16 (by decide) (by decide) caller cs free ∧
      processExec true (some []) 0 0 caller = some (.failed (- EIO), m') ∧
      userView caller 0xEFFFFF00 = 'a'.toUInt8 ∧ translate m' 1 0xEFFFFF00 = none ∧
      ¬ Intact 2 16 caller free m' := by
  obtain ⟨cs, free, h⟩ := caller_pages
  have hend : (processExec true (some []) 0 0 caller).map
      (fun (e, m') => (e, activeRoot m', translate m' 1 0xEFFFFF00)) =
      some (.failed (- EIO), 1, none) := by
    decide +kernel
  have hbyte : userView caller 0xEFFFFF00 = 'a'.toUInt8 := by decide +kernel
  obtain ⟨⟨e, m'⟩, hexec, hpair⟩ := Option.map_eq_some_iff.mp hend
  simp only [Prod.mk.injEq] at hpair
  obtain ⟨rfl, hroot, hgone⟩ := hpair
  refine ⟨cs, free, m', h, hexec, hbyte, hgone, fun hintact => ?_⟩
  have hsame := hintact.1 0xEFFFFF00 ⟨by decide, by decide⟩
  rw [hroot, hgone] at hsame
  rw [userView_of_unmapped hsame.symm] at hbyte
  exact absurd hbyte (by decide)

end Exec

end MiniOs
