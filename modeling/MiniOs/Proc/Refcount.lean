import MiniOs.Base.Runs
import MiniOs.Proc.Descriptors
import Mathlib.Algebra.BigOperators.Fin

/-!
# Reference counts

`Balanced s e` says that the count of every object is the number of descriptors that point to
it, and `e` of it: the references the kernel holds, and those a system call has in its local
variables at that point.  Making a reference moves one into `e`, installing it in a table moves
it out, and `ioclose` drops one.  Every system call is a sequence of these moves, and a call that
fails ends with the tables it began with, so that its counts are those it began with.
-/

namespace MiniOs

open Function (update_of_ne update_self update_eq_self)

/-- One summand changes. -/
theorem sum_update_add {ι α : Type} [Fintype ι] [DecidableEq ι] (g : ι → α) (f : α → Nat) (i : ι)
    (v : α) : ∑ j, f (Function.update g i v j) + f (g i) = ∑ j, f (g j) + f v := by
  rw [← Finset.add_sum_erase _ (fun j => f (Function.update g i v j)) (Finset.mem_univ i),
    ← Finset.add_sum_erase _ (fun j => f (g j)) (Finset.mem_univ i)]
  have hrest : ∑ j ∈ Finset.univ.erase i, f (Function.update g i v j) =
      ∑ j ∈ Finset.univ.erase i, f (g j) := by
    refine Finset.sum_congr rfl fun j hj => ?_
    rw [update_of_ne (Finset.ne_of_mem_erase hj)]
  rw [hrest, update_self]
  omega

namespace IoSys

variable {s s' : IoSys} {e e' : IoObj → Nat} {o : IoObj} {p : Fin nproc} {fd i : Fin processIomax}
  {tab : Iotab} {devtab : List DevEntry} {blk : Nat}

/-- The descriptors of a table that point to an object. -/
def tabRefs (tab : Iotab) (o : IoObj) : Nat := ∑ fd, if tab fd = some o then 1 else 0

/-- Those of the table of a process, if it is there. -/
def procRefs (x : Option Iotab) (o : IoObj) : Nat :=
  match x with
  | none => 0
  | some tab => tabRefs tab o

/-- The descriptors of all processes that point to an object. -/
def refs (s : IoSys) (o : IoObj) : Nat := ∑ p, procRefs (s.proctab p) o

theorem count_apply (f : IoObj → Nat) (o o' : IoObj) :
    count f o o' = f o' + if o' = o then 1 else 0 := by
  by_cases h : o' = o
  · subst h
    simp [count]
  · simp [count, h]

/-- The counts are right, every close function ran when the last reference was dropped, and the
objects that are not there have no references. -/
structure Balanced (s : IoSys) (e : IoObj → Nat) : Prop where
  refcnt : ∀ o, s.refcnt o = s.refs o + e o
  lives : ∀ o, s.opened o = s.closed o + if 0 < s.refcnt o then 1 else 0
  files : ∀ f, s.inUse f = true ↔ 0 < s.refcnt (.file f)
  fresh : ∀ n, s.next ≤ n → s.refcnt (.heap n) = 0

/-! ## References -/

/-- A new reference to an object that has one, or to a device. -/
theorem Balanced.ioaddref (h : Balanced s e) (hk : 0 < s.refcnt o ∨ ∃ i, o = .dev i) :
    Balanced (s.ioaddref o) (count e o) := by
  have hcnt : ∀ o', (s.ioaddref o).refcnt o' = s.refcnt o' + if o' = o then 1 else 0 :=
    count_apply s.refcnt o
  refine ⟨fun o' => ?_, fun o' => ?_, fun f => ?_, fun n hn => ?_⟩
  · rw [hcnt, count_apply, h.refcnt o']
    exact Nat.add_assoc ..
  · have hl := h.lives o'
    rw [hcnt]
    show (if s.refcnt o = 0 then count s.opened o else s.opened) o' = s.closed o' + _
    by_cases ho : o' = o
    · subst ho
      by_cases hz : s.refcnt o' = 0
      · rw [hz, if_neg (Nat.lt_irrefl 0)] at hl
        rw [if_pos hz, count_apply, if_pos rfl, hz, if_pos (Nat.zero_lt_one), hl]
      · simp only [hz, if_false, if_true] at hl ⊢
        rw [if_pos (by omega)] at hl ⊢
        exact hl
    · have hop : (if s.refcnt o = 0 then count s.opened o else s.opened) o' = s.opened o' := by
        split
        · rw [count_apply, if_neg ho]
          rfl
        · rfl
      rw [hop, if_neg ho]
      exact hl
  · rw [hcnt]
    show s.inUse f = true ↔ _
    rw [h.files f]
    rcases hk with hpos | ⟨i, rfl⟩
    · by_cases ho : IoObj.file f = o
      · subst ho
        simp [hpos]
      · simp [ho]
    · simp
  · rw [hcnt, h.fresh n hn]
    rcases hk with hpos | ⟨i, rfl⟩
    · have ho : IoObj.heap n ≠ o := by
        rintro rfl
        have := h.fresh n hn
        omega
      simp [ho]
    · simp

/-- An object without references gets its first. -/
theorem Balanced.ioinit1 (h : Balanced s e) (hz : s.refcnt o = 0) {inUse : Fin Ktfs.ktfsMaxOpen → Bool}
    {next : Nat} (hnext : s.next ≤ next) (hheap : ∀ n, o = .heap n → n < next)
    (hfile : ∀ f, inUse f = true ↔ s.inUse f = true ∨ o = .file f) :
    Balanced { s.ioinit1 o with inUse := inUse, next := next } (count e o) := by
  have hcnt : ∀ o', Function.update s.refcnt o 1 o' = s.refcnt o' + if o' = o then 1 else 0 := by
    intro o'
    by_cases ho : o' = o
    · subst ho
      simp [hz]
    · simp [ho]
  refine ⟨fun o' => ?_, fun o' => ?_, fun f => ?_, fun n hn => ?_⟩
  · show Function.update s.refcnt o 1 o' = _
    rw [hcnt, count_apply, h.refcnt o']
    exact Nat.add_assoc ..
  · show count s.opened o o' = s.closed o' + if 0 < Function.update s.refcnt o 1 o' then 1 else 0
    have hl := h.lives o'
    rw [hcnt, count_apply]
    by_cases ho : o' = o
    · subst ho
      rw [hz, if_neg (by omega)] at hl
      simp [hl]
    · simp only [ho, if_false]
      exact hl
  · show inUse f = true ↔ 0 < Function.update s.refcnt o 1 (.file f)
    rw [hcnt, hfile, h.files f]
    by_cases ho : IoObj.file f = o
    · subst ho
      simp
    · simp [ho, Ne.symm ho]
  · show Function.update s.refcnt o 1 (.heap n) = 0
    have hn' : next ≤ n := hn
    have ho : IoObj.heap n ≠ o := by
      rintro rfl
      have := hheap n rfl
      omega
    rw [update_of_ne ho, h.fresh n (by omega)]

/-- `ioclose` of a reference that is held. -/
theorem Balanced.ioclose (h : Balanced s (count e o)) :
    ∃ s', s.ioclose o = some s' ∧ Balanced s' e ∧ s'.proctab = s.proctab := by
  have hpos : s.refcnt o = s.refs o + e o + 1 := by
    rw [h.refcnt o, count_apply, if_pos rfl]
    omega
  have hcnt : ∀ o', Function.update s.refcnt o (s.refcnt o - 1) o' = s.refs o' + e o' := by
    intro o'
    by_cases ho : o' = o
    · subst ho
      rw [update_self]
      omega
    · rw [update_of_ne ho, h.refcnt o', count_apply, if_neg ho]
      rfl
  have hfresh : ∀ n, s.next ≤ n → Function.update s.refcnt o (s.refcnt o - 1) (.heap n) = 0 := by
    intro n hn
    have hz := h.fresh n hn
    by_cases ho : IoObj.heap n = o
    · subst ho
      rw [update_self]
      omega
    · rw [update_of_ne ho]
      exact hz
  rw [IoSys.ioclose, if_neg (by omega)]
  by_cases hlast : Function.update s.refcnt o (s.refcnt o - 1) o = 0
  · -- the last reference: the close function runs
    rw [if_pos hlast]
    have hone : s.refcnt o = 1 := by
      rw [update_self] at hlast
      omega
    have hlives : ∀ o', s.opened o' = count s.closed o o' +
        if 0 < Function.update s.refcnt o (s.refcnt o - 1) o' then 1 else 0 := by
      intro o'
      have hl := h.lives o'
      by_cases ho : o' = o
      · subst ho
        rw [count_apply, if_pos rfl, if_neg (by omega)]
        rw [if_pos (by omega)] at hl
        omega
      · rw [count_apply, if_neg ho, update_of_ne ho]
        exact hl
    refine ⟨_, rfl, ?_⟩
    cases o with
    | dev | heap =>
      refine ⟨⟨hcnt, hlives, fun f => ?_, hfresh⟩, rfl⟩
      simp only [close]
      rw [update_of_ne (by simp)]
      exact h.files f
    | file g =>
      refine ⟨⟨hcnt, hlives, fun f => ?_, hfresh⟩, rfl⟩
      show Function.update s.inUse g false f = true ↔
        0 < Function.update s.refcnt (.file g) (s.refcnt (.file g) - 1) (.file f)
      by_cases hf : f = g
      · subst hf
        rw [update_self, hlast]
        simp
      · rw [update_of_ne hf, update_of_ne (by simpa using hf)]
        exact h.files f
  · rw [if_neg hlast]
    have hkeep : ∀ o', 0 < Function.update s.refcnt o (s.refcnt o - 1) o' ↔ 0 < s.refcnt o' := by
      intro o'
      by_cases ho : o' = o
      · subst ho
        omega
      · rw [update_of_ne ho]
    refine ⟨_, rfl, ⟨hcnt, fun o' => ?_, fun f => (h.files f).trans (hkeep _).symm, hfresh⟩, rfl⟩
    simp only [hkeep o']
    exact h.lives o'

/-! ## Descriptors -/

/-- Only the tables differ, and the references in them are accounted for. -/
theorem Balanced.tables (h : Balanced s e) {proctab : Fin nproc → Option Iotab} {halted : Bool}
    (hrefs : ∀ o, ∑ p, procRefs (proctab p) o + e' o = s.refs o + e o) :
    Balanced { s with proctab := proctab, halted := halted } e' :=
  ⟨fun o => (h.refcnt o).trans (hrefs o).symm, h.lives, h.files, h.fresh⟩

theorem refs_update (s : IoSys) (p : Fin nproc) (x : Option Iotab) (o : IoObj) :
    ∑ q, procRefs (Function.update s.proctab p x q) o + procRefs (s.proctab p) o =
      s.refs o + procRefs x o :=
  sum_update_add s.proctab (procRefs · o) p x

theorem tabRefs_update (tab : Iotab) (fd : Fin processIomax) (v : Option IoObj) (o : IoObj) :
    tabRefs (Function.update tab fd v) o + (if tab fd = some o then 1 else 0) =
      tabRefs tab o + if v = some o then 1 else 0 :=
  sum_update_add tab (fun x => if x = some o then 1 else 0) fd v

/-- The descriptors after `iotab[fd]` is set. -/
theorem refs_setSlot (hp : s.proctab p = some tab) (fd : Fin processIomax) (v : Option IoObj)
    (o : IoObj) :
    (s.setSlot p fd v).refs o + (if tab fd = some o then 1 else 0) =
      s.refs o + if v = some o then 1 else 0 := by
  have hproc := refs_update s p (some (Function.update tab fd v)) o
  have htab := tabRefs_update tab fd v o
  have hset : (s.setSlot p fd v).refs o =
      ∑ q, procRefs (Function.update s.proctab p (some (Function.update tab fd v)) q) o := by
    rw [refs, setSlot, hp]
    rfl
  rw [hset]
  simp only [hp, procRefs] at hproc htab ⊢
  omega

theorem slot_eq (hp : s.proctab p = some tab) (fd : Fin processIomax) : s.slot p fd = tab fd := by
  rw [slot, hp]
  rfl

/-- A reference is installed in a free entry. -/
theorem Balanced.install (h : Balanced s (count e o)) (hp : s.proctab p = some tab)
    (hfree : s.slot p fd = none) : Balanced (s.setSlot p fd (some o)) e := by
  rw [slot_eq hp] at hfree
  refine h.tables fun o' => ?_
  have hset := refs_setSlot hp fd (some o) o'
  rw [hfree] at hset
  show (s.setSlot p fd (some o)).refs o' + e o' = _
  rw [count_apply]
  simp only [reduceCtorEq, if_false, Option.some.injEq, eq_comm (a := o)] at hset
  omega

/-- An entry is cleared, and the reference is in a variable. -/
theorem Balanced.clear (h : Balanced s e) (hp : s.proctab p = some tab)
    (ho : s.slot p fd = some o) : Balanced (s.setSlot p fd none) (count e o) := by
  rw [slot_eq hp] at ho
  refine h.tables fun o' => ?_
  have hset := refs_setSlot hp fd none o'
  rw [ho] at hset
  show (s.setSlot p fd none).refs o' + count e o o' = _
  rw [count_apply]
  simp only [reduceCtorEq, if_false, Option.some.injEq, eq_comm (a := o)] at hset
  omega

/-- What a descriptor points to is open. -/
theorem Balanced.slot_pos (h : Balanced s e) (ho : s.slot p fd = some o) : 0 < s.refcnt o := by
  cases hp : s.proctab p with
  | none =>
    rw [slot, hp] at ho
    cases ho
  | some tab =>
    have hclear := (h.clear hp ho).refcnt o
    rw [count_apply, if_pos rfl] at hclear
    have hsame : (s.setSlot p fd none).refcnt o = s.refcnt o := rfl
    omega

/-- The order of dropping a reference and clearing its entry does not matter. -/
theorem ioclose_setSlot (s : IoSys) (p : Fin nproc) (fd : Fin processIomax) (v : Option IoObj)
    (o : IoObj) : (s.setSlot p fd v).ioclose o = (s.ioclose o).map fun s => s.setSlot p fd v := by
  rw [IoSys.ioclose, IoSys.ioclose]
  by_cases hz : s.refcnt o = 0
  · rw [if_pos hz, if_pos (show (s.setSlot p fd v).refcnt o = 0 from hz)]
    rfl
  · rw [if_neg hz, if_neg (show (s.setSlot p fd v).refcnt o ≠ 0 from hz)]
    by_cases hlast : Function.update s.refcnt o (s.refcnt o - 1) o = 0
    · dsimp only
      rw [if_pos hlast, if_pos (by exact hlast)]
      cases o <;> rfl
    · dsimp only
      rw [if_neg hlast, if_neg (by exact hlast)]
      rfl

/-- The table with one entry cleared. -/
def cleared (s : IoSys) (p : Fin nproc) (fd : Fin processIomax) : Fin nproc → Option Iotab :=
  Function.update s.proctab p ((s.proctab p).map fun tab => Function.update tab fd none)

/-- The reference in an entry is dropped. -/
theorem Balanced.closeSlot (h : Balanced s e) (p : Fin nproc) (fd : Fin processIomax) :
    ∃ s', s.closeSlot p fd = some s' ∧ Balanced s' e ∧ s'.proctab = s.cleared p fd := by
  cases ho : s.slot p fd with
  | none =>
    refine ⟨s, by rw [IoSys.closeSlot, ho], h, ?_⟩
    rw [cleared]
    cases hp : s.proctab p with
    | none =>
      rw [Option.map_none, ← hp, update_eq_self]
    | some tab =>
      rw [slot_eq hp] at ho
      rw [Option.map_some, ← ho, update_eq_self, ← hp, update_eq_self]
  | some o =>
    cases hp : s.proctab p with
    | none =>
      rw [slot, hp] at ho
      cases ho
    | some tab =>
      obtain ⟨s', hclose, hbal, htab⟩ := (h.clear hp ho).ioclose
      rw [ioclose_setSlot] at hclose
      exact ⟨s', by rw [IoSys.closeSlot, ho]; exact hclose, hbal, htab⟩

theorem slot_cleared_self (h : s'.proctab = s.cleared p fd) : s'.slot p fd = none := by
  rw [slot, h, cleared, update_self]
  cases s.proctab p with
  | none => rfl
  | some tab => simp

theorem slot_cleared_of_ne (h : s'.proctab = s.cleared p fd) (hi : i ≠ fd) :
    s'.slot p i = s.slot p i := by
  rw [slot, slot, h, cleared, update_self]
  cases s.proctab p with
  | none => rfl
  | some tab => simp [hi]

theorem exists_of_cleared (h : s'.proctab = s.cleared p fd) (hp : (s.proctab p).isSome = true) :
    ∃ tab, s'.proctab p = some tab := by
  refine Option.isSome_iff_exists.mp ?_
  rwa [h, cleared, update_self, Option.isSome_map]

/-! ## The calls -/

/-- A call ends with the counts right, and with the same tables if it fails. -/
def Keeps (s : IoSys) (e : IoObj → Nat) (r : Option (Int × IoSys)) : Prop :=
  ∃ rc s', r = some (rc, s') ∧ Balanced s' e ∧ (rc < 0 → s'.proctab = s.proctab)

theorem Balanced.keeps (h : Balanced s e) (rc : Int) : Keeps s e (some (rc, s)) :=
  ⟨rc, s, rfl, h, fun _ => rfl⟩

/-- `install_io`. -/
theorem Balanced.installIo (h : Balanced s (count e o)) (hp : (s.proctab p).isSome = true) (fd : Int) :
    (∃ s', s.installIo p fd o = some (0, s') ∧ Balanced s' e) ∨
      s.installIo p fd o = some (-EINVAL, s) := by
  rw [IoSys.installIo]
  cases validFd fd with
  | none => exact .inr rfl
  | some i =>
    obtain ⟨s1, hclose, hbal, htab⟩ := h.closeSlot p i
    obtain ⟨tab, htab1⟩ := exists_of_cleared htab hp
    refine .inl ⟨_, ?_, hbal.install htab1 (slot_cleared_self htab)⟩
    simp only [hclose, Option.map_some]

/-- The rest of an open: the reference is installed or dropped. -/
theorem Balanced.installOpened (h : Balanced s (count e o)) (hp : (s.proctab p).isSome = true)
    (fd : Int) : Keeps s e (s.installOpened p fd o) := by
  obtain ⟨s1, hclose, hbal1, htab1⟩ := h.ioclose
  have hinstall : ∀ fd : Int, 0 ≤ fd → Keeps s e (do
      let r ← s.installIo p fd o
      if r.1 ≠ 0 then
        let s ← r.2.ioclose o
        return (r.1, s)
      else return (fd, r.2)) := by
    intro fd hfd
    rcases h.installIo hp fd with ⟨s2, heq, hbal2⟩ | heq
    · rw [heq]
      exact ⟨fd, s2, rfl, hbal2, fun hneg => absurd hneg (by omega)⟩
    · rw [heq]
      refine ⟨-EINVAL, s1, ?_, hbal1, fun _ => htab1⟩
      simp only [Option.bind_eq_bind, Option.bind_some, hclose]
      rfl
  rw [IoSys.installOpened]
  split
  · cases s.findFreeFd p with
    | none => exact ⟨-EMFILE, s1, by rw [hclose]; rfl, hbal1, fun _ => htab1⟩
    | some i => exact hinstall i.val (by omega)
  · exact hinstall fd (by omega)

/-- An open ends with an error, or with one more reference. -/
def Opens (s : IoSys) (e : IoObj → Nat) (r : Except Int (IoObj × IoSys)) : Prop :=
  (∃ rc, r = .error rc) ∨
    ∃ o s', r = .ok (o, s') ∧ Balanced s' (count e o) ∧ s'.proctab = s.proctab

theorem Balanced.openDevice (h : Balanced s e) (name : String) (instno : Int) :
    Opens s e (s.openDevice name instno) := by
  rw [IoSys.openDevice]
  cases findDevice name instno s.devtab 0 0 with
  | none => exact .inl ⟨_, rfl⟩
  | some x =>
    obtain ⟨i, d⟩ := x
    cases hfn : d.openfn with
    | none =>
      simp only [hfn]
      exact .inl ⟨_, rfl⟩
    | some fn =>
      simp only [hfn]
      cases fn with
      | exclusive =>
        dsimp only
        split
        · exact .inl ⟨_, rfl⟩
        · exact .inr ⟨_, _, rfl, h.ioaddref (.inr ⟨i, rfl⟩), rfl⟩
      | shared => exact .inr ⟨_, _, rfl, h.ioaddref (.inr ⟨i, rfl⟩), rfl⟩
      | console =>
        refine .inr ⟨_, _, rfl, ?_, rfl⟩
        refine h.ioinit1 (h.fresh _ (Nat.le_refl _)) (Nat.le_succ _) (fun n hn => ?_) fun f => ?_
        · cases hn
          exact Nat.lt_succ_self _
        · simp [IoSys.ioinit1]

theorem Balanced.fsopen (h : Balanced s e) (found read : Int) : Opens s e (s.fsopen found read) := by
  rw [IoSys.fsopen]
  split
  · exact .inl ⟨_, rfl⟩
  · cases hslot : (List.finRange Ktfs.ktfsMaxOpen).find? fun f => !s.inUse f with
    | none => exact .inl ⟨_, rfl⟩
    | some f =>
      have hfree : s.inUse f = false := by simpa using List.find?_some hslot
      have hz : s.refcnt (.file f) = 0 := by
        have := h.files f
        rw [hfree] at this
        simpa using this
      dsimp only
      split
      · exact .inl ⟨_, rfl⟩
      · refine .inr ⟨_, _, rfl, ?_, rfl⟩
        refine h.ioinit1 hz (Nat.le_refl _) (fun n hn => nomatch hn) fun g => ?_
        by_cases hg : g = f
        · subst hg
          simp
        · simp [hg, Ne.symm hg]

/-- What is done with the result of an open. -/
theorem Balanced.opened (h : Balanced s e) (hp : (s.proctab p).isSome = true) (fd : Int)
    {r : Except Int (IoObj × IoSys)} : Opens s e r → Keeps s e (match r with
      | .error rc => some (rc, s)
      | .ok (o, s) => s.installOpened p fd o) := by
  rintro (⟨rc, rfl⟩ | ⟨o, s1, rfl, hbal, htab⟩)
  · exact h.keeps rc
  · obtain ⟨rc, s', heq, hbal', hneg⟩ := hbal.installOpened (by rw [htab]; exact hp) fd
    exact ⟨rc, s', heq, hbal', fun hlt => (hneg hlt).trans htab⟩

theorem Balanced.sysdevopen (h : Balanced s e) (hp : (s.proctab p).isSome = true) (fd : Int)
    (name : Option String) (instno : Int) : Keeps s e (s.sysdevopen p fd name instno) := by
  cases name with
  | none => exact h.keeps _
  | some name => exact h.opened hp fd (h.openDevice name instno)

theorem Balanced.sysfsopen (h : Balanced s e) (hp : (s.proctab p).isSome = true) (fd : Int)
    (named : Bool) (found read : Int) : Keeps s e (s.sysfsopen p fd named found read) := by
  cases named with
  | false => exact h.keeps _
  | true => exact h.opened hp fd (h.fsopen found read)

theorem Balanced.sysclose (h : Balanced s e) (fd : Int) : Keeps s e (s.sysclose p fd) := by
  rw [IoSys.sysclose]
  cases validFd fd with
  | none => exact h.keeps _
  | some i =>
    cases ho : s.slot p i with
    | none =>
      simp only [ho]
      exact h.keeps _
    | some o =>
      obtain ⟨s1, hclose, hbal, -⟩ := h.closeSlot p i
      simp only [ho, hclose, Option.map_some]
      exact ⟨0, s1, rfl, hbal, fun hneg => absurd hneg (by omega)⟩

theorem Balanced.sysiodup (h : Balanced s e) (hp : (s.proctab p).isSome = true) (oldfd newfd : Int) :
    Keeps s e (s.sysiodup p oldfd newfd) := by
  rw [IoSys.sysiodup]
  cases validFd oldfd with
  | none => exact h.keeps _
  | some old =>
    cases ho : s.slot p old with
    | none =>
      simp only [ho]
      exact h.keeps _
    | some o =>
      simp only [ho]
      have hdup : ∀ new : Fin processIomax, Keeps s e (if old = new then some ((new.val : Int), s)
          else do
            let s ← s.closeSlot p new
            let o ← s.slot p old
            return ((new.val : Int), (s.ioaddref o).setSlot p new (some o))) := by
        intro new
        by_cases hon : old = new
        · rw [if_pos hon]
          exact h.keeps _
        · rw [if_neg hon]
          obtain ⟨s1, hclose, hbal, htab⟩ := h.closeSlot p new
          -- the other descriptor still holds the object open
          have ho1 : s1.slot p old = some o := by
            rw [slot_cleared_of_ne htab hon]
            exact ho
          obtain ⟨tab, htab1⟩ := exists_of_cleared htab hp
          have hadd := hbal.ioaddref (.inl (hbal.slot_pos ho1))
          have hfree : (s1.ioaddref o).slot p new = none := slot_cleared_self (s := s) htab
          refine ⟨new.val, _, ?_, hadd.install htab1 hfree, fun hneg => absurd hneg (by omega)⟩
          simp only [hclose, Option.bind_eq_bind, Option.bind_some, ho1]
          rfl
      split
      · cases s.findFreeFd p with
        | none => exact h.keeps _
        | some new => exact hdup new
      · cases validFd newfd with
        | none => exact h.keeps _
        | some new => exact hdup new

theorem pipeSlot_free {fd : Int} {other : Option (Fin processIomax)}
    (h : s.pipeSlot p fd other = .ok i) : s.slot p i = none := by
  rw [pipeSlot] at h
  split at h
  · split at h
    · cases h
    · rename_i j hfind
      cases h
      have hj := List.find?_some hfind
      simp only [Bool.and_eq_true, Option.isNone_iff_eq_none] at hj
      exact hj.2
  · split at h
    · cases h
    · split at h
      · cases h
      · rename_i hsome
        cases h
        simpa using hsome

theorem Balanced.createPipe (h : Balanced s e) :
    Balanced s.createPipe.2.2 (count (count e s.createPipe.2.1) s.createPipe.1) := by
  have hw := h.ioinit1 (h.fresh _ (Nat.le_refl _)) (Nat.le_succ s.next)
    (fun n hn => by cases hn; exact Nat.lt_succ_self _) (fun f => by simp : ∀ f, s.inUse f = true ↔ _)
  have hr := hw.ioinit1 (hw.fresh _ (Nat.le_refl _)) (Nat.le_succ (s.next + 1))
    (fun n hn => by cases hn; exact Nat.lt_succ_self _) (fun f => by simp : ∀ f, s.inUse f = true ↔ _)
  have hcomm : count (count e (.heap s.next)) (.heap (s.next + 1)) =
      count (count e (.heap (s.next + 1))) (.heap s.next) := by
    funext o
    simp only [count_apply]
    omega
  rw [hcomm] at hr
  exact hr

theorem slot_setSlot_of_ne (v : Option IoObj) (hi : i ≠ fd) :
    (s.setSlot p fd v).slot p i = s.slot p i := by
  simp only [slot, setSlot, update_self]
  cases s.proctab p with
  | none => rfl
  | some tab => simp [hi]

theorem Balanced.syspipe (h : Balanced s e) (hp : (s.proctab p).isSome = true)
    (fds : Option (Int × Int)) (mem : Bool) :
    Keeps s e (s.step p (.pipe fds mem)) := by
  simp only [IoSys.step, IoSys.syspipe]
  cases fds with
  | none => exact h.keeps _
  | some x =>
    obtain ⟨wfd, rfd⟩ := x
    dsimp only
    cases hw : s.pipeSlot p wfd none with
    | error rc => exact h.keeps rc
    | ok w =>
      dsimp only
      cases hr : s.pipeSlot p rfd (some w) with
      | error rc => exact h.keeps rc
      | ok r =>
        dsimp only
        split
        · exact h.keeps _
        · rename_i hne
          cases mem with
          | false => exact h.keeps _
          | true =>
            obtain ⟨tab, htab⟩ := Option.isSome_iff_exists.mp hp
            have hpipe : s.createPipe.2.2.proctab p = some tab := htab
            have hbal := h.createPipe.install hpipe (pipeSlot_free hw)
            have hfree : (s.createPipe.2.2.setSlot p w (some s.createPipe.1)).slot p r = none := by
              rw [slot_setSlot_of_ne _ (Ne.symm hne)]
              exact pipeSlot_free hr
            have hlive : (s.createPipe.2.2.setSlot p w (some s.createPipe.1)).proctab p =
                some (Function.update tab w (some s.createPipe.1)) := by
              simp only [setSlot, update_self, hpipe, Option.map_some]
            exact ⟨0, _, rfl, hbal.install hlive hfree, fun hneg => absurd hneg (by omega)⟩

/-! ## Fork and exit -/

/-- The references of the entries `l` of a table. -/
def listRefs (l : List (Fin processIomax)) (tab : Iotab) (o : IoObj) : Nat :=
  (l.map fun i => if tab i = some o then 1 else 0).sum

theorem listRefs_finRange (tab : Iotab) : listRefs (List.finRange processIomax) tab = tabRefs tab := by
  funext o
  rw [listRefs, tabRefs, Fin.sum_univ_def]

/-- What one entry adds. -/
theorem listRefs_cons (i : Fin processIomax) (l : List (Fin processIomax)) (tab : Iotab) :
    (fun o => e o + listRefs (i :: l) tab o) =
      match tab i with
      | none => fun o => e o + listRefs l tab o
      | some o => count (fun o => e o + listRefs l tab o) o := by
  cases htab : tab i with
  | none => simp [listRefs, htab]
  | some o' =>
    funext o
    simp only [listRefs, List.map_cons, List.sum_cons, htab, Option.some.injEq, count_apply,
      eq_comm (a := o')]
    omega

theorem count_add (e f : IoObj → Nat) (o : IoObj) :
    (fun o' => count e o o' + f o') = count (fun o' => e o' + f o') o := by
  funext o'
  simp only [count_apply]
  omega

/-- The loop that copies a table. -/
theorem Balanced.copyList (l : List (Fin processIomax)) (h : Balanced s e)
    (hopen : ∀ i o, tab i = some o → 0 < s.refcnt o) :
    Balanced (l.foldl (fun s i => match tab i with
      | none => s
      | some o => s.ioaddref o) s) (fun o => e o + listRefs l tab o) ∧
      (l.foldl (fun s i => match tab i with
        | none => s
        | some o => s.ioaddref o) s).proctab = s.proctab := by
  induction l generalizing s e with
  | nil => exact ⟨h, rfl⟩
  | cons i l ih =>
    rw [List.foldl_cons, listRefs_cons]
    cases htab : tab i with
    | none => exact ih h hopen
    | some o =>
      have hadd := h.ioaddref (.inl (hopen i o htab))
      have hopen' : ∀ i o', tab i = some o' → 0 < (s.ioaddref o).refcnt o' := by
        intro j o' hj
        show 0 < count s.refcnt o o'
        rw [count_apply]
        exact Nat.add_pos_left (hopen j o' hj) _
      obtain ⟨hbal, htabs⟩ := ih hadd hopen'
      rw [count_add] at hbal
      exact ⟨hbal, htabs⟩

/-- The loop that undoes it. -/
theorem Balanced.closeList (l : List (Fin processIomax))
    (h : Balanced s fun o => e o + listRefs l tab o) :
    ∃ s', l.foldlM (fun s i => match tab i with
      | none => some s
      | some o => s.ioclose o) s = some s' ∧ Balanced s' e ∧ s'.proctab = s.proctab := by
  induction l generalizing s with
  | nil => exact ⟨s, rfl, h, rfl⟩
  | cons i l ih =>
    rw [listRefs_cons] at h
    rw [List.foldlM_cons]
    cases htab : tab i with
    | none =>
      simp only [htab] at h
      exact ih h
    | some o =>
      simp only [htab] at h
      obtain ⟨s1, hclose, hbal, htabs⟩ := h.ioclose
      obtain ⟨s', hfold, hbal', htabs'⟩ := ih hbal
      refine ⟨s', ?_, hbal', htabs'.trans htabs⟩
      simp only [hclose, Option.bind_eq_bind, Option.bind_some]
      exact hfold

theorem Balanced.processFork (h : Balanced s e) (clone : Bool) (tid : Int) :
    Keeps s e (s.processFork p clone tid) := by
  rw [IoSys.processFork]
  cases hp : s.proctab p with
  | none => exact h.keeps _
  | some tab =>
    cases hidx : (List.finRange nproc).find? fun i => i ≠ 0 && (s.proctab i).isNone with
    | none => exact h.keeps _
    | some idx =>
      dsimp only
      have hfree : s.proctab idx = none := by
        have hi := List.find?_some hidx
        simp only [Bool.and_eq_true, Option.isNone_iff_eq_none] at hi
        exact hi.2
      have hopen : ∀ i o, tab i = some o → 0 < s.refcnt o := by
        intro i o hi
        exact h.slot_pos ((slot_eq hp i).trans hi)
      obtain ⟨hcopy, htabs⟩ := h.copyList (List.finRange processIomax) hopen
      have htabs' : (s.copyTab tab).proctab = s.proctab := htabs
      obtain ⟨s1, hundo, hbal1, htabs1⟩ := hcopy.closeList
      have hundo' : (s.copyTab tab).closeTab tab = some s1 := hundo
      split
      · exact ⟨-ENOMEM, s1, by rw [hundo']; rfl, hbal1, fun _ => htabs1.trans htabs⟩
      · split
        · refine ⟨-EMTHR, s1, ?_, hbal1, fun _ => htabs1.trans htabs⟩
          have hback : { s.copyTab tab with
              proctab := Function.update (Function.update (s.copyTab tab).proctab idx (some tab)) idx none } =
              s.copyTab tab := by
            rw [Function.update_idem, htabs', ← hfree, update_eq_self, ← htabs']
          rw [hback, hundo']
          rfl
        · refine ⟨tid, _, rfl, hcopy.tables fun o => ?_, fun hneg => absurd hneg (by omega)⟩
          have hupd := refs_update (s.copyTab tab) idx (some tab) o
          rw [htabs', hfree] at hupd
          have hnull : procRefs none o = 0 := rfl
          have hnew : procRefs (some tab) o = tabRefs tab o := rfl
          rw [listRefs_finRange]
          show _ + e o = (s.copyTab tab).refs o + _
          rw [htabs']
          omega

/-- The loop of `process_exit`. -/
theorem Balanced.closeSlots (l : List (Fin processIomax)) (h : Balanced s e) :
    ∃ s', l.foldlM (fun (s : IoSys) i => s.closeSlot p i) s = some s' ∧ Balanced s' e ∧
      ∀ i, i ∈ l ∨ s.slot p i = none → s'.slot p i = none := by
  induction l generalizing s with
  | nil =>
    refine ⟨s, rfl, h, fun i hi => ?_⟩
    rcases hi with hi | hi
    · cases hi
    · exact hi
  | cons j l ih =>
    obtain ⟨s1, hclose, hbal, htab⟩ := h.closeSlot p j
    obtain ⟨s', hfold, hbal', hnone⟩ := ih hbal
    refine ⟨s', ?_, hbal', fun i hi => hnone i ?_⟩
    · rw [List.foldlM_cons, hclose]
      exact hfold
    · by_cases hij : i = j
      · subst hij
        exact .inr (slot_cleared_self htab)
      · rcases hi with hi | hi
        · exact .inl ((List.mem_cons.mp hi).resolve_left hij)
        · right
          rw [slot_cleared_of_ne htab hij]
          exact hi

theorem Balanced.processExit (h : Balanced s e) : Keeps s e (s.step p .exit) := by
  obtain ⟨s1, hfold, hbal, hnone⟩ := h.closeSlots (p := p) (List.finRange processIomax)
  have hexit : s.step p .exit = some (0, if p ≠ 0 then
      { s1 with proctab := Function.update s1.proctab p none } else { s1 with halted := true }) := by
    rw [IoSys.step, IoSys.processExit, hfold]
    rfl
  refine ⟨0, _, hexit, ?_, fun hneg => absurd hneg (by omega)⟩
  split
  · refine hbal.tables fun o => ?_
    have hupd := refs_update s1 p none o
    have hzero : procRefs (s1.proctab p) o = 0 := by
      cases hp : s1.proctab p with
      | none => rfl
      | some tab =>
        rw [procRefs, tabRefs]
        refine Finset.sum_eq_zero fun i _ => ?_
        have hi := hnone i (.inl (List.mem_finRange i))
        rw [slot_eq hp] at hi
        rw [hi]
        rfl
    have hnull : procRefs none o = 0 := rfl
    omega
  · exact hbal.tables fun o => rfl

/-! ## Whole runs -/

theorem Balanced.step (h : Balanced s e) {c : IoCall} (hen : s.Enabled p c) :
    Keeps s e (s.step p c) := by
  have hp : (s.proctab p).isSome = true := by
    cases c with
    | fsopen => exact hen.2.1
    | _ => exact hen.2
  cases c with
  | devopen fd name instno => exact h.sysdevopen hp fd name instno
  | fsopen fd named found read => exact h.sysfsopen hp fd named found read
  | close fd => exact h.sysclose fd
  | iodup oldfd newfd => exact h.sysiodup hp oldfd newfd
  | pipe fds mem => exact h.syspipe hp fds mem
  | fork clone tid => exact h.processFork clone tid
  | exit => exact h.processExit

theorem tabRefs_console (o : IoObj) :
    tabRefs (fun fd => if fd.val < 3 then some (.heap 0) else none) o =
      if o = .heap 0 then 3 else 0 := by
  rw [tabRefs]
  split
  case isTrue ho =>
    subst ho
    decide +kernel
  case isFalse ho =>
    refine Finset.sum_eq_zero fun fd _ => if_neg fun heq => ?_
    split at heq
    · exact ho (Option.some.inj heq).symm
    · cases heq

theorem boot_refs (devtab : List DevEntry) (blk : Nat) (o : IoObj) :
    (boot devtab blk).refs o = if o = .heap 0 then 3 else 0 := by
  rw [refs, Finset.sum_eq_single 0, ← tabRefs_console]
  · rfl
  · intro p _ hp
    simp only [boot, if_neg hp, procRefs]
  · intro h0
    exact absurd (Finset.mem_univ _) h0

theorem boot_balanced (devtab : List DevEntry) (blk : Nat) :
    Balanced (boot devtab blk) (kernelRefs blk) := by
  refine ⟨fun o => ?_, fun o => ?_, fun f => ?_, fun n hn => ?_⟩
  · rw [boot_refs, Nat.add_comm]
    rfl
  · show (if o = .dev blk ∨ o = .file 0 ∨ o = .heap 0 then 1 else 0) =
      0 + if 0 < kernelRefs blk o + (if o = .heap 0 then 3 else 0) then 1 else 0
    by_cases h1 : o = .dev blk ∨ o = .file 0
    · simp only [kernelRefs, h1, if_true]
      rw [if_pos (by rcases h1 with h1 | h1 <;> simp [h1]), if_pos (by omega)]
    · rw [not_or] at h1
      by_cases h2 : o = .heap 0
      · subst h2
        rfl
      · simp [kernelRefs, h1.1, h1.2, h2]
  · show decide (f = 0) = true ↔ 0 < kernelRefs blk (.file f) + 0
    simp [kernelRefs, Nat.pos_iff_ne_zero]
  · have hn' : n ≠ 0 := by
      have : 1 ≤ n := hn
      omega
    show kernelRefs blk (.heap n) + (if IoObj.heap n = .heap 0 then 3 else 0) = 0
    simp [kernelRefs, hn']

theorem Run.balanced (h : Run devtab blk s) :
    Balanced s (kernelRefs blk) := by
  induction h with
  | boot => exact boot_balanced devtab blk
  | step _ hen hst ih =>
    obtain ⟨rc, s', heq, hbal, -⟩ := ih.step hen
    rw [hst] at heq
    cases heq
    exact hbal

/-- Reference counts over whole runs.  The count of an object is the number of descriptors that
point to it and of the kernel's own references.  Its close function has run once for every time
its last reference was dropped.  A descriptor points to an open object.  No call fails an
assertion, and one that fails leaves the tables and the counts as they were. -/
theorem descriptors_counted {devtab : List DevEntry} {blk : Nat} (h : Run devtab blk s) :
    (∀ o, s.refcnt o = s.refs o + kernelRefs blk o) ∧
      (∀ o, s.opened o = s.closed o + if 0 < s.refcnt o then 1 else 0) ∧
      (∀ p fd o, s.slot p fd = some o → 0 < s.refcnt o) ∧
      ∀ p c, s.Enabled p c → ∃ rc s', s.step p c = some (rc, s') ∧
        (rc < 0 → s'.proctab = s.proctab ∧ s'.refcnt = s.refcnt ∧ s'.inUse = s.inUse) := by
  have hbal := h.balanced
  refine ⟨hbal.refcnt, hbal.lives, fun p fd o ho => hbal.slot_pos ho, fun p c hen => ?_⟩
  obtain ⟨rc, s', hst, hbal', htabs⟩ := hbal.step hen
  refine ⟨rc, s', hst, fun hneg => ?_⟩
  have htab := htabs hneg
  have hrefcnt : ∀ o, s'.refcnt o = s.refcnt o := by
    intro o
    rw [hbal'.refcnt, hbal.refcnt, refs, refs, htab]
  refine ⟨htab, funext hrefcnt, funext fun f => ?_⟩
  have hiff : s'.inUse f = true ↔ s.inUse f = true := by
    rw [hbal'.files, hbal.files, hrefcnt]
  exact Bool.eq_iff_iff.mpr hiff

section Exec

instance (s : IoSys) (p : Fin nproc) : (c : IoCall) → Decidable (s.Enabled p c)
  | .fsopen .. => inferInstanceAs (Decidable (_ ∧ _ ∧ _ ∧ _))
  | .devopen .. | .close _ | .iodup .. | .pipe .. | .fork .. | .exit =>
      inferInstanceAs (Decidable (_ ∧ _))

/-- The state after a given sequence of calls, if each of them can be made. -/
def exec (s : IoSys) : List (Fin nproc × IoCall) → Option IoSys
  | [] => some s
  | (p, c) :: cs => if s.Enabled p c then (s.step p c).bind fun (_, s') => exec s' cs else none

theorem Run.exec {cs : List (Fin nproc × IoCall)}
    (h : Run devtab blk s) (heq : IoSys.exec s cs = some s') : Run devtab blk s' :=
  keeps_of_run (fun _ => rfl) (fun _ _ _ => rfl) (fun h => h.step) h heq

end Exec

/-- The first program opens the clock and duplicates it over a console descriptor, forks, and the
child opens a pipe and exits: the pipe is closed, and the clock has two references. -/
theorem descriptors_counted_fork : ∃ s : IoSys,
    Run [⟨"vioblk", some .exclusive⟩, ⟨"rtc", some .shared⟩] 0 s ∧
      (s.refcnt (.dev 1), s.refcnt (.heap 0), s.closed (.heap 1), s.opened (.heap 1)) = (2, 2, 1, 1) ∧
      s.refs (.dev 1) = 2 := by
  have heval : (exec (boot [⟨"vioblk", some .exclusive⟩, ⟨"rtc", some .shared⟩] 0)
      [(0, .devopen (-1) (some "rtc") 0), (0, .iodup 3 0), (0, .devopen 5 (some "vioblk") 0),
        (0, .fork true 1), (1, .pipe (some (-1, -1)) true), (1, .exit)]).map
      (fun s => (s.refcnt (.dev 1), s.refcnt (.heap 0), s.closed (.heap 1), s.opened (.heap 1))) =
        some (2, 2, 1, 1) := by
    decide +kernel
  obtain ⟨s, hs, hcounts⟩ := Option.map_eq_some_iff.mp heval
  have hrun : Run [⟨"vioblk", some .exclusive⟩, ⟨"rtc", some .shared⟩] 0 s := Run.boot.exec hs
  have hclock := (descriptors_counted hrun).1 (.dev 1)
  simp only [Prod.mk.injEq] at hcounts
  refine ⟨s, hrun, by simp only [hcounts], ?_⟩
  rw [hcounts.1, show kernelRefs 0 (.dev 1) = 0 from rfl, Nat.add_zero] at hclock
  exact hclock.symm

end IoSys

end MiniOs
