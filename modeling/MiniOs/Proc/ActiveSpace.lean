import MiniOs.Proc.Spaces
import MiniOs.Thread.Alive
import MiniOs.Memory.Tables

/-!
# The active address space is never a freed one

A process ends in its own thread, and it leaves its address space before it frees the root table.
So a space that some other thread left active is that of a process which is still there.  The
invariant `Spaced` ties the threads that can run to their processes, one to one, and `Active` says
what `satp` is at each stage.
-/

namespace MiniOs

open Function (update_of_ne update_self)

theorem rootPage_ptabToMtag (f : BitVec 44) : rootPage (Memory.ptabToMtag (pageptr f)) = f := by
  apply BitVec.eq_of_toNat_eq
  have hf := f.isLt
  have hframe : Memory.frame (pageptr f) = f.toNat := frame_pageptr f
  have hlow := toNat_ptabToMtag (pageptr f)
  have htag := toNat_activeSpacePtab ⟨fun _ => 0, 0, Memory.ptabToMtag (pageptr f)⟩
  rw [rootPage, toNat_pagenum, Memory.frame]
  simp only [Memory.activeSpacePtab] at htag
  rw [Memory.mtagToPtab, htag, hlow, hframe, Nat.mul_div_cancel_left _ (by decide)]
  omega

namespace Machine

open Kernel (Running Held)

variable {nl : Nat} {m m' : Machine nl} {L : ListRef nl → List Tid} {H : Tid → List (Fin nl)}
  {k' : Kernel nl}

theorem suspends_of_joinOf {lbl : Label nl} {tid : Int} {isr1 isr2 : List (Cond nl)}
    (h : m.joinOf lbl = some (tid, isr1, isr2))
    (heq : m.k.threadJoin tid isr1 isr2 = some (none, k')) : m.suspends lbl = true := by
  unfold joinOf at h
  split at h
  · cases h
    simp [suspends, heq]
  · split at h
    case h_1 hp =>
      cases h
      simp [suspends, hp, heq]
    case h_2 => cases h
  · cases h

theorem suspends_of_acquires {lbl : Label nl} {l : Fin nl} (h : Acquires m l lbl)
    (heq : m.k.lockAcquireLoop l = some (false, k')) : m.suspends lbl = true := by
  cases lbl with
  | isr c => cases h
  | call c =>
    obtain ⟨rfl, -, ho⟩ := h
    simp [suspends, Kernel.lockAcquire, ho, heq]
  | resume isr1 isr2 =>
    have hp : m.pc m.k.tp = .acquire l := h
    simp [suspends, hp, heq]

/-- The thread goes on unless the segment ends in `running_thread_suspend`. -/
theorem tp_of_step (hr : Running m.k L) (hh : Held m.k H) (hpc : m.pc idleTid = .user)
    {lbl : Label nl} (hen : m.Enabled lbl) (hst : m.step lbl = some m')
    (hsus : m.suspends lbl = false) : m'.k.tp = m.k.tp := by
  cases did_of_step hr hh hpc hen hst with
  | broadcast _ htp => exact htp
  | full => rfl
  | spawn _ _ htp => exact htp
  | yield => cases hsus
  | park hp =>
    cases hp with
    | wait => cases hsus
    | join h heq =>
      rw [suspends_of_joinOf h heq] at hsus
      cases hsus
    | acquire h _ heq =>
      rw [suspends_of_acquires h heq] at hsus
      cases hsus
  | join _ _ htp => exact htp
  | exit => cases hsus
  | bump => rfl
  | take => rfl
  | release _ _ _ hre => exact hre.tp

end Machine

namespace ProcSys

variable {nl child : Nat} {s s' : ProcSys nl} {t u : Tid} {q : Nat} {p : Process}
  {root f : BitVec 44} {idx : Fin nproc}

/-! ## The invariant -/

/-- Threads and processes. -/
structure Spaced (s : ProcSys nl) : Prop where
  mach : Machine.Inv s.m
  main : s.procs 0 = some ⟨0, s.mainMtag⟩
  idx : ∀ {q p}, s.procs q = some p → q ≠ 0 → p.idx ≠ 0
  mtag : ∀ {q p}, s.procs q = some p → p.mtag ≠ 0
  root : ∀ {q p}, s.procs q = some p → s.owner (rootPage p.mtag) = some p.mtag
  apart : ∀ {q q' p p'}, s.procs q = some p → s.procs q' = some p' → p.mtag = p'.mtag → q = q'
  idle : s.proc idleTid = none ∧ s.stage idleTid = .code
  /-- A thread that can run and does not exit has a process. -/
  thread : ∀ {t}, s.m.k.Alive t → t ≠ idleTid → s.stage t ≠ .exiting →
    ∃ q p, s.proc t = some q ∧ s.procs q = some p
  /-- No two of these threads have the same process. -/
  alone : ∀ {t u q}, s.m.k.Alive t → s.m.k.Alive u → s.stage t ≠ .exiting → s.stage u ≠ .exiting →
    s.proc t = some q → s.proc u = some q → t = u
  /-- Threads give up the processor outside of `process.c`, or have not started. -/
  parked : ∀ {t}, s.m.k.Alive t → t ≠ s.tp → s.stage t = .code ∨ ∃ c, s.stage t = .started c

/-- The active space is that of a process. -/
def OfProcess (s : ProcSys nl) : Prop := ∃ q p, s.procs q = some p ∧ s.satp = p.mtag

/-- The active space is that of the running thread's process, if there is one. -/
def OfRunning (s : ProcSys nl) : Prop :=
  s.OfProcess ∧ ∀ q, s.proc s.tp = some q → ∃ p, s.procs q = some p ∧ s.satp = p.mtag

/-- What `satp` is at each stage. -/
def Active (s : ProcSys nl) : Prop :=
  match s.stage s.tp with
  | .exiting => s.satp = s.mainMtag
  | .undoing child saved =>
      (∃ p, s.procs child = some p ∧ s.satp = p.mtag) ∧ child ≠ 0 ∧
        (∀ t, s.m.k.Alive t → s.proc t ≠ some child) ∧
        ∃ q p, s.proc s.tp = some q ∧ s.procs q = some p ∧ saved = p.mtag
  | .code | .forking _ | .started _ => s.OfRunning

theorem Active.ofProcess (h : s.Active) (hs : s.Spaced) : s.OfProcess := by
  rw [Active] at h
  split at h
  · exact ⟨0, _, hs.main, h⟩
  · obtain ⟨⟨p, hp, hsatp⟩, -⟩ := h
    exact ⟨_, p, hp, hsatp⟩
  · exact h.1
  · exact h.1
  · exact h.1

namespace Spaced

theorem alive_tp (h : s.Spaced) : s.m.k.Alive s.tp := by
  obtain ⟨L, hr⟩ := h.mach.running
  exact hr.alive_tp

theorem ne_idle (h : s.Spaced) (hproc : s.proc t = some q) : t ≠ idleTid := by
  rintro rfl
  rw [h.idle.1] at hproc
  cases hproc

/-- Another process has another root table. -/
theorem owner_ne (h : s.Spaced) {q' : Nat} {p' : Process} (hq : s.procs q = some p)
    (hq' : s.procs q' = some p') (hne : q ≠ q') : s.owner (rootPage p.mtag) ≠ some p'.mtag := by
  intro heq
  rw [h.root hq] at heq
  exact hne (h.apart hq hq' (Option.some.inj heq))

variable {m' : Machine nl}

/-- The threads change, and none of them is new. -/
theorem machine (h : s.Spaced) (hinv : Machine.Inv m')
    (halive : ∀ t, m'.k.Alive t → s.m.k.Alive t)
    (hparked : ∀ t, m'.k.Alive t → t ≠ m'.k.tp → s.stage t = .code ∨ ∃ c, s.stage t = .started c) :
    Spaced { s with m := m' } where
  mach := hinv
  main := h.main
  idx := h.idx
  mtag := h.mtag
  root := h.root
  apart := h.apart
  idle := h.idle
  thread ht := h.thread (halive _ ht)
  alone ht hu := h.alone (halive _ ht) (halive _ hu)
  parked ht hne := hparked _ ht hne

/-- The thread that runs next gets its address space. -/
theorem switchToNext (h : s.Spaced) (hof : s.OfProcess)
    (hstage : s.stage s.tp = .code ∨ ∃ c, s.stage s.tp = .started c) :
    ∃ s', s.switchToNext = some s' ∧ s'.Spaced ∧ s'.Active := by
  have hactive : ∀ s' : ProcSys nl, s'.tp = s.tp → s'.stage = s.stage → s'.OfRunning → s'.Active := by
    intro s' htp hst hrun
    rw [Active, hst, htp]
    rcases hstage with hc | ⟨c, hc⟩ <;> rw [hc] <;> exact hrun
  rw [ProcSys.switchToNext]
  cases hproc : s.proc s.tp with
  | none =>
    refine ⟨s, rfl, h, hactive s rfl rfl ⟨hof, fun q hq => ?_⟩⟩
    rw [hproc] at hq
    cases hq
  | some q =>
    have hexit : s.stage s.tp ≠ .exiting := by
      rcases hstage with hc | ⟨c, hc⟩ <;> rw [hc] <;> simp
    obtain ⟨q', p, hq', hp⟩ := h.thread h.alive_tp (h.ne_idle hproc) hexit
    rw [hproc] at hq'
    cases hq'
    refine ⟨s.switchMspace p.mtag, ?_, ⟨h.mach, h.main, h.idx, h.mtag, h.root, h.apart, h.idle,
      h.thread, h.alone, h.parked⟩, hactive _ rfl rfl ⟨⟨q, p, hp, rfl⟩, fun q' hq' => ⟨p, ?_, rfl⟩⟩⟩
    · simp only [hp, Option.map_some, if_pos (h.mtag hp)]
    · cases hproc.symm.trans hq'
      exact hp

/-- A segment of the thread manager that ends in `running_thread_suspend`. -/
theorem suspend (h : s.Spaced) (hof : s.OfProcess) {lbl : Label nl} (hen : s.m.Enabled lbl)
    (hspawn : lbl ≠ .call .spawn) (hsus : s.m.suspends lbl = true)
    (hstage : s.stage s.tp = .code ∨ ∃ isr, lbl = .call (.exit isr)) :
    ∃ s', s.segment lbl = some s' ∧ s'.Spaced ∧ s'.Active := by
  obtain ⟨⟨L, hr⟩, ⟨H, hh⟩, hpc⟩ := h.mach
  obtain ⟨m', hst, -, hinv⟩ := Machine.segment hr hh hpc hen
  have hold : ∀ t, m'.k.Alive t → s.m.k.Alive t ∧ ∀ isr, lbl = .call (.exit isr) → t ≠ s.tp := by
    intro t ht
    rcases Machine.alive_of_step hr hh hpc hen hst ht with hold | ⟨hl, -⟩
    · exact hold
    · exact absurd hl hspawn
  have hparked : ∀ t, m'.k.Alive t → s.stage t = .code ∨ ∃ c, s.stage t = .started c := by
    intro t ht
    obtain ⟨halive, hexit⟩ := hold t ht
    by_cases htp : t = s.tp
    · rcases hstage with hc | ⟨isr, hl⟩
      · rw [htp]
        exact .inl hc
      · exact absurd htp (hexit isr hl)
    · exact h.parked halive htp
  have hsp := h.machine hinv (fun t ht => (hold t ht).1) fun t ht _ => hparked t ht
  obtain ⟨s', heq, hsp', hact⟩ := hsp.switchToNext hof (hparked _ hsp.alive_tp)
  exact ⟨s', by rw [ProcSys.segment, hst, Option.bind_some, if_pos hsus, heq], hsp', hact⟩

/-- A segment of the thread manager after which the same thread goes on. -/
theorem same (h : s.Spaced) {lbl : Label nl} (hen : s.m.Enabled lbl) (hspawn : lbl ≠ .call .spawn)
    (hsus : s.m.suspends lbl = false) :
    ∃ m', s.m.step lbl = some m' ∧ m'.k.tp = s.tp ∧ (∀ t, m'.k.Alive t → s.m.k.Alive t) ∧
      Spaced { s with m := m' } := by
  obtain ⟨⟨L, hr⟩, ⟨H, hh⟩, hpc⟩ := h.mach
  obtain ⟨m', hst, -, hinv⟩ := Machine.segment hr hh hpc hen
  have htp := Machine.tp_of_step hr hh hpc hen hst hsus
  have hold : ∀ t, m'.k.Alive t → s.m.k.Alive t := by
    intro t ht
    rcases Machine.alive_of_step hr hh hpc hen hst ht with hold | ⟨hl, -⟩
    · exact hold.1
    · exact absurd hl hspawn
  exact ⟨m', hst, htp, hold, h.machine hinv hold fun t ht hne =>
    h.parked (hold t ht) (by rw [tp, ← htp]; exact hne)⟩

theorem go_on (h : s.Spaced) (hact : s.Active) {lbl : Label nl} (hen : s.m.Enabled lbl)
    (hspawn : lbl ≠ .call .spawn) (hsus : s.m.suspends lbl = false) :
    ∃ s', s.segment lbl = some s' ∧ s'.Spaced ∧ s'.Active := by
  obtain ⟨m', hst, htp, hold, hsp⟩ := h.same hen hspawn hsus
  refine ⟨{ s with m := m' }, ?_, hsp, ?_⟩
  · rw [ProcSys.segment, hst, Option.bind_some, if_neg (by rw [hsus]; simp)]
  · have htp' : ({ s with m := m' } : ProcSys nl).tp = s.tp := htp
    rw [Active] at hact ⊢
    rw [htp']
    cases hstage : s.stage s.tp with
    | exiting => simpa only [hstage] using hact
    | undoing child saved =>
      simp only [hstage] at hact ⊢
      obtain ⟨hp, h0, hno, hsaved⟩ := hact
      exact ⟨hp, h0, fun t ht => hno t (hold t ht), hsaved⟩
    | code | forking c | started c =>
      simp only [hstage] at hact ⊢
      exact ⟨hact.1, fun q hq => hact.2 q (htp' ▸ hq)⟩

/-! ## The parts of process.c -/

/-- `satp`, `proctab` and `halted` do not matter. -/
theorem congr (h : s.Spaced) (hm : s'.m = s.m) (hproc : s'.proc = s.proc) (hprocs : s'.procs = s.procs)
    (hmain : s'.mainMtag = s.mainMtag) (howner : s'.owner = s.owner) (hstage : s'.stage = s.stage) :
    s'.Spaced := by
  obtain ⟨m, proc, procs, proctab, main, satp, owner, stage, halted⟩ := s'
  cases hm
  cases hproc
  cases hprocs
  cases hmain
  cases howner
  cases hstage
  exact ⟨h.mach, h.main, h.idx, h.mtag, h.root, h.apart, h.idle, h.thread, h.alone, h.parked⟩

/-- Pages change hands, and no root table does. -/
theorem pages (h : s.Spaced) (owner : BitVec 44 → Option Word)
    (hroot : ∀ q p, s.procs q = some p → owner (rootPage p.mtag) = some p.mtag) :
    Spaced { s with owner := owner } :=
  ⟨h.mach, h.main, h.idx, h.mtag, hroot _ _, h.apart, h.idle, h.thread, h.alone, h.parked⟩

theorem stage_goto (s : ProcSys nl) (st : Stage) : (s.goto st).stage s.tp = st :=
  update_self ..

theorem stage_goto_ne (s : ProcSys nl) (st : Stage) (ht : t ≠ s.tp) :
    (s.goto st).stage t = s.stage t :=
  update_of_ne ht _ _

/-- The running thread goes on at another stage. -/
theorem goto (h : s.Spaced) (hidle : s.tp ≠ idleTid) (hnot : s.stage s.tp ≠ .exiting) (st : Stage) :
    (s.goto st).Spaced := by
  have hstage : ∀ t, (s.goto st).stage t ≠ .exiting → s.stage t ≠ .exiting := by
    intro t ht
    by_cases htp : t = s.tp
    · rw [htp]
      exact hnot
    · rwa [stage_goto_ne s st htp] at ht
  refine ⟨h.mach, h.main, h.idx, h.mtag, h.root, h.apart, ⟨h.idle.1, ?_⟩,
    fun ht hne hst => h.thread ht hne (hstage _ hst),
    fun ht hu hst hst' => h.alone ht hu (hstage _ hst) (hstage _ hst'), fun {t} ht htp => ?_⟩
  · rw [stage_goto_ne s st (Ne.symm hidle)]
    exact h.idle.2
  · rw [stage_goto_ne s st htp]
    exact h.parked ht htp

/-- No thread that can run has a process that is not there. -/
theorem proc_ne (h : s.Spaced) (hnone : s.procs q = none) (hnot : s.stage s.tp ≠ .exiting)
    (ht : s.m.k.Alive t) : s.proc t ≠ some q := by
  intro hproc
  have hstage : s.stage t ≠ .exiting := by
    by_cases htp : t = s.tp
    · rw [htp]
      exact hnot
    · rcases h.parked ht htp with hc | ⟨c, hc⟩ <;> rw [hc] <;> simp
  obtain ⟨q', p, hq', hp⟩ := h.thread ht (h.ne_idle hproc) hstage
  rw [hproc] at hq'
  cases hq'
  rw [hnone] at hp
  cases hp

/-- A process is made with an address space of its own. -/
theorem makeChild (h : s.Spaced) {pages : List (BitVec 44)} (hchild : s.procs child = none)
    (hidx : idx ≠ 0) (hroot : s.owner root = none) (hpages : ∀ f ∈ pages, s.owner f = none) :
    (s.makeChild child idx root pages).Spaced := by
  have hold : ∀ {q p}, s.procs q = some p → q ≠ child := by
    rintro q p hq rfl
    rw [hchild] at hq
    cases hq
  have hother : ∀ {q}, q ≠ child → (s.makeChild child idx root pages).procs q = s.procs q :=
    fun hq => update_of_ne hq _ _
  have hself : (s.makeChild child idx root pages).procs child = some _ := update_self ..
  have hof : ∀ {q p}, (s.makeChild child idx root pages).procs q = some p →
      q = child ∧ ⟨idx, Memory.ptabToMtag (pageptr root)⟩ = p ∨ s.procs q = some p := by
    intro q p hq
    by_cases hqc : q = child
    · subst hqc
      exact .inl ⟨rfl, Option.some.inj (hself.symm.trans hq)⟩
    · rw [hother hqc] at hq
      exact .inr hq
  have htag : ∀ {q p}, s.procs q = some p → p.mtag ≠ Memory.ptabToMtag (pageptr root) := by
    intro q p hq heq
    have hown := h.root hq
    rw [heq, rootPage_ptabToMtag, hroot] at hown
    cases hown
  refine ⟨h.mach, ?_, fun {q p} hq hne => ?_, fun {q p} hq => ?_, fun {q p} hq => ?_,
    fun {q q' p p'} hq hq' htags => ?_, h.idle, fun ht hne hst => ?_, h.alone, h.parked⟩
  · exact (hother (hold h.main)).trans h.main
  · rcases hof hq with ⟨-, rfl⟩ | hq
    · exact hidx
    · exact h.idx hq hne
  · rcases hof hq with ⟨-, rfl⟩ | hq
    · exact ptabToMtag_ne_zero _
    · exact h.mtag hq
  · rcases hof hq with ⟨-, rfl⟩ | hq
    · exact if_pos (.inl (rootPage_ptabToMtag root))
    · have hown := h.root hq
      refine (if_neg ?_).trans hown
      rintro (heq | hmem)
      · rw [heq, hroot] at hown
        cases hown
      · rw [hpages _ hmem] at hown
        cases hown
  · rcases hof hq with ⟨rfl, rfl⟩ | ho <;> rcases hof hq' with ⟨rfl, rfl⟩ | ho'
    · rfl
    · exact absurd htags.symm (htag ho')
    · exact absurd htags (htag ho)
    · exact h.apart ho ho' htags
  · obtain ⟨q, p, hq, hp⟩ := h.thread ht hne hst
    exact ⟨q, p, hq, (hother (hold hp)).trans hp⟩

/-- The process gets a thread. -/
theorem setProcess (h : s.Spaced) (c : Nat) (hinv : Machine.Inv m')
    (htp : m'.k.tp = s.tp) (hslot : s.m.k.thrtab t = false) (hp : s.procs child = some p)
    (hnew : ∀ u, s.m.k.Alive u → s.proc u ≠ some child)
    (halive : ∀ u, m'.k.Alive u → s.m.k.Alive u ∨ u = t) :
    (s.setProcess m' t child c).Spaced := by
  obtain ⟨L, hr⟩ := h.mach.running
  have hidle : idleTid ≠ t := by
    rintro rfl
    rw [hr.idle_live] at hslot
    cases hslot
  have hself : (s.setProcess m' t child c).proc t = some child := update_self ..
  have hother : ∀ {u}, u ≠ t → (s.setProcess m' t child c).proc u = s.proc u ∧
      (s.setProcess m' t child c).stage u = s.stage u :=
    fun hu => ⟨update_of_ne hu _ _, update_of_ne hu _ _⟩
  have hof : ∀ {u}, m'.k.Alive u → u = t ∨ s.m.k.Alive u ∧
      (s.setProcess m' t child c).proc u = s.proc u ∧
      (s.setProcess m' t child c).stage u = s.stage u := by
    intro u hu
    by_cases hut : u = t
    · exact .inl hut
    · exact .inr ⟨(halive u hu).resolve_right hut, hother hut⟩
  refine ⟨hinv, h.main, h.idx, h.mtag, h.root, h.apart, ?_, fun {u} hu hne hst => ?_,
    fun {u v q} hu hv hst hst' hq hq' => ?_, fun {u} hu hne => ?_⟩
  · rw [(hother hidle).1, (hother hidle).2]
    exact h.idle
  · rcases hof hu with rfl | ⟨hu, hproc, hstage⟩
    · exact ⟨child, p, hself, hp⟩
    · rw [hstage] at hst
      rw [hproc]
      exact h.thread hu hne hst
  · rcases hof hu with rfl | ⟨hold, hproc, hstage⟩ <;> rcases hof hv with rfl | ⟨hold', hproc', hstage'⟩
    · rfl
    · exact absurd (hproc'.symm.trans (hq'.trans (hq.symm.trans hself))) (hnew v hold')
    · exact absurd (hproc.symm.trans (hq.trans (hq'.symm.trans hself))) (hnew u hold)
    · rw [hproc] at hq
      rw [hproc'] at hq'
      rw [hstage] at hst
      rw [hstage'] at hst'
      exact h.alone hold hold' hst hst' hq hq'
  · rcases hof hu with rfl | ⟨hu, -, hstage⟩
    · exact .inr ⟨c, update_self ..⟩
    · rw [hstage]
      exact h.parked hu (by rw [← htp]; exact hne)

/-- A process is freed that no thread which can run has any more. -/
theorem freeProcess (h : s.Spaced) (owner : BitVec 44 → Option Word) (h0 : q ≠ 0)
    (hnone : ∀ t, s.m.k.Alive t → s.stage t ≠ .exiting → s.proc t ≠ some q)
    (hroot : ∀ q' p', q' ≠ q → s.procs q' = some p' → owner (rootPage p'.mtag) = some p'.mtag) :
    Spaced { s with procs := Function.update s.procs q none, owner := owner } := by
  have hof : ∀ {q' p'}, Function.update s.procs q none q' = some p' → q' ≠ q ∧ s.procs q' = some p' := by
    intro q' p' hq'
    by_cases hqq : q' = q
    · subst hqq
      rw [update_self] at hq'
      cases hq'
    · rw [update_of_ne hqq] at hq'
      exact ⟨hqq, hq'⟩
  refine ⟨h.mach, ?_, fun hq => h.idx (hof hq).2, fun hq => h.mtag (hof hq).2,
    fun hq => hroot _ _ (hof hq).1 (hof hq).2, fun hq hq' => h.apart (hof hq).2 (hof hq').2, h.idle,
    fun {t} ht hne hst => ?_, h.alone, h.parked⟩
  · show Function.update s.procs q none 0 = _
    rw [update_of_ne (Ne.symm h0)]
    exact h.main
  · obtain ⟨q', p', hq', hp'⟩ := h.thread ht hne hst
    refine ⟨q', p', hq', (update_of_ne ?_ _ _).trans hp'⟩
    rintro rfl
    exact hnone t ht hst hq'

end Spaced

/-! ## Runs -/

/-- The act is done, and the invariant holds afterwards. -/
def Good (r : Option (ProcSys nl)) : Prop := ∃ s', r = some s' ∧ s'.Spaced ∧ s'.Active

theorem Active.satp (h : s.Active) (hstage : s.stage s.tp = .code) (hproc : s.proc s.tp = some q)
    (hp : s.procs q = some p) : s.satp = p.mtag := by
  rw [Active, hstage] at h
  obtain ⟨p', hp', hsatp⟩ := h.2 q hproc
  rw [hp] at hp'
  cases hp'
  exact hsatp

theorem OfRunning.active (h : s.OfRunning)
    (hstage : s.stage s.tp = .code ∨ ∃ c, s.stage s.tp = .forking c) : s.Active := by
  rw [Active]
  rcases hstage with hc | ⟨c, hc⟩ <;> rw [hc] <;> exact h

theorem ne_idle (hen : s.m.Enabled (.call c)) (hc : c ≠ .yield) : s.tp ≠ idleTid :=
  fun htp => hc (hen.2.1 htp)

theorem spawn_not_plain {lbl : Label nl} (h : plain lbl = true) : lbl ≠ .call .spawn := by
  rintro rfl
  cases h

theorem good_thread (h : s.Spaced) (hact : s.Active) {lbl : Label nl} (hen : s.Enabled (.thread lbl)) :
    Good (s.segment lbl) := by
  cases hsus : s.m.suspends lbl with
  | false =>
    cases lbl with
    | isr c => exact h.go_on hact trivial nofun hsus
    | call c => exact h.go_on hact hen.2.2.1 (spawn_not_plain hen.2.2.2) hsus
    | resume isr1 isr2 => exact h.go_on hact hen.2.2.1 nofun hsus
  | true =>
    cases lbl with
    | isr c => cases hsus
    | call c =>
      exact h.suspend (hact.ofProcess h) hen.2.2.1 (spawn_not_plain hen.2.2.2) hsus (.inl hen.2.1)
    | resume isr1 isr2 => exact h.suspend (hact.ofProcess h) hen.2.2.1 nofun hsus (.inl hen.2.1)

theorem good_take (h : s.Spaced) (hact : s.Active) (hen : s.Enabled (.take f)) :
    Good (s.step (.take f)) := by
  refine ⟨_, rfl, h.pages _ fun q p hq => ?_, hact⟩
  have hown := h.root hq
  rw [update_of_ne, hown]
  rintro rfl
  rw [hen.2] at hown
  cases hown

theorem good_give (h : s.Spaced) (hact : s.Active) (hen : s.Enabled (.give f)) :
    Good (s.step (.give f)) := by
  refine ⟨_, rfl, h.pages _ fun q p hq => ?_, hact⟩
  have hown := h.root hq
  rw [update_of_ne, hown]
  rintro rfl
  obtain ⟨-, hgive, hne⟩ := hen
  rw [hgive] at hown
  rw [Option.some.inj hown] at hne
  exact hne rfl

theorem freeIdx_spec (h : s.freeIdx = some idx) : idx ≠ 0 := by
  have := List.find?_some h
  simp only [Bool.and_eq_true, decide_eq_true_eq] at this
  exact this.1

section

variable (h : s.Spaced) (hact : s.Active)

include h hact

variable {c : Nat}

theorem good_fork {mem : Option Nat} {clone : Option (BitVec 44 × List (BitVec 44))}
    (hen : s.Enabled (.fork mem clone c)) : Good (s.processFork mem clone c) := by
  obtain ⟨-, hstage, hspawn, hmem, hclone, -⟩ := hen
  have hidle := ne_idle hspawn nofun
  have hnot : s.stage s.tp ≠ .exiting := by
    rw [hstage]
    simp
  obtain ⟨q, p, hproc, hp⟩ := h.thread h.alive_tp hidle hnot
  cases hidx : s.freeIdx with
  | none => exact ⟨s, by simp only [processFork, hproc, hidx], h, hact⟩
  | some idx =>
    cases mem with
    | none => exact ⟨s, by simp only [processFork, hproc, hidx], h, hact⟩
    | some child =>
      cases clone with
      | none => exact ⟨s, by simp only [processFork, hproc, hidx], h, hact⟩
      | some x =>
        obtain ⟨root, pages⟩ := x
        have hchild : s.procs child = none := by simpa using hmem
        obtain ⟨hroot, hpages⟩ : s.owner root = none ∧ ∀ f ∈ pages, s.owner f = none := by
          simpa using hclone
        have hmade := h.makeChild hchild (freeIdx_spec hidx) hroot hpages
        have hqc : q ≠ child := by
          rintro rfl
          rw [hchild] at hp
          cases hp
        have hkeep : (s.makeChild child idx root pages).procs q = some p :=
          (update_of_ne hqc _ _).trans hp
        have hself : (s.makeChild child idx root pages).procs child =
            some ⟨idx, Memory.ptabToMtag (pageptr root)⟩ := update_self ..
        have hnew : ∀ u, s.m.k.Alive u → s.proc u ≠ some child := fun u => h.proc_ne hchild hnot
        have hsatp := hact.satp hstage hproc hp
        obtain ⟨⟨L, hr⟩, ⟨H, hh⟩, hpc⟩ := h.mach
        obtain ⟨m', hst, -, hinv⟩ := Machine.segment hr hh hpc hspawn
        have hstep : (s.makeChild child idx root pages).m.step (.call .spawn) = some m' := hst
        cases hslot : s.m.k.freeSlot with
        | none =>
          have hslot' : (s.makeChild child idx root pages).m.k.freeSlot = none := hslot
          have heq : s.processFork (some child) (some (root, pages)) c =
              some (((s.makeChild child idx root pages).switchMspace
                (Memory.ptabToMtag (pageptr root))).goto (.undoing child s.satp)) := by
            simp only [processFork, hproc, hidx, hstep, Option.map_some, hslot']
            rfl
          refine ⟨_, heq, (hmade.goto hidle hnot (.undoing child s.satp)).congr rfl rfl rfl rfl rfl rfl, ?_⟩
          rw [Active]
          simp only [ProcSys.goto, update_self]
          have h0 : child ≠ 0 := by
            rintro rfl
            rw [h.main] at hchild
            cases hchild
          exact ⟨⟨_, hself, rfl⟩, h0, hnew, q, p, hproc, hkeep, hsatp⟩
        | some t =>
          have hslot' : (s.makeChild child idx root pages).m.k.freeSlot = some t := hslot
          have htp := Machine.tp_of_step hr hh hpc hspawn hst rfl
          have hlive : s.tp ≠ t := by
            rintro rfl
            have hfree := Kernel.free_of_freeSlot hslot
            rw [hr.tp_live] at hfree
            cases hfree
          have hthr := hmade.setProcess c hinv htp (Kernel.free_of_freeSlot hslot) hself hnew fun u hu => by
            rcases Machine.alive_of_step hr hh hpc hspawn hst hu with hold | ⟨-, hu⟩
            · exact .inl hold.1
            · rw [hslot] at hu
              exact .inr (Option.some.inj hu).symm
          have htp' : ((s.makeChild child idx root pages).setProcess m' t child c).tp = s.tp := htp
          have hstage' : ((s.makeChild child idx root pages).setProcess m' t child c).stage s.tp =
              s.stage s.tp := update_of_ne hlive _ _
          have heq : s.processFork (some child) (some (root, pages)) c =
              some ({ (s.makeChild child idx root pages).setProcess m' t child c with
                proctab := Function.update s.proctab idx (some child) }.goto (.forking c)) := by
            simp only [processFork, hproc, hidx, hstep, Option.map_some, hslot']
            rfl
          refine ⟨_, heq,
            (hthr.goto (htp'.symm ▸ hidle) ?_ (.forking c)).congr rfl rfl rfl rfl rfl rfl,
            OfRunning.active ⟨⟨q, p, hkeep, hsatp⟩, fun q' hq' => ⟨p, ?_, hsatp⟩⟩
              (.inr ⟨c, Spaced.stage_goto _ _⟩)⟩
          · show ((s.makeChild child idx root pages).setProcess m' t child c).stage m'.k.tp ≠ _
            rw [htp, hstage']
            exact hnot
          · have hq : Function.update s.proc t (some child) m'.k.tp = some q' := hq'
            rw [htp, update_of_ne hlive, hproc] at hq
            cases hq
            exact hkeep

theorem good_wait (hen : s.Enabled (.wait c)) : Good (s.forkWait c) := by
  obtain ⟨-, hstage, hen⟩ := hen
  have hmove := h.goto (ne_idle hen nofun) (by rw [hstage]; simp) .code
  exact hmove.suspend (hact.ofProcess h) hen nofun rfl (.inl (Spaced.stage_goto s .code))

theorem good_undo {saved : Word}
    (hen : s.Enabled (.undo child saved)) : Good (some (s.forkUndo child saved)) := by
  obtain ⟨-, hstage⟩ := hen
  rw [Active, hstage] at hact
  obtain ⟨⟨p, hp, hsatp⟩, h0, hno, q, pq, hproc, hpq, hsaved⟩ := hact
  have hqc : q ≠ child := by
    rintro rfl
    exact hno s.tp h.alive_tp hproc
  have hfree := h.freeProcess s.resetActiveMspace.owner h0 (fun t ht _ => hno t ht)
    fun q' p' hne hq' => by
      refine (if_neg ?_).trans (h.root hq')
      rw [hsatp]
      exact fun heq => h.owner_ne hq' hp hne heq.1
  have hkeep : Function.update s.procs child none q = some pq :=
    (update_of_ne hqc _ _).trans hpq
  have hnot : s.stage s.tp ≠ .exiting := by
    rw [hstage]
    simp
  refine ⟨_, rfl, (hfree.goto (h.ne_idle hproc) hnot .code).congr rfl rfl rfl rfl rfl rfl,
    OfRunning.active ⟨⟨q, pq, hkeep, hsaved⟩, fun q' hq' => ⟨pq, ?_, hsaved⟩⟩
      (.inl (Spaced.stage_goto _ _))⟩
  cases hproc.symm.trans hq'
  exact hkeep

theorem good_start (hen : s.Enabled (.start c)) : Good (s.forkFunc c) := by
  obtain ⟨-, hstage, hen⟩ := hen
  obtain ⟨m', hst, htp, -, hsp⟩ := h.same hen nofun rfl
  have hmove := hsp.goto (by show m'.k.tp ≠ _; rw [htp]; exact ne_idle hen nofun)
    (by show s.stage m'.k.tp ≠ _; rw [htp, hstage]; simp) .code
  simp only [forkFunc, hst, Option.bind_some]
  exact hmove.switchToNext (hact.ofProcess h) (.inl (Spaced.stage_goto _ _))

theorem good_exit (hen : s.Enabled .exit) : Good (s.processExit) := by
  obtain ⟨-, hstage, hspawn⟩ := hen
  have hidle := ne_idle hspawn nofun
  have hnot : s.stage s.tp ≠ .exiting := by
    rw [hstage]
    simp
  obtain ⟨q, p, hproc, hp⟩ := h.thread h.alive_tp hidle hnot
  have hsatp := hact.satp hstage hproc hp
  have hexit : ∀ s' : ProcSys nl, s'.satp = s'.mainMtag → (s'.goto .exiting).Active := by
    intro s' hmain
    rw [Active]
    simp only [ProcSys.goto, update_self]
    exact hmain
  rw [processExit]
  simp only [hproc, hp, Option.map_some]
  split
  case isTrue hidx =>
    have h0 : q ≠ 0 := by
      rintro rfl
      rw [h.main] at hp
      cases hp
      exact hidx rfl
    have hnone : ∀ t, (s.goto .exiting).m.k.Alive t → (s.goto .exiting).stage t ≠ .exiting →
        (s.goto .exiting).proc t ≠ some q := by
      intro t ht hst hq
      by_cases htp : t = s.tp
      · subst htp
        exact hst (Spaced.stage_goto s .exiting)
      · rw [Spaced.stage_goto_ne s _ htp] at hst
        exact htp (h.alone ht h.alive_tp hst hnot hq hproc)
    have hfree := (h.goto hidle hnot .exiting).freeProcess s.discardActiveMspace.owner h0 hnone
      fun q' p' hne hq' => by
        refine (if_neg ?_).trans (h.root hq')
        rw [hsatp]
        rintro (heq | heq)
        · exact h.owner_ne hq' hp hne heq
        · exact h.owner_ne hq' hp hne ((congrArg s.owner heq).trans (h.root hp))
    exact ⟨_, rfl, Spaced.congr hfree rfl rfl rfl rfl rfl rfl, hexit _ rfl⟩
  case isFalse hidx =>
    have h0 : q = 0 := by
      by_contra hne
      exact hidx (h.idx hp hne)
    subst h0
    rw [h.main] at hp
    cases hp
    have hpages := h.pages s.resetActiveMspace.owner fun q' p' hq' => by
      have hown := h.root hq'
      refine (if_neg ?_).trans hown
      rintro ⟨heq, hne⟩
      rw [hown] at heq
      rw [Option.some.inj heq] at hne
      exact hne rfl
    exact ⟨_, rfl, (hpages.goto hidle hnot .exiting).congr rfl rfl rfl rfl rfl rfl,
      hexit _ hsatp⟩

theorem good_last {isr : List (Cond nl)} (hen : s.Enabled (.last isr)) :
    Good (s.threadExit isr) := by
  obtain ⟨-, hstage, hen⟩ := hen
  rw [threadExit]
  split
  case isTrue => exact ⟨_, rfl, h.congr rfl rfl rfl rfl rfl rfl, hact⟩
  case isFalse hne => exact h.suspend (hact.ofProcess h) (hen hne) nofun rfl (.inr ⟨isr, rfl⟩)

/-- Every act that can come next is done, and keeps the invariant. -/
theorem good_step {a : Act nl} (hen : s.Enabled a) : Good (s.step a) := by
  cases a with
  | thread lbl => exact good_thread h hact hen
  | take f => exact good_take h hact hen
  | give f => exact good_give h hact hen
  | fork mem clone c => exact good_fork h hact hen
  | wait c => exact good_wait h hact hen
  | undo child saved => exact good_undo h hact hen
  | start c => exact good_start h hact hen
  | exit => exact good_exit h hact hen
  | last isr => exact good_last h hact hen

end

theorem boot_spaced (root : BitVec 44) : (boot root : ProcSys nl).Spaced := by
  have hprocs : ∀ {q p}, (boot root : ProcSys nl).procs q = some p →
      q = 0 ∧ p = ⟨0, Memory.ptabToMtag (pageptr root)⟩ := by
    intro q p hq
    simp only [boot] at hq
    split at hq
    case isTrue h0 => exact ⟨h0, (Option.some.inj hq).symm⟩
    case isFalse => cases hq
  have halive : ∀ {t}, (boot root : ProcSys nl).m.k.Alive t → t ≠ idleTid → t = mainTid := by
    rintro t ⟨hl, -⟩ hne
    rcases Kernel.init_cases hl with ⟨ht, -⟩ | ⟨ht, -⟩
    · exact ht
    · exact absurd ht hne
  refine ⟨Machine.init_inv, rfl, fun hq h0 => absurd (hprocs hq).1 h0, fun hq => ?_, fun hq => ?_,
    fun hq hq' _ => (hprocs hq).1.trans (hprocs hq').1.symm, ⟨rfl, rfl⟩, fun {t} ht hne _ => ?_,
    fun {t u q} ht hu _ _ hq hq' => ?_, fun _ _ => .inl rfl⟩
  · rw [(hprocs hq).2]
    exact ptabToMtag_ne_zero _
  · rw [(hprocs hq).2]
    exact if_pos (rootPage_ptabToMtag root)
  · refine ⟨0, _, ?_, rfl⟩
    rw [halive ht hne]
    rfl
  · have hmain : ∀ {t}, (boot root : ProcSys nl).proc t = some q → t = mainTid := by
      intro t ht
      simp only [boot] at ht
      split at ht
      case isTrue h => exact h
      case isFalse => cases ht
    rw [hmain hq, hmain hq']

theorem boot_active (root : BitVec 44) : (boot root : ProcSys nl).Active := by
  refine OfRunning.active ⟨⟨0, _, rfl, rfl⟩, fun q hq => ?_⟩ (.inl rfl)
  have h0 : (0 : Nat) = q := Option.some.inj hq
  subst h0
  exact ⟨_, rfl, rfl⟩

theorem Run.spaced (h : Run root s) : s.Spaced ∧ s.Active := by
  induction h with
  | boot => exact ⟨boot_spaced root, boot_active root⟩
  | step _ hen hst ih =>
    obtain ⟨s', heq, hsp, hact⟩ := good_step ih.1 ih.2 hen
    rw [hst] at heq
    cases heq
    exact ⟨hsp, hact⟩

/-- The active address space over whole runs.  It is the main one or that of a process which has
not exited, and its root table has not been freed.  When the running thread has a process, it is
that of the process, except at the end of `process_exit` and where `process_fork` clears the space
of a child that got no thread.  No act fails an assertion or uses a freed process. -/
theorem active_space_not_freed {root : BitVec 44} (h : Run root s) :
    (s.satp = s.mainMtag ∨ ∃ q p, q ≠ 0 ∧ s.procs q = some p ∧ s.satp = p.mtag) ∧
      s.owner (rootPage s.satp) = some s.satp ∧
      (∀ q, s.proc s.tp = some q → s.stage s.tp ≠ .exiting →
        (∀ child saved, s.stage s.tp ≠ .undoing child saved) →
        ∃ p, s.procs q = some p ∧ s.satp = p.mtag) ∧
      ∀ a, s.Enabled a → ∃ s', s.step a = some s' := by
  obtain ⟨hsp, hact⟩ := h.spaced
  obtain ⟨q, p, hp, hsatp⟩ := hact.ofProcess hsp
  refine ⟨?_, ?_, fun q' hq' hexit hundo => ?_, fun a hen => ?_⟩
  · by_cases h0 : q = 0
    · subst h0
      rw [hsp.main] at hp
      cases hp
      exact .inl hsatp
    · exact .inr ⟨q, p, h0, hp, hsatp⟩
  · rw [hsatp]
    exact hsp.root hp
  · rw [Active] at hact
    cases hstage : s.stage s.tp with
    | exiting => exact absurd hstage hexit
    | undoing child saved => exact absurd hstage (hundo child saved)
    | code | forking c | started c =>
      simp only [hstage] at hact
      exact hact.2 q' hq'
  · obtain ⟨s', heq, -⟩ := good_step hsp hact hen
    exact ⟨s', heq⟩

section Exec

/-- The state after given acts, if each of them can come next. -/
def exec (s : ProcSys nl) : List (Act nl) → Option (ProcSys nl)
  | [] => some s
  | a :: as => if s.Enabled a then (s.step a).bind fun s' => exec s' as else none

theorem Run.exec {as : List (Act nl)} (h : Run root s)
    (heq : ProcSys.exec s as = some s') : Run root s' :=
  keeps_of_run (fun _ => rfl) (fun _ _ _ => rfl) (fun h => h.step) h heq

end Exec

/-- The child of a fork starts and waits, and the idle thread runs on its address space; the child
has not exited. -/
theorem active_space_not_freed_idle : ∃ s : ProcSys 0, Run 7 s ∧ s.tp = idleTid ∧
    s.satp = Memory.ptabToMtag (pageptr 9) ∧ s.owner (rootPage s.satp) = some s.satp := by
  have heval : (exec (boot 7 : ProcSys 0) [.fork (some 1) (some (9, [10])) 5, .wait 5,
      .thread (.call .yield), .start 5, .thread (.call (.wait (.other 6) [] []))]).map
      (fun s => (s.tp, s.satp)) = some (idleTid, Memory.ptabToMtag (pageptr 9)) := by
    decide +kernel
  obtain ⟨s, hs, hstate⟩ := Option.map_eq_some_iff.mp heval
  have hrun : Run 7 s := Run.boot.exec hs
  obtain ⟨htp, hsatp⟩ := Prod.mk.inj hstate
  exact ⟨s, hrun, htp, hsatp, (active_space_not_freed hrun).2.1⟩

end ProcSys

end MiniOs
