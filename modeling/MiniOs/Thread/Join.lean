import MiniOs.Thread.Tree

/-!
# Joins over whole runs

`Effect` lists what a segment can do to the thread tree and to the threads that wait for a
child.  An exit wakes the parent, and only the parent takes an exited thread out of the tree,
so a thread that waits in `thread_join` has missed no exit.

A slot of `thrtab` is used again, so a thread is named by its slot and the number of threads
made in that slot so far.  `Census` keeps these numbers, and the threads that were reclaimed.
-/

namespace MiniOs.Machine

open Kernel (Running Held SameTree Spawned Ended Reclaimed Family)
open Function (update_of_ne)

variable {nl : Nat} {m m' : Machine nl} {L L' : ListRef nl → List Tid}
  {lbl : Label nl} {isr₁ isr₂ : List (Cond nl)} {g : Census}

/-- The argument and the result of `thread_join`, in the segment that returns from it. -/
def joined (m : Machine nl) (lbl : Label nl) : Option (Int × Int) :=
  (m.joinOf lbl).bind fun (tid, isr₁, isr₂) =>
    (m.k.threadJoin tid isr₁ isr₂).bind fun (r, _) => r.map fun r => (tid, r)

/-- The thread that a segment hands to `thread_reclaim`. -/
def reclaims (m : Machine nl) (lbl : Label nl) : Option Tid :=
  (m.joinOf lbl).bind fun (tid, _) => m.k.exitedChild tid

/-! ## What a segment does to the tree -/

/-- A thread that waits after the segment waited before, and goes on at the same place. -/
def Stays (m : Machine nl) (L : ListRef nl → List Tid) (m' : Machine nl)
    (L' : ListRef nl → List Tid) : Prop :=
  ∀ t c, t ∈ L' (.wait c) → t ∈ L (.wait c) ∧ m'.pc t = m.pc t

inductive Effect (m : Machine nl) (L : ListRef nl → List Tid) (lbl : Label nl) (m' : Machine nl)
    (L' : ListRef nl → List Tid) : Prop where
  /-- Nothing, but the running thread may wait for something else than its children. -/
  | same : SameTree m.k m'.k → m.joinOf lbl = none →
      (∀ t c, t ∈ L' (.wait c) → t ∈ L (.wait c) ∧ m'.pc t = m.pc t ∨
        (∀ u, c ≠ .childExit u) ∧ ∀ tid, m'.pc t ≠ .join tid) → Effect m L lbl m' L'
  | spawn (t : Tid) : Spawned m.k m'.k t → m.joinOf lbl = none → Stays m L m' L' →
      Effect m L lbl m' L'
  /-- The running thread exits, and its parent does not wait any more. -/
  | exit : Ended m.k m'.k → m.joinOf lbl = none → Stays m L m' L' →
      (∀ p, m.k.ParentOf m.k.tp p → p ∉ L' (.wait (.childExit p))) → Effect m L lbl m' L'
  | reclaim (tid : Int) (c : Tid) : m.reclaims lbl = some c → m.joined lbl = some (tid, (c.val : Int)) →
      m.k.Matches m.k.tp tid c → Reclaimed m.k m'.k c → Stays m L m' L' → Effect m L lbl m' L'
  | refuse (tid : Int) : m.reclaims lbl = none → m.joined lbl = some (tid, -EINVAL) →
      SameTree m.k m'.k → Stays m L m' L' → Effect m L lbl m' L'
  | wait (tid : Int) : m.reclaims lbl = none → m.joined lbl = none → SameTree m.k m'.k →
      (∃ c, m.k.Matches m.k.tp tid c) →
      (∀ c, m.k.Matches m.k.tp tid c → (m.k.thr c).state ≠ .exited) →
      (∀ t c, t ∈ L' (.wait c) → t ∈ L (.wait c) ∧ m'.pc t = m.pc t ∨
        t = m.k.tp ∧ c = .childExit m.k.tp ∧ m'.pc t = .join tid) → Effect m L lbl m' L'

section Segment

variable {H : Tid → List (Fin nl)} {ts : List Tid} {k' : Kernel nl}

theorem Acquires.joinOf {l : Fin nl} (h : Acquires m l lbl) : m.joinOf lbl = none := by
  cases lbl with
  | isr c => rfl
  | call c =>
    rw [h.1]
    rfl
  | resume isr₁ isr₂ =>
    have hp : m.pc m.k.tp = .acquire l := h
    simp only [Machine.joinOf, hp]

/-- A thread that waits after the running thread was put on the wait list of `c`. -/
theorem mem_wait_of_parked (hr : Running m.k L) {c c' : Cond nl}
    {t : Tid} (k' : Kernel nl) (p : Pc nl)
    (ht : t ∈ Function.update (Kernel.waitLists L c m.k.tp isr₁ isr₂) .ready ts (.wait c')) :
    t ∈ L (.wait c') ∧ (m.goto k' m.k.tp p).pc t = m.pc t ∨
      t = m.k.tp ∧ c' = c ∧ (m.goto k' m.k.tp p).pc t = p := by
  rw [update_of_ne (by simp)] at ht
  rcases Kernel.mem_wait_waitLists ht with ht | ⟨rfl, rfl⟩
  · exact .inl ⟨ht, goto_pc_of_ne _ (fun h => hr.off _ (h ▸ ht)) _⟩
  · exact .inr ⟨rfl, rfl, goto_pc_self ..⟩

/-- A turn of the loop of `thread_join`. -/
theorem effect_join (hr : Running m.k L) (hf : Family m.k) {tid : Int}
    (hlbl : m.joinOf lbl = some (tid, isr₁, isr₂)) {r : Int}
    (heq : m.k.threadJoin tid isr₁ isr₂ = some (some r, k')) :
    Effect m L lbl (m.goto k' m.k.tp .user) L := by
  have hstays : Stays m L (m.goto k' m.k.tp .user) L := fun t c ht =>
    ⟨ht, goto_pc_of_ne _ (fun h => hr.off _ (h ▸ ht)) _⟩
  have hrecl : m.reclaims lbl = m.k.exitedChild tid := by
    rw [reclaims, hlbl]
    rfl
  have hjoined : m.joined lbl = some (tid, r) := by
    simp only [joined, hlbl, Option.bind_some, heq, Option.map_some]
  rcases Kernel.threadJoin_tree hf heq with ⟨c, hc, hr', hmatch, hre⟩ | ⟨hc, hr', rfl⟩ | ⟨-, hr', -⟩
  · cases hr'
    exact .reclaim tid c (hrecl.trans hc) hjoined hmatch hre hstays
  · cases hr'
    exact .refuse tid (hrecl.trans hc) hjoined ⟨rfl, fun _ => rfl, fun _ => id⟩ hstays
  · cases hr'

/-- The running thread waits. -/
theorem effect_park (hr : Running m.k L) (hf : Family m.k) {c : Cond nl} {p : Pc nl}
    (hp : Parks m k' lbl c isr₁ isr₂ p) (hsame : Kernel.Reshuffled m.k k') :
    Effect m L lbl (m.goto k' m.k.tp p)
      (Function.update (Kernel.waitLists L c m.k.tp isr₁ isr₂) .ready ts) := by
  cases hp with
  | wait hne =>
    refine .same hsame.sameTree rfl fun t c' ht => ?_
    rcases mem_wait_of_parked hr k' .user ht with ht | ⟨-, rfl, hpc⟩
    · exact .inl ht
    · exact .inr ⟨hne, fun tid => by rw [hpc]; simp⟩
  | acquire hlbl =>
    refine .same hsame.sameTree hlbl.joinOf fun t c' ht => ?_
    rcases mem_wait_of_parked hr k' (.acquire _) ht with ht | ⟨-, rfl, hpc⟩
    · exact .inl ht
    · exact .inr ⟨fun u => by simp, fun tid => by rw [hpc]; simp⟩
  | @join _ tid _ _ hlbl heq =>
    rcases Kernel.threadJoin_tree hf heq with ⟨c, -, hr', -⟩ | ⟨-, hr', -⟩ | ⟨hc, -, -, hex, hnone⟩
    · cases hr'
    · cases hr'
    refine .wait tid ?_ ?_ hsame.sameTree hex hnone fun t c' ht => ?_
    · rw [reclaims, hlbl]
      exact hc
    · simp only [joined, hlbl, Option.bind_some, heq, Option.map_none]
    · exact mem_wait_of_parked hr k' (.join tid) ht

theorem Did.effect (hd : Did m L lbl m') (hr : Running m.k L) (hh : Held m.k H)
    (hf : Family m.k) : ∃ L', Running m'.k L' ∧ Effect m L lbl m' L' := by
  cases hd with
  | @broadcast _ c _ hlbl _ hrun hsame =>
    refine ⟨_, hrun, .same hsame.sameTree ?_ fun t c' ht =>
      .inl ⟨(Kernel.mem_wait_foldl_woken [c] ht).1, rfl⟩⟩
    rcases hlbl with rfl | rfl
    · rfl
    · rfl
  | full => exact ⟨L, hr, .same ⟨rfl, fun _ => rfl, fun _ => id⟩ rfl fun t c ht => .inl ⟨ht, rfl⟩⟩
  | @spawn t k' hslot heq _ _ hrun =>
    have hfree := Kernel.free_of_freeSlot hslot
    rcases Kernel.threadSpawn_tree heq with ⟨hslot', -⟩ | ⟨t', hslot', hsp⟩
    · rw [hslot] at hslot'
      cases hslot'
    · rw [hslot] at hslot'
      cases hslot'
      refine ⟨_, hrun, .spawn t hsp rfl fun u c hu => ?_⟩
      have hu' : u ∈ L (.wait c) := by simpa [Kernel.appended] using hu
      refine ⟨hu', goto_pc_of_ne _ ?_ _⟩
      rintro rfl
      rw [hr.live_of_mem hu'] at hfree
      cases hfree
  | yield _ hrun hsame =>
    refine ⟨_, hrun, .same hsame.sameTree rfl fun t c ht => .inl ⟨?_, rfl⟩⟩
    simpa [Kernel.appended] using ht
  | park hp _ hrun hsame => exact ⟨_, hrun, effect_park hr hf hp hsame⟩
  | join hlbl heq _ _ hrun => exact ⟨L, hrun, effect_join hr hf hlbl heq⟩
  | @exit isr _ hidle heq =>
    obtain ⟨k1, k', L1, H', ts, heq', hdr, -, hk1, -, hrun, -, hended, -⟩ :=
      Running.threadExit (p := fun _ L1 => ∀ t c, t ∈ L1 (.wait c) → t ∈ L (.wait c))
        (fun _ _ _ hsub t c ht => hsub t c (Kernel.mem_wait_releasedLists ht)) hr hh (fun _ _ => id)
        hidle isr
    rw [heq] at heq'
    cases heq'
    refine ⟨_, hrun, .exit hended rfl (fun t c ht => ⟨?_, rfl⟩) fun p hp hmem => ?_⟩
    · rw [update_of_ne (by simp)] at ht
      exact hk1 t c (Kernel.mem_wait_foldl_woken _ ht).1
    · rw [update_of_ne (by simp)] at hmem
      refine (Kernel.mem_wait_foldl_woken _ hmem).2 (List.mem_append_left _ ?_)
      exact Kernel.mem_exitConds.mpr ⟨p, hp, rfl⟩
  | bump =>
    exact ⟨L, hr.congr rfl rfl rfl rfl fun _ => ⟨rfl, rfl⟩,
      .same ⟨rfl, fun _ => rfl, fun _ => id⟩ rfl fun t c ht => .inl ⟨ht, rfl⟩⟩
  | @take _ l hlbl =>
    have hstate : ∀ t, ((m.k.taken l).thr t).state = (m.k.thr t).state :=
      proj_update (p := Thread.state) (by rfl)
    exact ⟨L, hr.taken l, .same ⟨rfl, proj_update (p := Thread.parent) (by rfl), fun t ht =>
      (hstate t).symm.trans ht⟩ hlbl.joinOf fun t c ht =>
        .inl ⟨ht, goto_pc_of_ne _ (fun h => hr.off _ (h ▸ ht)) _⟩⟩
  | release _ hrun _ hre =>
    exact ⟨_, hrun, .same hre.sameTree rfl fun t c ht => .inl ⟨Kernel.mem_wait_releasedLists ht, rfl⟩⟩

/-- Every segment does one of these things. -/
theorem effect (hr : Running m.k L) (hh : Held m.k H) (hf : Family m.k)
    (hpc : m.pc idleTid = .user) (hen : m.Enabled lbl)
    (hst : m.step lbl = some m') : ∃ L', Running m'.k L' ∧ Effect m L lbl m' L' :=
  (did_of_step hr hh hpc hen hst).effect hr hh hf

end Segment

/-! ## No exit is missed -/

/-- The tree, and the threads that wait for a child. -/
structure Kindred (m : Machine nl) (L : ListRef nl → List Tid) : Prop where
  family : Family m.k
  /-- A thread that waits for its children is in `thread_join`, and has not missed an exit. -/
  awaits : ∀ t, t ∈ L (.wait (.childExit t)) → ∃ tid, m.pc t = .join tid ∧
    (∃ c, m.k.Matches t tid c) ∧ ∀ c, m.k.Matches t tid c → (m.k.thr c).state ≠ .exited
  /-- In `thread_join` a thread waits for nothing else. -/
  only : ∀ t c tid, t ∈ L (.wait c) → m.pc t = .join tid → c = .childExit t

theorem Effect.kindred (he : Effect m L lbl m' L') (hr : Running m.k L)
    (h : Kindred m L) : Kindred m' L' := by
  have hmatch : SameTree m.k m'.k → ∀ t tid c, m'.k.Matches t tid c ↔ m.k.Matches t tid c := by
    intro hs t tid c
    rw [Kernel.Matches, Kernel.ParentOf, hs.thrtab, hs.parent]
    rfl
  have hkeep : SameTree m.k m'.k → ∀ t, t ∈ L (.wait (.childExit t)) → m'.pc t = m.pc t →
      ∃ tid, m'.pc t = .join tid ∧ (∃ c, m'.k.Matches t tid c) ∧
        ∀ c, m'.k.Matches t tid c → (m'.k.thr c).state ≠ .exited := by
    intro hs t ht hp
    obtain ⟨tid, hpc, ⟨c, hc⟩, hnone⟩ := h.awaits t ht
    refine ⟨tid, hp.trans hpc, ⟨c, (hmatch hs t tid c).mpr hc⟩, fun c hc hex => ?_⟩
    exact hnone c ((hmatch hs t tid c).mp hc) (hs.exited c hex)
  have honly : Stays m L m' L' → ∀ t c tid, t ∈ L' (.wait c) → m'.pc t = .join tid →
      c = .childExit t := by
    intro hs t c tid ht hp
    obtain ⟨ht, hpc⟩ := hs t c ht
    exact h.only t c tid ht (hpc ▸ hp)
  cases he with
  | same hs _ hw =>
    refine ⟨h.family.congr hs.thrtab hs.parent, fun t ht => ?_, fun t c tid ht hp => ?_⟩
    · rcases hw t _ ht with ⟨ht, hp⟩ | ⟨hne, -⟩
      · exact hkeep hs t ht hp
      · exact absurd rfl (hne t)
    · rcases hw t c ht with ⟨ht, hpc⟩ | ⟨-, hne⟩
      · exact h.only t c tid ht (hpc ▸ hp)
      · exact absurd hp (hne tid)
  | spawn u hs _ hw =>
    have hlive : ∀ c, m.k.thrtab c = true → c ≠ u := by
      rintro c hc rfl
      rw [hs.free] at hc
      cases hc
    refine ⟨hs.family h.family hr.tp_live, fun t ht => ?_, honly hw⟩
    obtain ⟨ht, hp⟩ := hw t _ ht
    obtain ⟨tid, hpc, ⟨c, hl, hpar, hm⟩, hnone⟩ := h.awaits t ht
    refine ⟨tid, hp.trans hpc, ⟨c, ?_, ?_, hm⟩, fun c' hc hex => ?_⟩
    · rw [hs.thrtab, update_of_ne (hlive c hl)]
      exact hl
    · rw [Kernel.ParentOf, hs.others c (hlive c hl)]
      exact hpar
    · by_cases hcu : c' = u
      · subst hcu
        rw [hs.state] at hex
        cases hex
      · obtain ⟨hl', hpar', hm'⟩ := hc
        rw [hs.thrtab, update_of_ne hcu] at hl'
        rw [Kernel.ParentOf, hs.others c' hcu] at hpar'
        rw [hs.others c' hcu] at hex
        exact hnone c' ⟨hl', hpar', hm'⟩ hex
  | exit hs _ hw hwake =>
    refine ⟨h.family.congr hs.thrtab hs.parent, fun t ht => ?_, honly hw⟩
    obtain ⟨ht', hp⟩ := hw t _ ht
    obtain ⟨tid, hpc, ⟨c, hl, hpar, hm⟩, hnone⟩ := h.awaits t ht'
    refine ⟨tid, hp.trans hpc, ⟨c, ?_, ?_, hm⟩, fun c' hc hex => ?_⟩
    · rw [hs.thrtab]
      exact hl
    · rw [Kernel.ParentOf, hs.parent]
      exact hpar
    · obtain ⟨hl', hpar', hm'⟩ := hc
      rw [hs.thrtab] at hl'
      rw [Kernel.ParentOf, hs.parent] at hpar'
      -- had the thread that exits been a child of `t`, `t` would have been woken
      have hne : c' ≠ m.k.tp := by
        rintro rfl
        exact hwake t hpar' ht
      exact hnone c' ⟨hl', hpar', hm'⟩ (hs.exited c' hne hex)
  | reclaim _ c _ _ _ hs hw =>
    have hne : m.k.tp ≠ c := by
      rintro rfl
      have := hs.exited
      rw [hr.tp_self] at this
      cases this
    refine ⟨hs.family h.family hr.tp_live hne, fun t ht => ?_, honly hw⟩
    obtain ⟨ht, hp⟩ := hw t _ ht
    have htp : t ≠ m.k.tp := by
      rintro rfl
      exact hr.off _ ht
    have htc : t ≠ c := by
      rintro rfl
      have hwait := (hr.wait_of_mem _ t ht).2.1
      rw [hs.exited] at hwait
      cases hwait
    have hpar : ∀ c', m.k.thrtab c' = true → (m'.k.ParentOf c' t ↔ m.k.ParentOf c' t) := by
      intro c' hl'
      by_cases hpc : m.k.ParentOf c' c
      · have hnew := hs.handed c' hl' hpc
        rw [Kernel.ParentOf] at hpc hnew ⊢
        rw [Kernel.ParentOf, hnew, hpc]
        constructor
        · intro heq
          exact absurd (Option.some.inj heq).symm htp
        · intro heq
          exact absurd (Option.some.inj heq).symm htc
      · rw [Kernel.ParentOf, hs.others c' hpc, Kernel.ParentOf]
    obtain ⟨tid, hpc, ⟨c', hl', hpar', hm'⟩, hnone⟩ := h.awaits t ht
    refine ⟨tid, hp.trans hpc, ⟨c', ?_, (hpar c' hl').mpr hpar', hm'⟩, fun c1 hc1 hex => ?_⟩
    · have hcc : c' ≠ c := by
        rintro rfl
        have := hs.parent
        rw [Kernel.ParentOf] at this hpar'
        rw [hpar'] at this
        exact htp (Option.some.inj this)
      rw [hs.thrtab, update_of_ne hcc]
      exact hl'
    · obtain ⟨hl1, hpar1, hm1⟩ := hc1
      have hlive : m.k.thrtab c1 = true := by
        by_cases hcc : c1 = c
        · rw [hcc]
          exact hs.live
        · rwa [hs.thrtab, update_of_ne hcc] at hl1
      rw [hs.state] at hex
      exact hnone c1 ⟨hlive, (hpar c1 hlive).mp hpar1, hm1⟩ hex
  | refuse _ _ _ hs hw =>
    exact ⟨h.family.congr hs.thrtab hs.parent, fun t ht => hkeep hs t (hw t _ ht).1 (hw t _ ht).2,
      honly hw⟩
  | wait tid _ _ hs hex hnone hw =>
    refine ⟨h.family.congr hs.thrtab hs.parent, fun t ht => ?_, fun t c tid' ht hp => ?_⟩
    · rcases hw t _ ht with ⟨ht, hp⟩ | ⟨rfl, -, hp⟩
      · exact hkeep hs t ht hp
      · obtain ⟨c, hc⟩ := hex
        refine ⟨tid, hp, ⟨c, (hmatch hs _ tid c).mpr hc⟩, fun c hc hst => ?_⟩
        exact hnone c ((hmatch hs _ tid c).mp hc) (hs.exited c hst)
    · rcases hw t c ht with ⟨ht, hpc⟩ | ⟨rfl, hc, -⟩
      · exact h.only t c tid' ht (hpc ▸ hp)
      · exact hc

theorem init_kindred : Kindred (init : Machine nl) fun r => if r = .ready then [idleTid] else [] :=
  ⟨Kernel.init_family, fun t ht => (by cases ht), fun t c tid ht => (by cases ht)⟩

/-! ## Every thread is reclaimed once -/

/-- How many threads were made in each slot, and the threads that were reclaimed. -/
structure Census where
  born : Tid → Nat
  reclaimed : List (Tid × Nat)

/-- The census after a segment from `m` to `m'`. -/
def Census.next (g : Census) (m : Machine nl) (lbl : Label nl) (m' : Machine nl) : Census where
  born t := if m.k.thrtab t = false ∧ m'.k.thrtab t = true then g.born t + 1 else g.born t
  reclaimed :=
    match m.reclaims lbl with
    | none => g.reclaimed
    | some c => (c, g.born c) :: g.reclaimed

/-- The states reached by any run, with the census. -/
inductive Counted : Machine nl → Census → Prop where
  | init : Counted init ⟨fun _ => 0, []⟩
  | step {m m' : Machine nl} {g : Census} {lbl : Label nl} : Counted m g → m.Enabled lbl →
      m.step lbl = some m' → Counted m' (g.next m lbl m')

theorem Counted.reachable (h : Counted m g) : Reachable m := by
  induction h with
  | init => exact .init
  | step _ hen hst ih => exact ih.step hen trivial hst

theorem Counted.kindred (h : Counted m g) :
    ∃ L, Running m.k L ∧ Kindred m L := by
  induction h with
  | init => exact ⟨_, Kernel.init_running, init_kindred⟩
  | step hc hen hst ih =>
    obtain ⟨L, hr, hk⟩ := ih
    obtain ⟨-, ⟨H, hh⟩, hpc⟩ := hc.reachable.inv
    obtain ⟨L', hr', he⟩ := effect hr hh hk.family hpc hen hst
    exact ⟨L', hr', he.kindred hr hk⟩

/-- No thread is reclaimed twice, and none that is in the table was reclaimed. -/
structure CensusOk (thrtab : Tid → Bool) (g : Census) : Prop where
  nodup : g.reclaimed.Nodup
  born : ∀ x ∈ g.reclaimed, x.2 ≤ g.born x.1
  gone : ∀ x ∈ g.reclaimed, thrtab x.1 = true → x.2 < g.born x.1

/-- A segment reclaims a thread, or it frees no slot. -/
theorem Effect.slots (he : Effect m L lbl m' L') :
    m.reclaims lbl = none ∧ (∀ t, m.k.thrtab t = true → m'.k.thrtab t = true) ∨
      ∃ c, m.reclaims lbl = some c ∧ Reclaimed m.k m'.k c := by
  have hnone : m.joinOf lbl = none → m.reclaims lbl = none := by
    intro h
    rw [reclaims, h]
    rfl
  cases he with
  | same hs hlbl =>
    refine .inl ⟨hnone hlbl, fun t ht => ?_⟩
    rwa [hs.thrtab]
  | spawn u hs hlbl =>
    refine .inl ⟨hnone hlbl, fun t ht => ?_⟩
    rw [hs.thrtab]
    by_cases htu : t = u
    · subst htu
      exact Function.update_self ..
    · rwa [update_of_ne htu]
  | exit hs hlbl =>
    refine .inl ⟨hnone hlbl, fun t ht => ?_⟩
    rwa [hs.thrtab]
  | reclaim _ c hc _ _ hs => exact .inr ⟨c, hc, hs⟩
  | refuse _ hc _ hs =>
    refine .inl ⟨hc, fun t ht => ?_⟩
    rwa [hs.thrtab]
  | wait _ hc _ hs =>
    refine .inl ⟨hc, fun t ht => ?_⟩
    rwa [hs.thrtab]

theorem Effect.censusOk (he : Effect m L lbl m' L')
    (h : CensusOk m.k.thrtab g) : CensusOk m'.k.thrtab (g.next m lbl m') := by
  have hle : ∀ t, g.born t ≤ (g.next m lbl m').born t := by
    intro t
    simp only [Census.next]
    split <;> omega
  rcases he.slots with ⟨hnone, hlive⟩ | ⟨c, hc, hs⟩
  · have hre : (g.next m lbl m').reclaimed = g.reclaimed := by simp only [Census.next, hnone]
    refine ⟨hre ▸ h.nodup, fun x hx => ?_, fun x hx ht => ?_⟩
    · rw [hre] at hx
      exact (h.born x hx).trans (hle x.1)
    · rw [hre] at hx
      cases hold : m.k.thrtab x.1 with
      | true => exact (h.gone x hx hold).trans_le (hle x.1)
      | false =>
        have hborn := h.born x hx
        simp only [Census.next, hold, ht, and_self, if_true]
        omega
  · have hre : (g.next m lbl m').reclaimed = (c, g.born c) :: g.reclaimed := by
      simp only [Census.next, hc]
    have hold : ∀ t, m'.k.thrtab t = true → t ≠ c ∧ m.k.thrtab t = true := by
      intro t ht
      rw [hs.thrtab] at ht
      by_cases htc : t = c
      · subst htc
        simp at ht
      · exact ⟨htc, by rwa [update_of_ne htc] at ht⟩
    refine ⟨?_, fun x hx => ?_, fun x hx ht => ?_⟩
    · rw [hre, List.nodup_cons]
      refine ⟨fun hmem => ?_, h.nodup⟩
      exact Nat.lt_irrefl _ (h.gone _ hmem hs.live)
    · rw [hre, List.mem_cons] at hx
      rcases hx with rfl | hx
      · exact hle c
      · exact (h.born x hx).trans (hle x.1)
    · obtain ⟨hne, hlive⟩ := hold _ ht
      rw [hre, List.mem_cons] at hx
      rcases hx with rfl | hx
      · exact absurd rfl hne
      · exact (h.gone x hx hlive).trans_le (hle x.1)

theorem Counted.effect (h : Counted m g) (hen : m.Enabled lbl)
    (hst : m.step lbl = some m') : ∃ L L', Effect m L lbl m' L' := by
  obtain ⟨L, hr, hk⟩ := h.kindred
  obtain ⟨-, ⟨H, hh⟩, hpc⟩ := h.reachable.inv
  obtain ⟨L', -, he⟩ := Machine.effect hr hh hk.family hpc hen hst
  exact ⟨L, L', he⟩

theorem Counted.censusOk (h : Counted m g) : CensusOk m.k.thrtab g := by
  induction h with
  | init => exact ⟨List.nodup_nil, fun x hx => (by cases hx), fun x hx => (by cases hx)⟩
  | step hc hen hst ih =>
    obtain ⟨L, L', he⟩ := hc.effect hen hst
    exact he.censusOk ih

/-- The child that a join returns has exited, and was asked for. -/
theorem Effect.joined (he : Effect m L lbl m' L') {tid r : Int}
    (hj : m.joined lbl = some (tid, r)) (hpos : 0 < r) :
    ∃ c : Tid, (c.val : Int) = r ∧ m.k.Matches m.k.tp tid c ∧ (m.k.thr c).state = .exited ∧
      m.reclaims lbl = some c := by
  have hnone : m.joinOf lbl = none → m.joined lbl = none := by
    intro h
    rw [Machine.joined, h]
    rfl
  cases he with
  | same _ hlbl | spawn _ _ hlbl | exit _ hlbl =>
    rw [hnone hlbl] at hj
    cases hj
  | reclaim tid' c hc hj' hm hs =>
    rw [hj'] at hj
    cases hj
    exact ⟨c, rfl, hm, hs.exited, hc⟩
  | refuse _ _ hj' =>
    rw [hj'] at hj
    cases hj
    cases hpos
  | wait _ _ hj' =>
    rw [hj'] at hj
    cases hj

/-- The thread tree, in every state a run reaches.  The parents lead to the main thread.  A
thread suspended in `thread_join` has a child it asked for, and none that has exited.  A join
that returns a thread has found it exited below the caller.  A thread is reclaimed by its
parent, which gets its children, and no thread is reclaimed twice. -/
theorem thread_tree {g : Census} (h : Counted m g) :
    Family m.k ∧
      (∀ t tid, m.k.thrtab t = true → m.pc t = .join tid → (m.k.thr t).state = .waiting →
        (m.k.thr t).waitCond = some (.childExit t) ∧ (∃ c, m.k.Matches t tid c) ∧
          ∀ c, m.k.Matches t tid c → (m.k.thr c).state ≠ .exited) ∧
      (∀ lbl m', m.Enabled lbl → m.step lbl = some m' →
        (∀ tid r, m.joined lbl = some (tid, r) → 0 < r → ∃ c : Tid, (c.val : Int) = r ∧
          m.k.Matches m.k.tp tid c ∧ (m.k.thr c).state = .exited ∧ m.reclaims lbl = some c) ∧
        (∀ c, m.reclaims lbl = some c → Reclaimed m.k m'.k c) ∧
        ∀ c, m.k.thrtab c = true → m'.k.thrtab c = false → m.reclaims lbl = some c) ∧
      g.reclaimed.Nodup ∧ ∀ x ∈ g.reclaimed, m.k.thrtab x.1 = true → x.2 < g.born x.1 := by
  obtain ⟨L, hr, hk⟩ := h.kindred
  refine ⟨hk.family, fun t tid hl hp hw => ?_, fun lbl m' hen hst => ?_, h.censusOk.nodup,
    h.censusOk.gone⟩
  · have hne : t ≠ m.k.tp := by
      rintro rfl
      rw [hr.tp_self] at hw
      cases hw
    obtain ⟨c, hc, hmem⟩ := hr.mem_of_wait t hl hne hw
    have hcc := hk.only t c tid hmem hp
    subst hcc
    obtain ⟨tid', hp', hex, hnone⟩ := hk.awaits t hmem
    rw [hp] at hp'
    cases hp'
    exact ⟨hc, hex, hnone⟩
  · obtain ⟨L, L', he⟩ := h.effect hen hst
    refine ⟨fun tid r hj hpos => he.joined hj hpos, fun c hc => ?_, fun c hl hf => ?_⟩
    · rcases he.slots with ⟨hnone, -⟩ | ⟨c', hc', hs⟩
      · rw [hnone] at hc
        cases hc
      · rw [hc] at hc'
        cases hc'
        exact hs
    · rcases he.slots with ⟨-, hkeep⟩ | ⟨c', hc', hs⟩
      · rw [hkeep c hl] at hf
        cases hf
      · rw [hc']
        by_cases hcc : c = c'
        · rw [hcc]
        · rw [hs.thrtab, update_of_ne hcc, hl] at hf
          cases hf

/-- The state and the census after a given run, if each of its segments can come next. -/
def tally (m : Machine nl) (g : Census) : List (Label nl) → Option (Machine nl × Census)
  | [] => some (m, g)
  | lbl :: lbls =>
      if m.Enabled lbl then (m.step lbl).bind fun m' => tally m' (g.next m lbl m') lbls else none

theorem Counted.tally {g' : Census} {lbls : List (Label nl)} (h : Counted m g)
    (heq : Machine.tally m g lbls = some (m', g')) : Counted m' g' :=
  keeps_of_run (f := fun x => Machine.tally x.1 x.2) (s := (m, g))
    (g := fun x lbl m' => (m', x.2.next x.1 lbl m')) (P := fun x => Counted x.1 x.2)
    (fun _ => rfl) (fun _ _ _ => rfl) (fun h => h.step) h heq

/-- The main thread spawns a thread and joins; the child runs, exits, and the join returns it.
The slot is used again, and the join of the next child in it returns as well. -/
theorem thread_tree_join_twice : ∃ (m : Machine 1) (g : Census), Counted m g ∧
    g.reclaimed = [(1, 2), (1, 1)] ∧ g.reclaimed.Nodup ∧ Family m.k := by
  have heval : (tally (init : Machine 1) ⟨fun _ => 0, []⟩
      [.call .spawn, .call (.join 0 [] []), .call .yield, .call (.exit []), .call .yield, .resume [] [],
        .call .spawn, .call (.join 1 [] []), .call .yield, .call (.exit []), .call .yield,
        .resume [] []]).map (fun x => x.2.reclaimed) = some [(1, 2), (1, 1)] := by
    decide +kernel
  obtain ⟨⟨m, g⟩, hm, hg⟩ := Option.map_eq_some_iff.mp heval
  have hcount : Counted m g := Counted.init.tally hm
  have htree := thread_tree hcount
  exact ⟨m, g, hcount, hg, htree.2.2.2.1, htree.1⟩

end MiniOs.Machine
