import MiniOs.Base.Runs
import MiniOs.Thread.Calls

/-!
# Runs of the thread manager

The kernel runs on one processor and threads give it up only inside the calls of the thread
manager, so a run is a sequence of code segments.  A segment is a call of the running thread
up to its return or to the switch to another thread, the rest of a call that was suspended
in its loop (`lock_acquire` and `thread_join` test again after a wait), or an interrupt.
`Pc` says where a thread goes on when it runs next.

The idle thread only yields.  A return from the main thread halts the system, so it starts no
segment.  `struct thread` is opaque outside `thread.c`, so no other code waits on a
`child_exit` condition.
-/

namespace MiniOs

open Function (update_of_ne update_self)

/-- Where a thread goes on: in its own code, or in the loop of a call. -/
inductive Pc (nl : Nat) where
  | user
  | acquire (l : Fin nl)
  | join (tid : Int)
deriving DecidableEq

/-- A call of the running thread, with the broadcasts of interrupts in its unmasked windows. -/
inductive Call (nl : Nat) where
  | spawn
  | yield
  | exit (isr : List (Cond nl))
  | join (tid : Int) (isr₁ isr₂ : List (Cond nl))
  | wait (c : Cond nl) (isr₁ isr₂ : List (Cond nl))
  | broadcast (c : Cond nl)
  | acquire (l : Fin nl)
  | release (l : Fin nl)
deriving DecidableEq

/-- One segment. -/
inductive Label (nl : Nat) where
  | call (c : Call nl)
  | resume (isr₁ isr₂ : List (Cond nl))
  | isr (c : Cond nl)
deriving DecidableEq

/-- The kernel, and where each thread goes on. -/
structure Machine (nl : Nat) where
  k : Kernel nl
  pc : Tid → Pc nl

namespace Machine

variable {nl : Nat} {m m' : Machine nl}

/-- The machine after `thrmgr_init`. -/
def init : Machine nl := ⟨Kernel.init, fun _ => .user⟩

/-- The machine with thread `t` going on at `p`. -/
def goto (m : Machine nl) (k : Kernel nl) (t : Tid) (p : Pc nl) : Machine nl :=
  ⟨k, Function.update m.pc t p⟩

theorem goto_pc_self (k : Kernel nl) (t : Tid) (p : Pc nl) : (m.goto k t p).pc t = p :=
  update_self ..

theorem goto_pc_of_ne (k : Kernel nl) {t u : Tid} (h : u ≠ t) (p : Pc nl) :
    (m.goto k t p).pc u = m.pc u :=
  update_of_ne h ..

/-- A call of the running thread. -/
def stepCall (m : Machine nl) : Call nl → Option (Machine nl)
  | .spawn => m.k.threadSpawn.map fun (_, k) =>
      match m.k.freeSlot with
      | none => { m with k := k }
      | some t => m.goto k t .user
  | .yield => m.k.threadYield.map fun k => { m with k := k }
  | .exit isr => (m.k.threadExit isr).map fun k => { m with k := k }
  | .join tid isr₁ isr₂ => (m.k.threadJoin tid isr₁ isr₂).map fun (r, k) =>
      if r.isSome then { m with k := k } else m.goto k m.k.tp (.join tid)
  | .wait c isr₁ isr₂ => (m.k.conditionWait c isr₁ isr₂).map fun k => { m with k := k }
  | .broadcast c => (m.k.conditionBroadcast c).map fun k => { m with k := k }
  | .acquire l => (m.k.lockAcquire l).map fun (done, k) =>
      if done then { m with k := k } else m.goto k m.k.tp (.acquire l)
  | .release l => (m.k.lockRelease l).map fun k => { m with k := k }

/-- One segment.  There is no result when an assertion fails. -/
def step (m : Machine nl) : Label nl → Option (Machine nl)
  | .call c => m.stepCall c
  | .resume isr₁ isr₂ =>
      match m.pc m.k.tp with
      | .user => none
      | .acquire l => (m.k.lockAcquireLoop l).map fun (done, k) =>
          if done then m.goto k m.k.tp .user else { m with k := k }
      | .join tid => (m.k.threadJoin tid isr₁ isr₂).map fun (r, k) =>
          if r.isSome then m.goto k m.k.tp .user else { m with k := k }
  | .isr c => (m.k.conditionBroadcast c).map fun k => { m with k := k }

/-- The calls a thread can make. -/
def Allowed (k : Kernel nl) : Call nl → Prop
  | .exit _ => k.tp ≠ mainTid
  | .wait c _ _ => ∀ t, c ≠ .childExit t
  | _ => True

/-- The segments that can come next. -/
def Enabled (m : Machine nl) : Label nl → Prop
  | .call c => m.pc m.k.tp = .user ∧ (m.k.tp = idleTid → c = .yield) ∧ Allowed m.k c
  | .resume _ _ => m.pc m.k.tp ≠ .user
  | .isr _ => True

/-- The states reached by runs of segments that satisfy `ok`. -/
inductive Run (ok : Machine nl → Label nl → Prop) : Machine nl → Prop where
  | init : Run ok init
  | step {m m' : Machine nl} {lbl : Label nl} : Run ok m → m.Enabled lbl → ok m lbl →
      m.step lbl = some m' → Run ok m'

/-- The states reached by any run. -/
abbrev Reachable : Machine nl → Prop := Run fun _ _ => True

instance (k : Kernel nl) : (c : Call nl) → Decidable (Allowed k c)
  | .exit _ => inferInstanceAs (Decidable (k.tp ≠ mainTid))
  | .wait c _ _ => inferInstanceAs (Decidable (∀ t, c ≠ .childExit t))
  | .spawn | .yield | .join .. | .broadcast _ | .acquire _ | .release _ => isTrue trivial

instance (m : Machine nl) : (lbl : Label nl) → Decidable (m.Enabled lbl)
  | .call c => inferInstanceAs
      (Decidable (m.pc m.k.tp = .user ∧ (m.k.tp = idleTid → c = .yield) ∧ Allowed m.k c))
  | .resume _ _ => inferInstanceAs (Decidable (m.pc m.k.tp ≠ .user))
  | .isr _ => isTrue trivial

/-- The state after a given run, if each of its segments can come next and satisfies `ok`. -/
def exec (ok : Machine nl → Label nl → Prop) [∀ m lbl, Decidable (ok m lbl)] (m : Machine nl) :
    List (Label nl) → Option (Machine nl)
  | [] => some m
  | lbl :: lbls =>
      if m.Enabled lbl ∧ ok m lbl then (m.step lbl).bind fun m' => exec ok m' lbls else none

theorem Run.exec {ok : Machine nl → Label nl → Prop} [∀ m lbl, Decidable (ok m lbl)]
    {lbls : List (Label nl)} (h : Run ok m) (heq : Machine.exec ok m lbls = some m') : Run ok m' :=
  keeps_of_run (fun _ => rfl) (fun _ _ _ => rfl) (fun h hen => h.step hen.1 hen.2) h heq

end Machine

/-! ## The invariant -/

namespace Kernel

variable {nl : Nat}

/-- The threads after `thrmgr_init`. -/
theorem init_cases {t : Tid} (h : (init : Kernel nl).thrtab t = true) :
    t = mainTid ∧ ((init : Kernel nl).thr t).state = .self ∨
      t = idleTid ∧ ((init : Kernel nl).thr t).state = .ready := by
  simp only [init, Bool.or_eq_true, decide_eq_true_eq] at h
  rcases h with rfl | rfl
  · exact .inl ⟨rfl, rfl⟩
  · exact .inr ⟨rfl, rfl⟩

theorem init_running : Running (init : Kernel nl) fun r => if r = .ready then [idleTid] else [] := by
  refine ⟨⟨fun r => ?_, fun t => ?_, fun c t ht => ?_, fun t hl hne hw => ?_, fun t u hu => ?_,
    fun t hl hs => ?_, fun t hl hs => ?_, rfl, rfl, .inl rfl⟩, rfl⟩
  · by_cases hr : r = .ready
    · subst hr
      exact ⟨⟨rfl, rfl⟩, rfl, List.nodup_singleton _⟩
    · simp only [init, if_neg hr]
      exact Rep.nil _
  · rw [if_pos rfl, List.mem_singleton]
    constructor
    · rintro rfl
      exact ⟨rfl, rfl⟩
    · rintro ⟨hl, hs⟩
      rcases init_cases hl with ⟨-, hst⟩ | ⟨ht, -⟩
      · rw [hst] at hs
        cases hs
      · exact ht
  · cases ht
  · rcases init_cases hl with ⟨-, hst⟩ | ⟨-, hst⟩ <;> rw [hst] at hw <;> cases hw
  · cases hu
  · rcases init_cases hl with ⟨ht, -⟩ | ⟨-, hst⟩
    · exact ht
    · rw [hst] at hs
      cases hs
  · rcases init_cases hl with ⟨-, hst⟩ | ⟨-, hst⟩ <;> rw [hst] at hs <;> cases hs

theorem init_held : Held (init : Kernel nl) fun _ => [] := by
  refine ⟨fun t => rfl, fun t => List.nodup_nil, fun t l => ?_, fun l t ho => ?_, fun l _ => rfl,
    fun l t ho => ?_⟩
  · simp [init]
  · cases ho
  · cases ho

end Kernel

namespace Machine

open Kernel (Running Held)

variable {nl : Nat} {m m' : Machine nl} {l : Fin nl}

/-- What holds between segments. -/
structure Inv (m : Machine nl) : Prop where
  running : ∃ L, Running m.k L
  held : ∃ H, Held m.k H
  idle : m.pc idleTid = .user

theorem init_inv : Inv (init : Machine nl) :=
  ⟨⟨_, Kernel.init_running⟩, ⟨_, Kernel.init_held⟩, rfl⟩

/-! ## What a segment can do -/

/-- The conditions a segment names: those it waits on or broadcasts, and those of its
interrupts. -/
def conds : Label nl → List (Cond nl)
  | .call (.exit isr) => isr
  | .call (.join _ isr₁ isr₂) => isr₁ ++ isr₂
  | .call (.wait c isr₁ isr₂) => c :: (isr₁ ++ isr₂)
  | .call (.broadcast c) => [c]
  | .call _ => []
  | .resume isr₁ isr₂ => isr₁ ++ isr₂
  | .isr c => [c]

/-- The condition is one of `cs`, or that of a parent whose child exits. -/
def Named (cs : List (Cond nl)) (c : Cond nl) : Prop := c ∈ cs ∨ ∃ t, c = .childExit t

theorem not_named_lockCv {cs : List (Cond nl)} (h : Cond.lockCv l ∉ cs) :
    ¬ Named cs (.lockCv l) := by
  rintro (hmem | ⟨t, ht⟩)
  · exact h hmem
  · cases ht

/-- The lists after threads were woken or put on wait lists: the ready list only grows, and
the wait list of a condition that is not named stays as it is. -/
structure Follows (cs : List (Cond nl)) (L L' : ListRef nl → List Tid) : Prop where
  wait : ∀ c, ¬ Named cs c → L' (.wait c) = L (.wait c)
  ready : ∃ ts, L' .ready = L .ready ++ ts

namespace Follows

variable {cs cs' : List (Cond nl)} {L L' L'' : ListRef nl → List Tid} {c : Cond nl}

theorem refl (cs : List (Cond nl)) (L : ListRef nl → List Tid) : Follows cs L L :=
  ⟨fun _ _ => rfl, [], (List.append_nil _).symm⟩

theorem trans (h : Follows cs L L') (h' : Follows cs L' L'') : Follows cs L L'' := by
  obtain ⟨ts, hts⟩ := h.ready
  obtain ⟨ts', hts'⟩ := h'.ready
  refine ⟨fun c hc => (h'.wait c hc).trans (h.wait c hc), ts ++ ts', ?_⟩
  rw [hts', hts, List.append_assoc]

theorem woken (hc : Named cs c) : Follows cs L (Kernel.wokenLists L c) := by
  refine ⟨fun c' hc' => ?_, L (.wait c), by simp [Kernel.wokenLists]⟩
  have hne : c' ≠ c := fun heq => hc' (heq ▸ hc)
  simp [Kernel.wokenLists, hne]

theorem foldl_woken {isr : List (Cond nl)} (hisr : ∀ c ∈ isr, Named cs c) :
    Follows cs L (isr.foldl Kernel.wokenLists L) := by
  induction isr generalizing L with
  | nil => exact refl cs L
  | cons c isr ih =>
    exact (woken (hisr c (List.mem_cons_self ..))).trans
      (ih fun c' hc' => hisr c' (List.mem_cons_of_mem _ hc'))

theorem parked (hc : Named cs c) (t : Tid) :
    Follows cs L (Kernel.appended L (.wait c) t) := by
  refine ⟨fun c' hc' => ?_, [], by simp [Kernel.appended]⟩
  have hne : c' ≠ c := fun heq => hc' (heq ▸ hc)
  simp [Kernel.appended, hne]

theorem readied (t : Tid) : Follows cs L (Kernel.appended L .ready t) :=
  ⟨fun c _ => by simp [Kernel.appended], [t], by simp [Kernel.appended]⟩

theorem waitLists {isr₁ isr₂ : List (Cond nl)} (t : Tid) (hc : Named cs c)
    (hsub : isr₁ ++ isr₂ ⊆ cs) : Follows cs L (Kernel.waitLists L c t isr₁ isr₂) :=
  ((foldl_woken fun _ hc' => .inl (hsub (List.mem_append_left _ hc'))).trans (parked hc t)).trans
    (foldl_woken fun _ hc' => .inl (hsub (List.mem_append_right _ hc')))

end Follows

/-- The lists change from `L` to `L'`, and either the thread that ran goes on or the first
ready thread runs next. -/
def Moved (cs : List (Cond nl)) (t t' : Tid) (L L' : ListRef nl → List Tid) : Prop :=
  ∃ L₁, Follows cs L L₁ ∧
    (t' = t ∧ L' = L₁ ∨ ∃ ts, L₁ .ready = t' :: ts ∧ L' = Function.update L₁ .ready ts)

/-- A segment of a thread without `lock_acquire`, `lock_release` and `thread_exit`. -/
def Calm (m : Machine nl) : Label nl → Prop
  | .call (.acquire _) | .call (.release _) | .call (.exit _) | .isr _ => False
  | _ => ∀ l, m.pc m.k.tp ≠ .acquire l

/-- A segment of a thread that is in `lock_acquire` of `l` and does not own it. -/
def Acquires (m : Machine nl) (l : Fin nl) : Label nl → Prop
  | .call c => c = .acquire l ∧ m.pc m.k.tp = .user ∧ (m.k.lock l).owner ≠ some m.k.tp
  | .resume _ _ => m.pc m.k.tp = .acquire l
  | .isr _ => False

/-- What a segment can do to the locks, to the lists and to where threads go on. -/
inductive Outcome (m : Machine nl) (L : ListRef nl → List Tid) : Label nl → Machine nl → Prop where
  | calm {lbl : Label nl} {m' : Machine nl} {L' : ListRef nl → List Tid} :
      Calm m lbl → m'.k.lock = m.k.lock → Running m'.k L' →
      Moved (conds lbl) m.k.tp m'.k.tp L L' →
      (∀ t l, m'.pc t = .acquire l → m.pc t = .acquire l) →
      (∀ t l, m.k.thrtab t = true → m.pc t = .acquire l → m'.pc t = .acquire l) →
      Outcome m L lbl m'
  | isr {c : Cond nl} {k' : Kernel nl} : k'.lock = m.k.lock → k'.tp = m.k.tp →
      Running k' (Kernel.wokenLists L c) → Outcome m L (.isr c) { m with k := k' }
  | bump {l : Fin nl} : m.pc m.k.tp = .user → (m.k.lock l).owner = some m.k.tp →
      Outcome m L (.call (.acquire l))
        { m with k := m.k.setLock l { m.k.lock l with count := (m.k.lock l).count + 1 } }
  | take {lbl : Label nl} {l : Fin nl} : Acquires m l lbl → (m.k.lock l).owner = none →
      Outcome m L lbl (m.goto (m.k.taken l) m.k.tp .user)
  | wait {lbl : Label nl} {l : Fin nl} {k' : Kernel nl} {ts : List Tid} : Acquires m l lbl →
      (m.k.lock l).owner ≠ none → k'.lock = m.k.lock → L .ready = k'.tp :: ts →
      Running k' (Function.update (Kernel.appended L (.wait (.lockCv l)) m.k.tp) .ready ts) →
      Outcome m L lbl (m.goto k' m.k.tp (.acquire l))
  | release {l : Fin nl} {k' : Kernel nl} : m.k.lockRelease l = some k' →
      Running k' (Kernel.releasedLists m.k L l) →
      k'.lock = Function.update m.k.lock l (Kernel.released (m.k.lock l) m.k.tp) →
      k'.tp = m.k.tp → Outcome m L (.call (.release l)) { m with k := k' }
  | exit {isr : List (Cond nl)} {k' : Kernel nl} : m.pc m.k.tp = .user →
      (∀ p : Kernel nl → (ListRef nl → List Tid) → Prop,
        (∀ {k k' L H l}, Running k L → Held k H → k.lockRelease l = some k' → p k L →
          p k' (Kernel.releasedLists k L l)) → p m.k L →
        ∃ k₁ L₁ L', Kernel.Drained m.k k₁ ∧ p k₁ L₁ ∧ Moved isr k₁.tp k'.tp L₁ L' ∧
          Running k' L' ∧ k'.lock = k₁.lock) →
      Outcome m L (.call (.exit isr)) { m with k := k' }

/-- The turn of the loop of `thread_join` that a segment runs: its argument, and the broadcasts
of interrupts. -/
def joinOf (m : Machine nl) : Label nl → Option (Int × List (Cond nl) × List (Cond nl))
  | .call (.join tid isr₁ isr₂) => some (tid, isr₁, isr₂)
  | .resume isr₁ isr₂ =>
      match m.pc m.k.tp with
      | .join tid => some (tid, isr₁, isr₂)
      | _ => none
  | _ => none

/-- The running thread waits on `c` in the kernel `k'`, and goes on at `p`. -/
inductive Parks (m : Machine nl) (k' : Kernel nl) :
    Label nl → Cond nl → List (Cond nl) → List (Cond nl) → Pc nl → Prop where
  | wait {c : Cond nl} {isr₁ isr₂ : List (Cond nl)} : (∀ t, c ≠ .childExit t) →
      Parks m k' (.call (.wait c isr₁ isr₂)) c isr₁ isr₂ .user
  | join {lbl : Label nl} {tid : Int} {isr₁ isr₂ : List (Cond nl)} :
      m.joinOf lbl = some (tid, isr₁, isr₂) → m.k.threadJoin tid isr₁ isr₂ = some (none, k') →
      Parks m k' lbl (.childExit m.k.tp) isr₁ isr₂ (.join tid)
  | acquire {lbl : Label nl} {l : Fin nl} : Acquires m l lbl → (m.k.lock l).owner ≠ none →
      m.k.lockAcquireLoop l = some (false, k') → Parks m k' lbl (.lockCv l) [] [] (.acquire l)

/-- What a segment does to the kernel, and the lists after it. -/
inductive Did (m : Machine nl) (L : ListRef nl → List Tid) : Label nl → Machine nl → Prop where
  | broadcast {lbl : Label nl} {c : Cond nl} {k' : Kernel nl} :
      lbl = .isr c ∨ lbl = .call (.broadcast c) → k'.tp = m.k.tp →
      Running k' (Kernel.wokenLists L c) → Kernel.Reshuffled m.k k' → Did m L lbl { m with k := k' }
  | full : m.k.freeSlot = none → Did m L (.call .spawn) m
  | spawn {t : Tid} {k' : Kernel nl} : m.k.freeSlot = some t →
      m.k.threadSpawn = some ((t.val : Int), k') → k'.tp = m.k.tp → k'.lock = m.k.lock →
      Running k' (Kernel.appended L .ready t) → Did m L (.call .spawn) (m.goto k' t .user)
  | yield {k' : Kernel nl} {ts : List Tid} :
      Kernel.appended L .ready m.k.tp .ready = k'.tp :: ts →
      Running k' (Function.update (Kernel.appended L .ready m.k.tp) .ready ts) →
      Kernel.Reshuffled m.k k' → Did m L (.call .yield) { m with k := k' }
  | park {lbl : Label nl} {c : Cond nl} {isr₁ isr₂ : List (Cond nl)} {p : Pc nl} {k' : Kernel nl}
      {ts : List Tid} : Parks m k' lbl c isr₁ isr₂ p →
      Kernel.waitLists L c m.k.tp isr₁ isr₂ .ready = k'.tp :: ts →
      Running k' (Function.update (Kernel.waitLists L c m.k.tp isr₁ isr₂) .ready ts) →
      Kernel.Reshuffled m.k k' → Did m L lbl (m.goto k' m.k.tp p)
  | join {lbl : Label nl} {tid r : Int} {isr₁ isr₂ : List (Cond nl)} {k' : Kernel nl} :
      m.joinOf lbl = some (tid, isr₁, isr₂) → m.k.threadJoin tid isr₁ isr₂ = some (some r, k') →
      k'.tp = m.k.tp → k'.lock = m.k.lock → Running k' L → Did m L lbl (m.goto k' m.k.tp .user)
  | exit {isr : List (Cond nl)} {k' : Kernel nl} : m.k.tp ≠ idleTid →
      m.k.threadExit isr = some k' → Did m L (.call (.exit isr)) { m with k := k' }
  | bump {l : Fin nl} : (m.k.lock l).owner = some m.k.tp →
      Did m L (.call (.acquire l))
        { m with k := m.k.setLock l { m.k.lock l with count := (m.k.lock l).count + 1 } }
  | take {lbl : Label nl} {l : Fin nl} : Acquires m l lbl → (m.k.lock l).owner = none →
      Did m L lbl (m.goto (m.k.taken l) m.k.tp .user)
  | release {l : Fin nl} {k' : Kernel nl} : m.k.lockRelease l = some k' →
      Running k' (Kernel.releasedLists m.k L l) →
      k'.lock = Function.update m.k.lock l (Kernel.released (m.k.lock l) m.k.tp) →
      Kernel.Relocked m.k k' → Did m L (.call (.release l)) { m with k := k' }

section Segment

variable {L : ListRef nl → List Tid} {H : Tid → List (Fin nl)} {k' : Kernel nl} {t : Tid} {p : Pc nl}
  {lbl : Label nl} {tid : Int}

theorem goto_self (h : m.pc t = p) : m.goto k' t p = { m with k := k' } := by
  rw [goto, ← h, Function.update_eq_self]

theorem inv_goto (hpc : m.pc idleTid = .user) (hr : Running k' L) (hh : Held k' H)
    (hp : t = idleTid → p = .user) : Inv (m.goto k' t p) := by
  refine ⟨⟨L, hr⟩, ⟨H, hh⟩, ?_⟩
  by_cases ht : t = idleTid
  · rw [← ht, goto_pc_self]
    exact hp ht
  · rw [goto_pc_of_ne _ (Ne.symm ht)]
    exact hpc

section

variable (hr : Running m.k L) (hh : Held m.k H) (hpc : m.pc idleTid = .user)

include hr hh hpc

/-- A turn of the loop of `lock_acquire`. -/
theorem did_acquire (hidle : m.k.tp ≠ idleTid) (lbl : Label nl) (hlbl : Acquires m l lbl) :
    ∃ done k', m.k.lockAcquireLoop l = some (done, k') ∧
      Did m L lbl (m.goto k' m.k.tp (if done then .user else .acquire l)) ∧
      Inv (m.goto k' m.k.tp (if done then .user else .acquire l)) := by
  by_cases ho : (m.k.lock l).owner = none
  · exact ⟨true, _, Kernel.lockAcquireLoop_free ho, .take hlbl ho,
      inv_goto hpc (hr.taken l) (hh.taken hr ho) fun h => absurd h hidle⟩
  · have hown : ∀ u, (Cond.lockCv l : Cond nl) = .childExit u → u = m.k.tp := fun u hu => nomatch hu
    obtain ⟨k', ts, heq, hq, hrun, hsame⟩ := hr.conditionWait hidle hown [] []
    have hloop : m.k.lockAcquireLoop l = some (false, k') := by
      rw [Kernel.lockAcquireLoop_owned ho, heq]
      rfl
    exact ⟨false, k', hloop, .park (.acquire hlbl ho hloop) hq hrun hsame,
      inv_goto hpc hrun (hh.reshuffled hsame) fun h => absurd h hidle⟩

/-- A turn of the loop of `thread_join`. -/
theorem did_join (hidle : m.k.tp ≠ idleTid) (lbl : Label nl)
    {isr₁ isr₂ : List (Cond nl)} (hlbl : m.joinOf lbl = some (tid, isr₁, isr₂)) :
    ∃ r k', m.k.threadJoin tid isr₁ isr₂ = some (r, k') ∧
      Did m L lbl (m.goto k' m.k.tp (if r.isSome then .user else .join tid)) ∧
      Inv (m.goto k' m.k.tp (if r.isSome then .user else .join tid)) := by
  obtain ⟨r, k', heq, hheld, hlock, ⟨hsome, htp, hrun⟩ | ⟨ts, rfl, hq, hrun, hsame⟩⟩ :=
    hr.threadJoin hh hidle tid isr₁ isr₂
  · obtain ⟨r, rfl⟩ := Option.isSome_iff_exists.mp hsome
    exact ⟨some r, k', heq, .join hlbl heq htp hlock hrun,
      inv_goto hpc hrun hheld fun h => absurd h hidle⟩
  · exact ⟨none, k', heq, .park (.join hlbl heq) hq hrun hsame,
      inv_goto hpc hrun hheld fun h => absurd h hidle⟩

/-- No call of the running thread fails. -/
theorem did_call {c : Call nl} (hen : m.Enabled (.call c)) :
    ∃ m', m.stepCall c = some m' ∧ Did m L (.call c) m' ∧ Inv m' := by
  obtain ⟨hpu, hyield, hallow⟩ := hen
  have hidle : c ≠ .yield → m.k.tp ≠ idleTid := fun hc htp => hc (hyield htp)
  cases c with
  | spawn =>
    cases hslot : m.k.freeSlot with
    | none =>
      refine ⟨m, ?_, .full hslot, ⟨L, hr⟩, ⟨H, hh⟩, hpc⟩
      simp only [stepCall, Kernel.threadSpawn, hslot, Option.map_some]
    | some t =>
      obtain ⟨k', heq, hrun, hheld, hlock, htp⟩ := hr.threadSpawn hh hslot
      refine ⟨m.goto k' t .user, ?_, .spawn hslot heq htp hlock hrun,
        inv_goto hpc hrun hheld fun _ => rfl⟩
      simp only [stepCall, heq, hslot, Option.map_some]
  | yield =>
    obtain ⟨k', ts, heq, hq, hrun, hsame⟩ := hr.threadYield
    have hrun' : Running k' (Function.update (Kernel.appended L .ready m.k.tp) .ready ts) := by
      rw [Kernel.appended, Function.update_idem]
      exact hrun
    rw [stepCall, heq]
    refine ⟨_, rfl, .yield ?_ hrun' hsame, ⟨_, hrun⟩, ⟨_, hh.reshuffled hsame⟩, hpc⟩
    rw [Kernel.appended, update_self]
    exact hq
  | exit isr =>
    obtain ⟨_, k', _, H', ts, heq, _, _, _, _, hrun, hheld, _, _⟩ := Running.threadExit
      (p := fun _ _ => True) (fun _ _ _ _ => trivial) hr hh trivial (hidle (by simp)) isr
    rw [stepCall, heq]
    exact ⟨_, rfl, .exit (hidle (by simp)) heq, ⟨_, hrun⟩, ⟨_, hheld⟩, hpc⟩
  | join tid isr₁ isr₂ =>
    obtain ⟨r, k', heq, hdid, hinv⟩ := did_join hr hh hpc (hidle (by simp))
      (.call (.join tid isr₁ isr₂)) rfl
    refine ⟨_, ?_, hdid, hinv⟩
    rw [stepCall, heq]
    cases r with
    | none => rfl
    | some r => exact congrArg some (goto_self hpu).symm
  | wait c isr₁ isr₂ =>
    obtain ⟨k', ts, heq, hq, hrun, hsame⟩ := hr.conditionWait (hidle (by simp))
      (fun t ht => absurd ht (hallow t)) isr₁ isr₂
    refine ⟨_, ?_, .park (.wait hallow) hq hrun hsame,
      inv_goto hpc hrun (hh.reshuffled hsame) fun _ => rfl⟩
    rw [stepCall, heq, goto_self hpu]
    rfl
  | broadcast c =>
    obtain ⟨k', heq, htp, hrun, hsame⟩ := hr.conditionBroadcast c
    rw [stepCall, heq]
    exact ⟨_, rfl, .broadcast (.inr rfl) htp hrun hsame, ⟨_, hrun⟩, ⟨_, hh.reshuffled hsame⟩, hpc⟩
  | acquire l =>
    by_cases ho : (m.k.lock l).owner = some m.k.tp
    · refine ⟨_, ?_, .bump ho, ⟨L, hr.congr rfl rfl rfl rfl fun _ => ⟨rfl, rfl⟩⟩, ⟨H, ?_⟩, hpc⟩
      · rw [stepCall, Kernel.lockAcquire, if_pos ho]
        rfl
      · have := hh.owned l _ ho
        exact hh.setCount ho (by omega)
    · obtain ⟨done, k', heq, hdid, hinv⟩ := did_acquire hr hh hpc (hidle (by simp))
        (.call (.acquire l)) ⟨rfl, hpu, ho⟩
      refine ⟨_, ?_, hdid, hinv⟩
      rw [stepCall, Kernel.lockAcquire, if_neg ho, heq]
      cases done with
      | false => rfl
      | true => exact congrArg some (goto_self hpu).symm
  | release l =>
    obtain ⟨k', H', heq, hrun, hheld, hlock, hre⟩ := hr.lockRelease hh l
    rw [stepCall, heq]
    exact ⟨_, rfl, .release heq hrun hlock hre, ⟨_, hrun⟩, ⟨_, hheld⟩, hpc⟩

/-- No segment that can come next fails, each does one of the things above, and each keeps the
invariant. -/
theorem did (hen : m.Enabled lbl) : ∃ m', m.step lbl = some m' ∧ Did m L lbl m' ∧ Inv m' := by
  cases lbl with
  | isr c =>
    obtain ⟨k', heq, htp, hrun, hsame⟩ := hr.conditionBroadcast c
    rw [Machine.step, heq]
    exact ⟨_, rfl, .broadcast (.inl rfl) htp hrun hsame, ⟨_, hrun⟩, ⟨_, hh.reshuffled hsame⟩, hpc⟩
  | resume isr₁ isr₂ =>
    have hidle : m.k.tp ≠ idleTid := by
      intro htp
      have hen' : m.pc m.k.tp ≠ .user := hen
      rw [htp, hpc] at hen'
      exact hen' rfl
    cases hp : m.pc m.k.tp with
    | user => exact absurd hp hen
    | acquire l =>
      obtain ⟨done, k', heq, hdid, hinv⟩ :=
        did_acquire hr hh hpc hidle (.resume isr₁ isr₂) hp
      refine ⟨_, ?_, hdid, hinv⟩
      simp only [Machine.step, hp, heq, Option.map_some]
      cases done with
      | true => rfl
      | false => exact congrArg some (goto_self hp).symm
    | join tid =>
      have hlbl : m.joinOf (.resume isr₁ isr₂) = some (tid, isr₁, isr₂) := by simp only [joinOf, hp]
      obtain ⟨r, k', heq, hdid, hinv⟩ := did_join hr hh hpc hidle _ hlbl
      refine ⟨_, ?_, hdid, hinv⟩
      simp only [Machine.step, hp, heq, Option.map_some]
      cases r with
      | some r => rfl
      | none => exact congrArg some (goto_self hp).symm
  | call c => exact did_call hr hh hpc hen

theorem did_of_step (hen : m.Enabled lbl) (hst : m.step lbl = some m') : Did m L lbl m' := by
  obtain ⟨m1, hst1, hdid, -⟩ := did hr hh hpc hen
  rw [hst] at hst1
  rw [Option.some.inj hst1]
  exact hdid

end

/-- In `thread_join` a thread is not in `lock_acquire`. -/
theorem calm_of_joinOf (hen : m.Enabled lbl) {isr₁ isr₂ : List (Cond nl)}
    (h : m.joinOf lbl = some (tid, isr₁, isr₂)) :
    Calm m lbl ∧ conds lbl = isr₁ ++ isr₂ ∧ ∀ l, m.pc m.k.tp ≠ .acquire l := by
  cases lbl with
  | isr c => cases h
  | call c =>
    have hne : ∀ l, m.pc m.k.tp ≠ .acquire l := by
      intro l
      rw [hen.1]
      simp
    cases c with
    | join => cases h; exact ⟨hne, rfl, hne⟩
    | spawn | yield | exit | wait | broadcast | acquire | release => cases h
  | resume isr₁ isr₂ =>
    cases hp : m.pc m.k.tp with
    | join tid' =>
      simp only [joinOf, hp] at h
      cases h
      exact ⟨fun l => by rw [hp]; simp, rfl, by simp⟩
    | user | acquire =>
      simp only [joinOf, hp] at h
      cases h

/-- A calm segment that sends thread `t` somewhere else than into `lock_acquire`. -/
theorem Outcome.calm_goto {L' : ListRef nl → List Tid} (hc : Calm m lbl) (hlock : k'.lock = m.k.lock)
    (hr : Running k' L') (hm : Moved (conds lbl) m.k.tp k'.tp L L')
    (ht : ∀ l, m.k.thrtab t = true → m.pc t ≠ .acquire l) (hp : ∀ l, p ≠ .acquire l) :
    Outcome m L lbl (m.goto k' t p) := by
  refine .calm hc hlock hr hm (fun u l hu => ?_) fun u l hl hu => ?_
  · by_cases hut : u = t
    · rw [hut, goto_pc_self] at hu
      exact absurd hu (hp l)
    · rwa [goto_pc_of_ne _ hut] at hu
  · have hut : u ≠ t := by
      rintro rfl
      exact ht l hl hu
    rwa [goto_pc_of_ne _ hut]

theorem Did.outcome (hd : Did m L lbl m') (hr : Running m.k L) (hh : Held m.k H)
    (hen : m.Enabled lbl) : Outcome m L lbl m' := by
  have huser : m.pc m.k.tp = .user → ∀ l, m.pc m.k.tp ≠ .acquire l := by
    intro hu l
    rw [hu]
    simp
  cases hd with
  | @broadcast _ c _ hlbl htp hrun hsame =>
    rcases hlbl with rfl | rfl
    · exact .isr hsame.lock htp hrun
    · exact .calm (huser hen.1) hsame.lock hrun
        ⟨_, .woken (.inl (List.mem_singleton_self c)), .inl ⟨htp, rfl⟩⟩ (fun _ _ => id) fun _ _ _ => id
  | full =>
    exact .calm (huser hen.1) rfl hr ⟨L, .refl _ _, .inl ⟨rfl, rfl⟩⟩ (fun _ _ => id) fun _ _ _ => id
  | @spawn t _ hslot _ htp hlock hrun =>
    refine .calm_goto (huser hen.1) hlock hrun ⟨_, .readied t, .inl ⟨htp, rfl⟩⟩ (fun l hl => ?_) (by simp)
    rw [Kernel.free_of_freeSlot hslot] at hl
    cases hl
  | @yield _ ts hq hrun hsame =>
    exact .calm (huser hen.1) hsame.lock hrun ⟨_, .readied m.k.tp, .inr ⟨ts, hq, rfl⟩⟩ (fun _ _ => id)
      fun _ _ _ => id
  | @park _ _ _ _ _ _ ts hparks hq hrun hsame =>
    cases hparks with
    | wait =>
      exact .calm_goto (huser hen.1) hsame.lock hrun
        ⟨_, .waitLists _ (.inl (List.mem_cons_self ..)) (List.subset_cons_self _ _), .inr ⟨ts, hq, rfl⟩⟩
        (fun l _ => huser hen.1 l) (by simp)
    | join hlbl =>
      obtain ⟨hcalm, hconds, hne⟩ := calm_of_joinOf hen hlbl
      refine .calm_goto hcalm hsame.lock hrun ⟨_, .waitLists _ (.inr ⟨_, rfl⟩) ?_, .inr ⟨ts, hq, rfl⟩⟩
        (fun l _ => hne l) (by simp)
      rw [hconds]
      exact List.Subset.refl _
    | acquire hlbl ho =>
      exact .wait hlbl ho hsame.lock (by simpa [Kernel.waitLists, Kernel.appended] using hq) hrun
  | join hlbl _ htp hlock hrun =>
    obtain ⟨hcalm, -, hne⟩ := calm_of_joinOf hen hlbl
    exact .calm_goto hcalm hlock hrun ⟨L, .refl _ _, .inl ⟨htp, rfl⟩⟩ (fun l _ => hne l) (by simp)
  | @exit isr _ hidle heq =>
    refine .exit hen.1 fun p hp hk => ?_
    obtain ⟨k₁, k'', L₁, _, ts, heq', hdr, _, hk1, hq, hrun', _, _, hlock⟩ :=
      Running.threadExit hp hr hh hk hidle isr
    rw [heq] at heq'
    cases heq'
    have hcs : ∀ c ∈ m.k.exitConds ++ isr, Named isr c := by
      intro c hc
      rcases List.mem_append.mp hc with hc | hc
      · obtain ⟨p, -, rfl⟩ := Kernel.mem_exitConds.mp hc
        exact .inr ⟨p, rfl⟩
      · exact .inl hc
    exact ⟨k₁, L₁, _, hdr, hk1, ⟨_, .foldl_woken hcs, .inr ⟨ts, hq, rfl⟩⟩, hrun', hlock⟩
  | bump ho => exact .bump hen.1 ho
  | take hlbl ho => exact .take hlbl ho
  | release heq hrun hlock hre => exact .release heq hrun hlock hre.tp

/-- No segment that can come next fails, and what each does to the locks and the lists. -/
theorem segment (hr : Running m.k L) (hh : Held m.k H) (hpc : m.pc idleTid = .user)
    (hen : m.Enabled lbl) : ∃ m', m.step lbl = some m' ∧ Outcome m L lbl m' ∧ Inv m' := by
  obtain ⟨m', hst, hdid, hinv⟩ := did hr hh hpc hen
  exact ⟨m', hst, hdid.outcome hr hh hen, hinv⟩

/-- A release makes no thread an owner. -/
theorem owner_of_released {lk : Lock} {t u : Tid} (h : (Kernel.released lk t).owner = some u) :
    lk.owner = some u := by
  rw [Kernel.released] at h
  split_ifs at h with ho hc
  · exact h
  · exact h

theorem owner_of_update_released {lock : Fin nl → Lock} {l' : Fin nl} {t u : Tid}
    (h : (Function.update lock l (Kernel.released (lock l) t) l').owner = some u) :
    (lock l').owner = some u := by
  by_cases hll : l' = l
  · subst hll
    rw [update_self] at h
    exact owner_of_released h
  · rw [update_of_ne hll] at h
    exact h

/-- A thread becomes the owner of a lock in its own `lock_acquire`, and finds the lock free. -/
theorem Outcome.granted {lbl : Label nl} (h : Outcome m L lbl m') {t : Tid}
    (hne : (m.k.lock l).owner ≠ some t) (ho : (m'.k.lock l).owner = some t) :
    t = m.k.tp ∧ Acquires m l lbl ∧ (m.k.lock l).owner = none := by
  cases h with
  | calm _ hlock =>
    rw [hlock] at ho
    exact absurd ho hne
  | isr hlock =>
    rw [hlock] at ho
    exact absurd ho hne
  | @bump l' _ ho' =>
    by_cases hll : l = l'
    · subst hll
      simp only [Kernel.setLock, update_self] at ho
      exact absurd ho hne
    · simp only [Kernel.setLock, update_of_ne hll] at ho
      exact absurd ho hne
  | @take _ l' hacq ho' =>
    by_cases hll : l = l'
    · subst hll
      simp only [goto, Kernel.taken, update_self, Option.some.injEq] at ho
      exact ⟨ho.symm, hacq, ho'⟩
    · simp only [goto, Kernel.taken, update_of_ne hll] at ho
      exact absurd ho hne
  | wait _ _ hlock =>
    simp only [goto, hlock] at ho
    exact absurd ho hne
  | release _ _ hlock =>
    rw [hlock] at ho
    exact absurd (owner_of_update_released ho) hne
  | exit _ hdrain =>
    obtain ⟨k₁, -, -, hdr, -, -, -, hlock⟩ := hdrain (fun _ _ => True) (fun _ _ _ _ => trivial) trivial
    rw [hlock, hdr.lock] at ho
    split_ifs at ho with hown
    exact absurd ho hne

end Segment

/-- No segment that can come next fails, and each keeps the invariant. -/
theorem Inv.step (h : Inv m) {lbl : Label nl} (hen : m.Enabled lbl) :
    ∃ m', m.step lbl = some m' ∧ Inv m' := by
  obtain ⟨⟨L, hr⟩, ⟨H, hh⟩, hpc⟩ := h
  obtain ⟨m', hst, -, hinv⟩ := segment hr hh hpc hen
  exact ⟨m', hst, hinv⟩

theorem Run.inv {ok : Machine nl → Label nl → Prop} (h : Run ok m) : Inv m := by
  induction h with
  | init => exact init_inv
  | step _ hen _ hst ih =>
    obtain ⟨m', hst', hinv⟩ := ih.step hen
    rw [hst] at hst'
    rw [Option.some.inj hst']
    exact hinv

/-! ## The scheduler's invariant -/

/-- The thread lists hold exactly the threads their states say, and the running thread and
the idle thread are where they have to be. -/
structure SchedulerOk (k : Kernel nl) (L : ListRef nl → List Tid) : Prop where
  /-- The head, the links and the tail of every list are consistent, and a thread is on a list
  at most once. -/
  lists : ∀ r, Rep k.listNext (k.list r) (L r)
  running : ∀ t, k.thrtab t = true ∧ (k.thr t).state = .self ↔ t = k.tp
  running_off : ∀ r, k.tp ∉ L r
  ready : ∀ t, t ∈ L .ready ↔ k.thrtab t = true ∧ (k.thr t).state = .ready
  /-- A waiting thread is on the list of the condition it waits on, and on no other. -/
  waiting : ∀ t, k.thrtab t = true → (k.thr t).state = .waiting →
    ∃ c, (k.thr t).waitCond = some c ∧ ∀ r, t ∈ L r ↔ r = .wait c
  waits : ∀ c t, t ∈ L (.wait c) → k.thrtab t = true ∧ (k.thr t).state = .waiting
  exited : ∀ t, (k.thr t).state = .exited → ∀ r, t ∉ L r
  idle : k.thrtab idleTid = true ∧
    ((k.thr idleTid).state = .ready ∨ (k.thr idleTid).state = .self)

theorem schedulerOk {k : Kernel nl} {L : ListRef nl → List Tid} (h : Running k L) :
    SchedulerOk k L where
  lists := h.rep
  running t := by
    constructor
    · rintro ⟨hl, hs⟩
      exact h.self t hl hs
    · rintro rfl
      exact ⟨h.tp_live, h.tp_self⟩
  running_off := h.off
  ready := h.ready_iff
  waiting t hl hw := by
    have hne : t ≠ k.tp := by
      rintro rfl
      rw [h.tp_self] at hw
      cases hw
    obtain ⟨c, hc, hm⟩ := h.mem_of_wait t hl hne hw
    refine ⟨c, hc, fun r => ⟨fun hr => ?_, ?_⟩⟩
    · exact h.linked.disjoint r (.wait c) t hr hm
    · rintro rfl
      exact hm
  waits c t ht := ⟨(h.wait_of_mem c t ht).1, (h.wait_of_mem c t ht).2.1⟩
  exited t he r hr := by
    rcases h.state_of_mem hr with hst | hst <;> rw [he] at hst <;> cases hst
  idle := ⟨h.idle_live, h.idle⟩

/-- The scheduler's invariant.  In every state a run reaches, the lists and the states of the
threads agree, and no segment that can come next fails an assertion: the ready list is never
found empty. -/
theorem scheduler_invariant (h : Reachable m) :
    (∃ L, SchedulerOk m.k L) ∧ ∀ lbl, m.Enabled lbl → ∃ m', m.step lbl = some m' := by
  have hinv := h.inv
  constructor
  · obtain ⟨L, hr⟩ := hinv.running
    exact ⟨L, schedulerOk hr⟩
  · intro lbl hen
    obtain ⟨m', hst, -⟩ := hinv.step hen
    exact ⟨m', hst⟩

/-- The main thread spawns a thread and yields until that one runs. -/
theorem scheduler_invariant_spawned : ∃ m : Machine 1, Reachable m ∧ m.k.tp = 1 ∧
    ∃ L, SchedulerOk m.k L := by
  have heval : (exec (fun _ _ => True) (init : Machine 1)
      [.call .spawn, .call .yield, .call .yield]).map (fun m => m.k.tp) = some 1 := by
    decide +kernel
  obtain ⟨m, hm, htp⟩ := Option.map_eq_some_iff.mp heval
  have hreach : Reachable m := Run.init.exec hm
  exact ⟨m, hreach, htp, (scheduler_invariant hreach).1⟩

end Machine

end MiniOs
