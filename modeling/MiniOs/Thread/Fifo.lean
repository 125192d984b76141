import MiniOs.Thread.Machine

/-!
# The order in which a lock is granted

`lock_release` wakes every waiter and leaves the lock free, and a waiter takes it when it runs
again and finds it free.  A thread that runs before the first waiter and calls `lock_acquire`
finds the lock free too, and overtakes the waiters.  This is the only way to overtake: in a
run without such a call a lock is granted in the order of arrival.

The argument is about where the waiters of a lock are.  While the lock is free all of them
are in the ready queue, next to each other and in the order of arrival.  While it is owned
they are on the wait list, in the order of arrival, followed by those that were woken and have
not run since, and these run before every thread that could call `lock_acquire` anew.
-/

namespace MiniOs

open Function (update_of_ne update_self)

/-- Where the waiters of a lock are, in the order of arrival: `ws` is the wait list of the lock,
`t` the running thread and `rs` the ready list. -/
def InOrder (owner : Option Tid) (ws : List Tid) (t : Tid) (rs arrived : List Tid) : Prop :=
  match owner with
  | none => ws = [] ∧ ∃ pre post, t :: rs = pre ++ arrived ++ post
  | some o => ∃ woken post, arrived = ws ++ woken ∧
      (t :: rs = woken ++ post ∨ t = o ∧ ws = [] ∧ rs = woken ++ post)

namespace InOrder

variable {owner : Option Tid} {o t t' : Tid} {ws rs rs' arrived : List Tid}

/-- Threads are added to the ready list. -/
theorem wake (h : InOrder owner ws t rs arrived) (xs : List Tid) :
    InOrder owner ws t (rs ++ xs) arrived := by
  cases owner with
  | none =>
    obtain ⟨hws, pre, post, hq⟩ := h
    refine ⟨hws, pre, post ++ xs, ?_⟩
    rw [← List.cons_append, hq, List.append_assoc]
  | some o =>
    obtain ⟨woken, post, harr, hq | ⟨hto, hws, hq⟩⟩ := h
    · refine ⟨woken, post ++ xs, harr, .inl ?_⟩
      rw [← List.cons_append, hq, List.append_assoc]
    · refine ⟨woken, post ++ xs, harr, .inr ⟨hto, hws, ?_⟩⟩
      rw [hq, List.append_assoc]

/-- A thread that does not wait for the lock gives up the processor. -/
theorem switch (h : InOrder owner ws t rs arrived) (ht : t ∉ arrived) (xs : List Tid)
    (hnext : rs ++ xs = t' :: rs') : InOrder owner ws t' rs' arrived := by
  cases owner with
  | none =>
    obtain ⟨hws, pre, post, hq⟩ := h
    refine ⟨hws, ?_⟩
    rw [← hnext]
    cases pre with
    | nil =>
      cases arrived with
      | nil => exact ⟨[], rs ++ xs, rfl⟩
      | cons a as =>
        cases hq
        exact absurd (List.mem_cons_self ..) ht
    | cons p pre =>
      simp only [List.cons_append, List.cons.injEq] at hq
      refine ⟨pre, post ++ xs, ?_⟩
      rw [hq.2, List.append_assoc _ post]
  | some o =>
    obtain ⟨woken, post, harr, hq | ⟨-, -, hq⟩⟩ := h
    · cases woken with
      | nil => exact ⟨[], t' :: rs', harr, .inl rfl⟩
      | cons w woken =>
        cases hq
        rw [harr] at ht
        exact absurd (List.mem_append_right _ (List.mem_cons_self ..)) ht
    · refine ⟨woken, post ++ xs, harr, .inl ?_⟩
      rw [← hnext, hq, List.append_assoc]

/-- A waiter that runs while the lock is free is the first. -/
theorem head_of_free (h : InOrder none ws t rs arrived) (hnd : (t :: rs).Nodup)
    (ht : t ∈ arrived) : ∃ as, arrived = t :: as := by
  obtain ⟨-, pre, post, hq⟩ := h
  cases pre with
  | nil =>
    cases arrived with
    | nil => cases ht
    | cons a as =>
      cases hq
      exact ⟨as, rfl⟩
  | cons p pre =>
    cases hq
    rw [List.nodup_cons] at hnd
    exact absurd (List.mem_append_left _ (List.mem_append_right _ ht)) hnd.1

/-- The first waiter takes the lock. -/
theorem take (h : InOrder none ws t rs (t :: arrived)) (hnd : (t :: rs).Nodup) :
    InOrder (some t) ws t rs arrived := by
  obtain ⟨hws, pre, post, hq⟩ := h
  cases pre with
  | nil =>
    cases hq
    exact ⟨arrived, post, by rw [hws]; rfl, .inr ⟨rfl, hws, rfl⟩⟩
  | cons p pre =>
    cases hq
    rw [List.nodup_cons] at hnd
    exact absurd (List.mem_append_left _ (List.mem_append_right _ (List.mem_cons_self ..))) hnd.1

/-- A thread takes a lock nobody waits for. -/
theorem takeFree (h : InOrder none ws t rs []) : InOrder (some t) ws t rs [] :=
  ⟨[], t :: rs, by rw [h.1]; rfl, .inl rfl⟩

/-- A waiter finds the lock owned and waits again. -/
theorem waitAgain (h : InOrder (some o) ws t (t' :: rs) arrived) (hnd : arrived.Nodup)
    (hto : t ≠ o) (hws : t ∉ ws) (ht : t ∈ arrived) :
    InOrder (some o) (ws ++ [t]) t' rs arrived := by
  obtain ⟨woken, post, rfl, hq | ⟨hto', -, -⟩⟩ := h
  · cases woken with
    | nil =>
      rw [List.append_nil] at ht
      exact absurd ht hws
    | cons w woken =>
      obtain ⟨rfl, hrest⟩ := List.cons.inj hq
      exact ⟨woken, post, by simp, .inl hrest⟩
  · exact absurd hto' hto

/-- A thread finds the lock owned and waits for it. -/
theorem arrive (h : InOrder (some o) ws t (t' :: rs) arrived) (hto : t ≠ o) (ht : t ∉ arrived) :
    InOrder (some o) (ws ++ [t]) t' rs (arrived ++ [t]) := by
  obtain ⟨woken, post, rfl, hq | ⟨hto', -, -⟩⟩ := h
  · cases woken with
    | nil => exact ⟨[], t' :: rs, by simp, .inl rfl⟩
    | cons w woken =>
      obtain ⟨rfl, -⟩ := List.cons.inj hq
      exact absurd (List.mem_append_right _ (List.mem_cons_self ..)) ht
  · exact absurd hto' hto

/-- The owner releases the lock and wakes the wait list. -/
theorem release (h : InOrder (some t) ws t rs arrived) (ht : t ∉ arrived) :
    InOrder none [] t (rs ++ ws) arrived := by
  refine ⟨rfl, ?_⟩
  obtain ⟨woken, post, rfl, hq | ⟨-, rfl, hq⟩⟩ := h
  · cases woken with
    | nil => exact ⟨t :: rs, [], by simp⟩
    | cons w woken =>
      obtain ⟨rfl, -⟩ := List.cons.inj hq
      exact absurd (List.mem_append_right _ (List.mem_cons_self ..)) ht
  · exact ⟨[t], post, by simp [hq]⟩

/-- A waiter is on the wait list, ready or running. -/
theorem mem (h : InOrder owner ws t rs arrived) {u : Tid} (hu : u ∈ arrived) :
    u ∈ ws ∨ u ∈ t :: rs := by
  cases owner with
  | none =>
    obtain ⟨-, pre, post, hq⟩ := h
    right
    rw [hq]
    exact List.mem_append_left _ (List.mem_append_right _ hu)
  | some o =>
    obtain ⟨woken, post, rfl, hq⟩ := h
    rcases List.mem_append.mp hu with hu | hu
    · exact .inl hu
    · right
      rcases hq with hq | ⟨-, -, rfl⟩
      · rw [hq]
        exact List.mem_append_left _ hu
      · exact List.mem_cons_of_mem _ (List.mem_append_left _ hu)

end InOrder

namespace Machine

open Kernel (Running Held)

variable {nl : Nat} {m m' : Machine nl} {l : Fin nl} {t : Tid} {L' : ListRef nl → List Tid}
  {cs : List (Cond nl)} {k' : Kernel nl}

/-! ## Arrivals -/

/-- The threads that wait inside `lock_acquire` of each lock, in the order in which they
began to wait. -/
abbrev Arrivals (nl : Nat) := Fin nl → List Tid

/-- The arrivals after a segment from `m` to `m'`. -/
def arrivals (m : Machine nl) (lbl : Label nl) (m' : Machine nl) (arrived : Arrivals nl) :
    Arrivals nl :=
  match lbl with
  | .call (.acquire l) =>
      if m'.pc m.k.tp = .user then arrived
      else Function.update arrived l (arrived l ++ [m.k.tp])
  | .resume _ _ =>
      match m.pc m.k.tp with
      | .acquire l =>
          if m'.pc m.k.tp = .user then Function.update arrived l ((arrived l).erase m.k.tp)
          else arrived
      | _ => arrived
  | _ => arrived

/-- The condition inside a lock is used by the lock functions only. -/
def Private (lbl : Label nl) : Prop := ∀ l, Cond.lockCv l ∉ conds lbl

/-- No thread calls `lock_acquire` of a free lock while another one waits in it. -/
def Orderly (m : Machine nl) : Label nl → Prop
  | .call (.acquire l) => (m.k.lock l).owner = none → ∀ t, m.pc t ≠ .acquire l
  | _ => True

/-- The states reached by runs of orderly segments, with the arrivals. -/
inductive Orderliness : Machine nl → Arrivals nl → Prop where
  | init : Orderliness init fun _ => []
  | step {m m' : Machine nl} {arrived : Arrivals nl} {lbl : Label nl} : Orderliness m arrived →
      m.Enabled lbl → Private lbl → Orderly m lbl → m.step lbl = some m' →
      Orderliness m' (arrivals m lbl m' arrived)

instance (lbl : Label nl) : Decidable (Private lbl) :=
  inferInstanceAs (Decidable (∀ l, Cond.lockCv l ∉ conds lbl))

instance (m : Machine nl) : (lbl : Label nl) → Decidable (Orderly m lbl)
  | .call (.acquire l) => inferInstanceAs
      (Decidable ((m.k.lock l).owner = none → ∀ t, m.pc t ≠ .acquire l))
  | .call (.spawn) | .call (.yield) | .call (.exit _) | .call (.join ..) | .call (.wait ..)
  | .call (.broadcast _) | .call (.release _) | .resume _ _ | .isr _ => isTrue trivial

/-- The state and the arrivals after a given run, if it is orderly. -/
def lineUp (m : Machine nl) (arrived : Arrivals nl) :
    List (Label nl) → Option (Machine nl × Arrivals nl)
  | [] => some (m, arrived)
  | lbl :: lbls =>
      if m.Enabled lbl ∧ Private lbl ∧ Orderly m lbl then
        (m.step lbl).bind fun m' => lineUp m' (arrivals m lbl m' arrived) lbls
      else none

theorem Orderliness.lineUp {arrived arrived' : Arrivals nl} {lbls : List (Label nl)}
    (h : Orderliness m arrived) (heq : Machine.lineUp m arrived lbls = some (m', arrived')) :
    Orderliness m' arrived' := by
  refine keeps_of_run (f := fun x => Machine.lineUp x.1 x.2) (s := (m, arrived))
    (g := fun x lbl m' => (m', arrivals x.1 lbl m' x.2)) (P := fun x => Orderliness x.1 x.2)
    (fun _ => rfl) (fun _ _ _ => rfl) ?_ h heq
  intro _ _ _ h hok
  exact h.step hok.1 hok.2.1 hok.2.2

/-- Thread `u` began to wait before `t` called `lock_acquire`, and still waits. -/
def Overtaken (arrived : List Tid) (t u : Tid) : Prop :=
  u ∈ arrived ∧ u ≠ t ∧ (t ∈ arrived → arrived.idxOf u < arrived.idxOf t)

theorem arrivals_calm {lbl : Label nl} (h : Calm m lbl) (arrived : Arrivals nl) :
    arrivals m lbl m' arrived = arrived := by
  cases lbl with
  | call c => cases c <;> first | rfl | cases h
  | resume isr1 isr2 =>
    cases hp : m.pc m.k.tp with
    | user => simp [arrivals, hp]
    | acquire l => exact absurd hp (h l)
    | join tid => simp [arrivals, hp]
  | isr c => cases h

/-! ## The waiters of a lock are in order -/

/-- What holds of the arrivals in an orderly run. -/
structure Lined (m : Machine nl) (L : ListRef nl → List Tid) (arrived : Arrivals nl) : Prop where
  inOrder : ∀ l, InOrder (m.k.lock l).owner (L (.wait (.lockCv l))) m.k.tp (L .ready) (arrived l)
  mem_iff : ∀ l t, t ∈ arrived l ↔ m.pc t = .acquire l
  nodup : ∀ l, (arrived l).Nodup
  owner : ∀ l t, (m.k.lock l).owner = some t → m.pc t ≠ .acquire l

/-- Nothing is done to lock `l` while the lists change. -/
theorem Moved.inOrder {t' : Tid} {L : ListRef nl → List Tid} (h : Moved cs t t' L L')
    (hl : Cond.lockCv l ∉ cs) {owner : Option Tid} {arrived : List Tid} (ht : t ∉ arrived)
    (ho : InOrder owner (L (.wait (.lockCv l))) t (L .ready) arrived) :
    InOrder owner (L' (.wait (.lockCv l))) t' (L' .ready) arrived := by
  obtain ⟨L1, hf, hcase⟩ := h
  obtain ⟨xs, hxs⟩ := hf.ready
  rw [← hf.wait (.lockCv l) (not_named_lockCv hl)] at ho
  rcases hcase with ⟨rfl, rfl⟩ | ⟨ts, hq, rfl⟩
  · rw [hxs]
    exact ho.wake xs
  · rw [update_self, update_of_ne (by simp)]
    exact ho.switch ht xs (hxs.symm.trans hq)

namespace Lined

variable {L : ListRef nl → List Tid} {arrived : Arrivals nl}

section

variable (h : Lined m L arrived)

include h

theorem not_mem (ht : m.pc t ≠ .acquire l) :
    t ∉ arrived l := fun hmem => ht ((h.mem_iff l t).mp hmem)

/-- A waiting thread has a slot. -/
theorem live (hr : Running m.k L) (ht : t ∈ arrived l) : m.k.thrtab t = true := by
  rcases (h.inOrder l).mem ht with hw | hq
  · exact (hr.wait_of_mem _ t hw).1
  · rcases List.mem_cons.mp hq with rfl | hq
    · exact hr.tp_live
    · exact ((hr.ready_iff t).mp hq).1

/-- A segment that does nothing to the locks. -/
theorem calm (hr : Running m.k L) (hcs : ∀ l, Cond.lockCv l ∉ cs) (hlock : m'.k.lock = m.k.lock)
    (htp : ∀ l, m.pc m.k.tp ≠ .acquire l) (hm : Moved cs m.k.tp m'.k.tp L L')
    (hpc : ∀ t l, m'.pc t = .acquire l → m.pc t = .acquire l)
    (hpc' : ∀ t l, m.k.thrtab t = true → m.pc t = .acquire l → m'.pc t = .acquire l) :
    Lined m' L' arrived where
  inOrder l := by
    rw [hlock]
    exact hm.inOrder (hcs l) (h.not_mem (htp l)) (h.inOrder l)
  mem_iff l t := by
    constructor
    · intro ht
      exact hpc' t l (h.live hr ht) ((h.mem_iff l t).mp ht)
    · intro ht
      exact (h.mem_iff l t).mpr (hpc t l ht)
  nodup := h.nodup
  owner l t ho := by
    rw [hlock] at ho
    exact fun ht => h.owner l t ho (hpc t l ht)

/-- The running thread is the first waiter, or there is none, and it takes the free lock. -/
theorem take (hr : Running m.k L) {as : List Tid} (ho : (m.k.lock l).owner = none)
    (hfirst : arrived l = m.k.tp :: as ∨ arrived l = [] ∧ as = [] ∧ m.pc m.k.tp = .user) :
    Lined (m.goto (m.k.taken l) m.k.tp .user) L (Function.update arrived l as) := by
  have hnd : (m.k.tp :: L .ready).Nodup := List.nodup_cons.mpr ⟨hr.off _, (hr.rep _).nodup⟩
  have hl := h.inOrder l
  rw [ho] at hl
  -- the thread is not among those left, and it waits for no other lock
  have has : m.k.tp ∉ as ∧ ∀ l', l' ≠ l → m.pc m.k.tp ≠ .acquire l' := by
    rcases hfirst with hq | ⟨-, rfl, hp⟩
    · have hndl := h.nodup l
      rw [hq, List.nodup_cons] at hndl
      refine ⟨hndl.1, fun l' hne hp => hne ?_⟩
      have hmem : m.k.tp ∈ arrived l := by
        rw [hq]
        exact List.mem_cons_self ..
      rw [(h.mem_iff l _).mp hmem] at hp
      exact (Pc.acquire.inj hp).symm
    · exact ⟨List.not_mem_nil, fun l' _ hp' => by rw [hp] at hp'; cases hp'⟩
  have hmem : ∀ t, t ≠ m.k.tp → (t ∈ as ↔ t ∈ arrived l) := by
    intro t ht
    rcases hfirst with hq | ⟨hq, rfl, -⟩
    · simp [hq, ht]
    · rw [hq]
  refine ⟨fun l' => ?_, fun l' t => ?_, fun l' => ?_, fun l' t ho' => ?_⟩
  · by_cases hne : l' = l
    · subst hne
      simp only [goto, Kernel.taken, update_self]
      rcases hfirst with hq | ⟨hq, rfl, -⟩
      · rw [hq] at hl
        exact hl.take hnd
      · rw [hq] at hl
        exact hl.takeFree
    · simp only [goto, Kernel.taken, update_of_ne hne]
      exact h.inOrder l'
  · by_cases ht : t = m.k.tp
    · subst ht
      by_cases hne : l' = l
      · subst hne
        simp [goto, has.1]
      · simpa [goto, hne] using h.not_mem (has.2 l' hne)
    · by_cases hne : l' = l
      · subst hne
        simpa [goto, ht, hmem t ht] using h.mem_iff l' t
      · simpa [goto, ht, hne] using h.mem_iff l' t
  · by_cases hne : l' = l
    · subst hne
      have hndl := h.nodup l'
      rw [update_self]
      rcases hfirst with hq | ⟨-, rfl, -⟩
      · rw [hq, List.nodup_cons] at hndl
        exact hndl.2
      · exact List.nodup_nil
    · rw [update_of_ne hne]
      exact h.nodup l'
  · by_cases ht : t = m.k.tp
    · subst ht
      simp [goto]
    · have hne : l' ≠ l := by
        rintro rfl
        simp only [goto, Kernel.taken, update_self, Option.some.injEq] at ho'
        exact ht ho'.symm
      simp only [goto, Kernel.taken, update_of_ne hne] at ho'
      simpa [goto, ht] using h.owner l' t ho'

/-- The running thread finds the lock owned, and waits for it or waits again. -/
theorem wait (hr : Running m.k L) {o : Tid}
    {as ts : List Tid} (ho : (m.k.lock l).owner = some o) (hne : m.k.tp ≠ o)
    (hlock : k'.lock = m.k.lock) (hq : L .ready = k'.tp :: ts)
    (harr : m.pc m.k.tp = .acquire l ∧ as = arrived l ∨
      m.pc m.k.tp = .user ∧ as = arrived l ++ [m.k.tp]) :
    Lined (m.goto k' m.k.tp (.acquire l))
      (Function.update (Kernel.appended L (.wait (.lockCv l)) m.k.tp) .ready ts)
      (Function.update arrived l as) := by
  have hl := h.inOrder l
  rw [ho, hq] at hl
  have hother : ∀ l', l' ≠ l → m.pc m.k.tp ≠ .acquire l' := by
    intro l' hne' hp
    rcases harr with ⟨hp', -⟩ | ⟨hp', -⟩
    · rw [hp'] at hp
      exact hne' (Pc.acquire.inj hp).symm
    · rw [hp'] at hp
      cases hp
  have has : m.k.tp ∈ as ∧ as.Nodup ∧ ∀ t, t ≠ m.k.tp → (t ∈ as ↔ t ∈ arrived l) := by
    rcases harr with ⟨hp, rfl⟩ | ⟨hp, rfl⟩
    · exact ⟨(h.mem_iff l _).mpr hp, h.nodup l, fun _ _ => Iff.rfl⟩
    · refine ⟨by simp, ?_, fun t ht => by simp [ht]⟩
      have hnot : m.k.tp ∉ arrived l := h.not_mem (by rw [hp]; simp)
      rw [List.nodup_append]
      refine ⟨h.nodup l, List.nodup_singleton _, fun a ha b hb => ?_⟩
      rintro rfl
      rw [List.mem_singleton] at hb
      exact hnot (hb ▸ ha)
  refine ⟨fun l' => ?_, fun l' t => ?_, fun l' => ?_, fun l' t ho' => ?_⟩
  · by_cases hll : l' = l
    · subst hll
      simp only [goto, hlock, ho, Kernel.appended, update_self, ne_eq, reduceCtorEq,
        not_false_eq_true, update_of_ne]
      rcases harr with ⟨hp, rfl⟩ | ⟨hp, rfl⟩
      · exact hl.waitAgain (h.nodup l') hne (hr.off _) has.1
      · exact hl.arrive hne (h.not_mem (by rw [hp]; simp))
    · have hcv : ListRef.wait (Cond.lockCv l') ≠ .wait (.lockCv l) := by simpa using hll
      simp only [goto, hlock, Kernel.appended, update_self, ne_eq, reduceCtorEq,
        not_false_eq_true, update_of_ne, hcv, hll]
      refine (h.inOrder l').switch (h.not_mem (hother l' hll)) [] ?_
      rw [List.append_nil]
      exact hq
  · by_cases ht : t = m.k.tp
    · subst ht
      by_cases hll : l' = l
      · subst hll
        simp [goto, has.1]
      · simpa [goto, hll, Ne.symm hll] using h.not_mem (hother l' hll)
    · by_cases hll : l' = l
      · subst hll
        simpa [goto, ht, has.2.2 t ht] using h.mem_iff l' t
      · simpa [goto, ht, hll] using h.mem_iff l' t
  · by_cases hll : l' = l
    · subst hll
      rw [update_self]
      exact has.2.1
    · rw [update_of_ne hll]
      exact h.nodup l'
  · simp only [goto, hlock] at ho'
    by_cases ht : t = m.k.tp
    · subst ht
      have hll : l ≠ l' := by
        rintro rfl
        rw [ho] at ho'
        exact hne (Option.some.inj ho').symm
      simpa [goto] using hll
    · simpa [goto, ht] using h.owner l' t ho'

end

end Lined

/-- A release keeps the waiters of every lock in order. -/
theorem inOrder_released {k : Kernel nl} {L : ListRef nl → List Tid} {arrived : Arrivals nl}
    (h : ∀ l, InOrder (k.lock l).owner (L (.wait (.lockCv l))) k.tp (L .ready) (arrived l))
    (ht : ∀ l, k.tp ∉ arrived l)
    (hlock : k'.lock = Function.update k.lock l (Kernel.released (k.lock l) k.tp))
    (htp : k'.tp = k.tp) (l' : Fin nl) :
    InOrder (k'.lock l').owner (Kernel.releasedLists k L l (.wait (.lockCv l'))) k'.tp
      (Kernel.releasedLists k L l .ready) (arrived l') := by
  have hl' := h l'
  rw [hlock, htp, Kernel.releasedLists]
  by_cases hfree : (k.lock l).owner = some k.tp ∧ ¬ 1 < (k.lock l).count
  · rw [if_pos hfree]
    by_cases hll : l' = l
    · subst hll
      rw [hfree.1] at hl'
      simp only [update_self, Kernel.released, if_pos hfree.1, if_neg hfree.2,
        Kernel.wokenLists]
      simpa using hl'.release (ht l')
    · have hcv : ListRef.wait (Cond.lockCv l') ≠ .wait (.lockCv l) := by simpa using hll
      simp only [update_of_ne hll, Kernel.wokenLists]
      simpa [hll] using hl'.wake (L (.wait (.lockCv l)))
  · rw [if_neg hfree]
    have howner : (Function.update k.lock l (Kernel.released (k.lock l) k.tp) l').owner =
        (k.lock l').owner := by
      by_cases hll : l' = l
      · subst hll
        rw [update_self, Kernel.released]
        by_cases ho : (k.lock l').owner = some k.tp
        · have hc : 1 < (k.lock l').count := by
            by_contra hc
            exact hfree ⟨ho, hc⟩
          rw [if_pos ho, if_pos hc]
        · rw [if_neg ho]
      · rw [update_of_ne hll]
    rw [howner]
    exact hl'

namespace Lined

variable {L : ListRef nl → List Tid} {arrived : Arrivals nl}

/-- The locks change, and where threads go on does not. -/
theorem relock (h : Lined m L arrived)
    (hin : ∀ l, InOrder (k'.lock l).owner (L' (.wait (.lockCv l))) k'.tp (L' .ready) (arrived l))
    (howner : ∀ l t, (k'.lock l).owner = some t → (m.k.lock l).owner = some t) :
    Lined { m with k := k' } L' arrived :=
  ⟨hin, h.mem_iff, h.nodup, fun l t ho => h.owner l t (howner l t ho)⟩

/-- `thread_exit` releases locks and wakes threads. -/
theorem exit (h : Lined m L arrived) (htp : ∀ l, m.k.tp ∉ arrived l)
    {isr : List (Cond nl)} (hisr : ∀ l, Cond.lockCv l ∉ isr)
    (hdrain : ∀ p : Kernel nl → (ListRef nl → List Tid) → Prop,
      (∀ {k k' L H l}, Running k L → Held k H → k.lockRelease l = some k' → p k L →
        p k' (Kernel.releasedLists k L l)) → p m.k L →
      ∃ k1 L1 L', Kernel.Drained m.k k1 ∧ p k1 L1 ∧ Moved isr k1.tp k'.tp L1 L' ∧
        Running k' L' ∧ k'.lock = k1.lock) :
    ∃ L', Running k' L' ∧ Lined { m with k := k' } L' arrived := by
  obtain ⟨k1, L1, L', -, ⟨htp1, hin1, howner1⟩, hmoved, hrun, hlock⟩ := hdrain
    (fun k L => k.tp = m.k.tp ∧
      (∀ l, InOrder (k.lock l).owner (L (.wait (.lockCv l))) k.tp (L .ready) (arrived l)) ∧
      ∀ l t, (k.lock l).owner = some t → (m.k.lock l).owner = some t)
    (by
      intro k k' L H l hr hh heq ⟨hk, hin, howner⟩
      obtain ⟨k'', H', heq', -, -, hlock, hre⟩ := hr.lockRelease hh l
      rw [heq] at heq'
      cases heq'
      refine ⟨hre.tp.trans hk, inOrder_released hin (by rw [hk]; exact htp) hlock hre.tp, ?_⟩
      intro l' t ho
      rw [hlock] at ho
      exact howner l' t (owner_of_update_released ho))
    ⟨rfl, h.inOrder, fun _ _ => id⟩
  refine ⟨L', hrun, h.relock (fun l => ?_) fun l t ho => ?_⟩
  · rw [hlock]
    exact hmoved.inOrder (hisr l) (by rw [htp1]; exact htp l) (hin1 l)
  · rw [hlock] at ho
    exact howner1 l t ho

end Lined

/-! ## Orderly runs -/

section Step

variable {L : ListRef nl → List Tid} {arrived : Arrivals nl} {lbl : Label nl}

/-- In an orderly segment the lock goes to the first waiter, or nobody waits. -/
theorem Lined.first (hl : Lined m L arrived) (hr : Running m.k L) (hord : Orderly m lbl)
    (hacq : Acquires m l lbl) (ho : (m.k.lock l).owner = none) :
    (∃ as, m.pc m.k.tp = .acquire l ∧ arrived l = m.k.tp :: as) ∨
      arrived l = [] ∧ m.pc m.k.tp = .user := by
  cases lbl with
  | call c =>
    obtain ⟨rfl, hpu, -⟩ := hacq
    exact .inr ⟨List.eq_nil_iff_forall_not_mem.mpr fun t => hl.not_mem (hord ho t), hpu⟩
  | resume isr1 isr2 =>
    have hp : m.pc m.k.tp = .acquire l := hacq
    have hin := hl.inOrder l
    rw [ho] at hin
    obtain ⟨as, has⟩ := hin.head_of_free (List.nodup_cons.mpr ⟨hr.off _, (hr.rep _).nodup⟩)
      ((hl.mem_iff l _).mpr hp)
    exact .inl ⟨as, hp, has⟩
  | isr c => cases hacq

/-- An orderly segment keeps the waiters in order. -/
theorem Outcome.lined (h : Outcome m L lbl m') (hr : Running m.k L) (hl : Lined m L arrived)
    (hen : m.Enabled lbl) (hpriv : Private lbl) (hord : Orderly m lbl) :
    ∃ L', Running m'.k L' ∧ Lined m' L' (arrivals m lbl m' arrived) := by
  cases h with
  | @calm _ _ L' hcalm hlock hrun hmoved hpc hpc' =>
    have htp : ∀ l, m.pc m.k.tp ≠ .acquire l := by
      cases lbl with
      | call c => cases c <;> first | exact hcalm | cases hcalm
      | resume isr1 isr2 => exact hcalm
      | isr c => cases hcalm
    rw [arrivals_calm hcalm]
    exact ⟨L', hrun, hl.calm hr hpriv hlock htp hmoved hpc hpc'⟩
  | @isr c k' hlock htp hrun =>
    refine ⟨_, hrun, hl.relock (fun l => ?_) fun l t ho => ?_⟩
    · have hne : Cond.lockCv l ≠ c := fun heq => hpriv l (heq ▸ List.mem_singleton_self c)
      rw [hlock, htp]
      simpa [Kernel.wokenLists, hne] using (hl.inOrder l).wake (L (.wait c))
    · rw [hlock] at ho
      exact ho
  | @bump l hpu ho =>
    refine ⟨L, hr.congr rfl rfl rfl rfl fun _ => ⟨rfl, rfl⟩, ?_⟩
    have hsame : ∀ l', ((m.k.setLock l { m.k.lock l with
        count := (m.k.lock l).count + 1 }).lock l').owner = (m.k.lock l').owner := by
      intro l'
      by_cases hll : l' = l
      · subst hll
        simp [Kernel.setLock]
      · simp [Kernel.setLock, hll]
    simp only [arrivals, if_pos hpu]
    refine hl.relock (fun l' => ?_) fun l' t ho' => ?_
    · rw [hsame]
      exact hl.inOrder l'
    · rw [hsame] at ho'
      exact ho'
  | @take lbl l hacq ho =>
    refine ⟨L, hr.taken l, ?_⟩
    rcases hl.first hr hord hacq ho with ⟨as, hp, has⟩ | ⟨hnil, hpu⟩
    · have harr : arrivals m lbl (m.goto (m.k.taken l) m.k.tp .user) arrived =
          Function.update arrived l as := by
        cases lbl with
        | call c =>
          rw [hacq.2.1] at hp
          cases hp
        | resume isr1 isr2 => simp [arrivals, hp, goto, has]
        | isr c => cases hacq
      rw [harr]
      exact hl.take hr ho (.inl has)
    · have harr : arrivals m lbl (m.goto (m.k.taken l) m.k.tp .user) arrived =
          Function.update arrived l [] := by
        rw [← hnil, Function.update_eq_self]
        cases lbl with
        | call c =>
          obtain ⟨rfl, -, -⟩ := hacq
          simp [arrivals, goto]
        | resume isr1 isr2 =>
          have hp : m.pc m.k.tp = .acquire l := hacq
          rw [hp] at hpu
          cases hpu
        | isr c => cases hacq
      rw [harr]
      exact hl.take hr ho (.inr ⟨hnil, rfl, hpu⟩)
  | @wait lbl l k' ts hacq hno hlock hq hrun =>
    obtain ⟨o, ho⟩ := Option.ne_none_iff_exists'.mp hno
    refine ⟨_, hrun, ?_⟩
    cases lbl with
    | call c =>
      obtain ⟨rfl, hpu, hne⟩ := hacq
      have hto : m.k.tp ≠ o := by
        rintro rfl
        exact hne ho
      simpa [arrivals, goto] using hl.wait hr ho hto hlock hq (.inr ⟨hpu, rfl⟩)
    | resume isr1 isr2 =>
      have hp : m.pc m.k.tp = .acquire l := hacq
      have hto : m.k.tp ≠ o := by
        rintro rfl
        exact hl.owner l _ ho hp
      simpa [arrivals, goto, hp] using hl.wait hr ho hto hlock hq (.inl ⟨hp, rfl⟩)
    | isr c => cases hacq
  | @release l k' _ hrun hlock htp =>
    have hpu : ∀ l, m.k.tp ∉ arrived l := fun l => hl.not_mem (by rw [hen.1]; simp)
    refine ⟨_, hrun, hl.relock (inOrder_released hl.inOrder hpu hlock htp) fun l t ho => ?_⟩
    rw [hlock] at ho
    exact owner_of_update_released ho
  | exit hpu hdrain =>
    exact hl.exit (fun l => hl.not_mem (by rw [hpu]; simp)) hpriv hdrain

end Step

theorem Orderliness.reachable {arrived : Arrivals nl} (h : Orderliness m arrived) : Reachable m := by
  induction h with
  | init => exact .init
  | step _ hen _ _ hst ih => exact ih.step hen trivial hst

theorem Orderliness.lined {arrived : Arrivals nl} (h : Orderliness m arrived) :
    ∃ L, Running m.k L ∧ Lined m L arrived := by
  induction h with
  | init =>
    refine ⟨_, Kernel.init_running, fun l => ⟨rfl, [], _, rfl⟩, fun l t => ?_, fun l => List.nodup_nil,
      fun l t ho => nomatch ho⟩
    simp [Machine.init]
  | step hrun hen hpriv hord hst ih =>
    obtain ⟨L, hr, hl⟩ := ih
    obtain ⟨-, ⟨H, hh⟩, hpc⟩ := hrun.reachable.inv
    obtain ⟨m1, hst1, hout, -⟩ := segment hr hh hpc hen
    rw [hst] at hst1
    cases hst1
    exact hout.lined hr hl hen hpriv hord

/-- A lock is granted in the order of arrival as long as no thread calls `lock_acquire` of a
free lock while another one waits in it, and such a call is granted the lock out of order. -/
theorem lock_fifo {arrived : Arrivals nl} (h : Orderliness m arrived) {lbl : Label nl}
    (hen : m.Enabled lbl) (hpriv : Private lbl) (hst : m.step lbl = some m') :
    (∀ l t, t ∈ arrived l ↔ m.pc t = .acquire l) ∧
    ((∀ l t u, (m.k.lock l).owner ≠ some t → (m'.k.lock l).owner = some t →
      ¬ Overtaken (arrived l) t u) ↔ Orderly m lbl) := by
  obtain ⟨L, hr, hl⟩ := h.lined
  obtain ⟨-, ⟨H, hh⟩, hpc⟩ := h.reachable.inv
  obtain ⟨m1, hst1, hout, -⟩ := segment hr hh hpc hen
  rw [hst] at hst1
  cases hst1
  refine ⟨hl.mem_iff, fun hfair => ?_, fun hord l t u hne ho hover => ?_⟩
  · cases lbl with
    | resume isr1 isr2 => trivial
    | isr c => trivial
    | call c =>
      cases c with
      | acquire l =>
        intro ho u hu
        have hpu : m.pc m.k.tp = .user := hen.1
        have hown : (m'.k.lock l).owner = some m.k.tp := by
          have hfree := Kernel.lockAcquireLoop_free ho
          have hst' : m.stepCall (.acquire l) = some m' := hst
          rw [stepCall, Kernel.lockAcquire, if_neg (by rw [ho]; simp), hfree] at hst'
          cases hst'
          simp [Kernel.taken]
        refine hfair l m.k.tp u (by rw [ho]; simp) hown ⟨(hl.mem_iff l u).mpr hu, ?_, fun hmem => ?_⟩
        · rintro rfl
          rw [hpu] at hu
          cases hu
        · exact absurd hmem (hl.not_mem (by rw [hpu]; simp))
      | _ => trivial
  · obtain ⟨rfl, hacq, hfree⟩ := hout.granted hne ho
    obtain ⟨hu, hut, hbefore⟩ := hover
    rcases hl.first hr hord hacq hfree with ⟨as, -, has⟩ | ⟨hnil, -⟩
    · rw [has] at hbefore
      simp at hbefore
    · rw [hnil] at hu
      cases hu

/-- The main thread takes the lock and spawns a thread, which waits for it. -/
def contention : List (Label 1) :=
  [.call (.acquire 0), .call .spawn, .call .yield, .call .yield, .call (.acquire 0),
    .call (.release 0)]

/-- The waiting thread runs after the release and is granted the lock. -/
theorem lock_fifo_contention : ∃ (m m' : Machine 1) (arrived : Arrivals 1),
    Orderliness m arrived ∧ m.step (.resume [] []) = some m' ∧ (m'.k.lock 0).owner = some 1 ∧
      ∀ l t u, (m.k.lock l).owner ≠ some t → (m'.k.lock l).owner = some t →
        ¬ Overtaken (arrived l) t u := by
  have heval : (lineUp (init : Machine 1) (fun _ => []) (contention ++
      [.call .yield, .call .yield])).map (fun (m, _) => (decide (m.Enabled (.resume [] [])),
        (m.step (.resume [] [])).map fun m' => (m'.k.lock 0).owner)) =
          some (true, some (some 1)) := by
    decide +kernel
  obtain ⟨⟨m, arrived⟩, hm, hval⟩ := Option.map_eq_some_iff.mp heval
  simp only [Prod.mk.injEq, decide_eq_true_eq, Option.map_eq_some_iff] at hval
  obtain ⟨hen, m', hst, hown⟩ := hval
  have hrun : Orderliness m arrived := Orderliness.init.lineUp hm
  exact ⟨m, m', arrived, hrun, hst, hown,
    (lock_fifo hrun hen (by decide) hst).2.mpr trivial⟩

/-- The main thread releases the lock and takes it again, although thread 1 began to wait
before that call and still waits. -/
theorem lock_barging : ∃ (m m' : Machine 1) (arrived : Arrivals 1),
    Orderliness m arrived ∧ m.Enabled (.call (.acquire 0)) ∧
      m.step (.call (.acquire 0)) = some m' ∧ (m.k.lock 0).owner = none ∧
      (m'.k.lock 0).owner = some mainTid ∧ m'.pc 1 = .acquire 0 ∧
      Overtaken (arrived 0) mainTid 1 := by
  have heval : (lineUp (init : Machine 1) (fun _ => []) contention).map (fun (m, arrived) =>
      (decide (m.Enabled (.call (.acquire 0)) ∧ (m.k.lock 0).owner = none ∧ arrived 0 = [1]),
        (m.step (.call (.acquire 0))).map fun m' => ((m'.k.lock 0).owner, m'.pc 1))) =
          some (true, some (some mainTid, .acquire 0)) := by
    decide +kernel
  obtain ⟨⟨m, arrived⟩, hm, hval⟩ := Option.map_eq_some_iff.mp heval
  simp only [Prod.mk.injEq, decide_eq_true_eq, Option.map_eq_some_iff] at hval
  obtain ⟨⟨hen, ho, harr⟩, m', hst, hown, hpc⟩ := hval
  refine ⟨m, m', arrived, Orderliness.init.lineUp hm, hen, hst, ho, hown, hpc, ?_⟩
  rw [harr]
  exact ⟨by decide, by decide, by decide⟩

end Machine

end MiniOs
