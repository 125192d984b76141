import MiniOs.Thread.Model

/-!
# The thread lists

`Sched k L` relates a kernel to the lists it links together: `L .ready` are the ready
threads, and `L (.wait c)` the threads that wait on `c`, in order.  It holds at every point
where interrupts are unmasked, so also in the middle of a call, where the running thread may
already be marked waiting, ready or exited.  `Running k L` adds that the running thread is
marked as such, which holds between calls.

Each list operation has one lemma here that says what it does to `L`.
-/

namespace MiniOs.Kernel

open Function (update_of_ne update_self update_eq_self)

variable {nl : Nat} {k k' : Kernel nl} {L L' : ListRef nl → List Tid}
  {r : ListRef nl} {ts : List Tid}

/-! ## Links -/

/-- The lists the links of `k` spell out. -/
structure Linked (k : Kernel nl) (L : ListRef nl → List Tid) : Prop where
  rep : ∀ r, Rep k.listNext (k.list r) (L r)
  disjoint : ∀ r r' t, t ∈ L r → t ∈ L r' → r = r'

/-- The lists after `t` was put at the end of `r`. -/
def appended (L : ListRef nl → List Tid) (r : ListRef nl) (t : Tid) : ListRef nl → List Tid :=
  Function.update L r (L r ++ [t])

theorem Linked.tlinsert (h : Linked k L) (r : ListRef nl) {t : Tid} (ht : ∀ r', t ∉ L r') :
    ∃ next list, k.tlinsert r t = some { k with listNext := next, list := list } ∧
      Linked { k with listNext := next, list := list } (appended L r t) := by
  obtain ⟨next, q, heq, hrep, hkeep⟩ := (h.rep r).insertTail (ht r)
  refine ⟨next, Function.update k.list r q, ?_, ?_, ?_⟩
  · rw [Kernel.tlinsert, heq]
    rfl
  · intro r'
    by_cases hr : r' = r
    · subst hr
      simp only [appended, update_self]
      exact hrep
    · simp only [appended, update_of_ne hr]
      refine (h.rep r').congr fun a ha => hkeep a ?_ ?_
      · rintro rfl
        exact ht r' ha
      · exact fun har => hr (h.disjoint r' r a ha har)
  · intro r1 r2 a ha1 ha2
    have hmem : ∀ r', a ∈ appended L r t r' → a ∈ L r' ∨ a = t ∧ r' = r := by
      intro r' ha
      by_cases hr : r' = r
      · subst hr
        rw [appended, update_self, List.mem_append, List.mem_singleton] at ha
        exact ha.imp_right fun h => ⟨h, rfl⟩
      · rw [appended, update_of_ne hr] at ha
        exact .inl ha
    rcases hmem r1 ha1 with h1 | ⟨rfl, rfl⟩
    · rcases hmem r2 ha2 with h2 | ⟨rfl, rfl⟩
      · exact h.disjoint r1 r2 a h1 h2
      · exact absurd h1 (ht r1)
    · rcases hmem r2 ha2 with h2 | ⟨-, rfl⟩
      · exact absurd h2 (ht r2)
      · rfl

theorem Linked.tlremove_nil (h : Linked k L) (hr : L r = []) :
    k.tlremove r = (none, k) := by
  have hrep := h.rep r
  rw [hr] at hrep
  simp only [Kernel.tlremove, hrep.removeHead_nil, setList, update_eq_self]

theorem Linked.tlremove_cons (h : Linked k L) {t : Tid} (hr : L r = t :: ts) :
    ∃ next list, k.tlremove r = (some t, { k with listNext := next, list := list }) ∧
      Linked { k with listNext := next, list := list } (Function.update L r ts) := by
  have hrep := h.rep r
  rw [hr] at hrep
  obtain ⟨q, heq, hrep'⟩ := hrep.removeHead_cons
  refine ⟨Function.update k.listNext t none, Function.update k.list r q, ?_, ?_, ?_⟩
  · rw [Kernel.tlremove, heq]
    rfl
  · intro r'
    by_cases hr' : r' = r
    · subst hr'
      simp only [update_self]
      exact hrep'
    · simp only [update_of_ne hr']
      refine (h.rep r').congr fun a ha => update_of_ne ?_ _ _
      rintro rfl
      refine hr' (h.disjoint r' r a ha ?_)
      rw [hr]
      exact List.mem_cons_self ..
  · intro r1 r2 a ha1 ha2
    have hmem : ∀ r', a ∈ Function.update L r ts r' → a ∈ L r' := by
      intro r' ha
      by_cases hr' : r' = r
      · subst hr'
        rw [update_self] at ha
        rw [hr]
        exact List.mem_cons_of_mem _ ha
      · rw [update_of_ne hr'] at ha
        exact ha
    exact h.disjoint r1 r2 a (hmem r1 ha1) (hmem r2 ha2)

/-! ## Scheduling states -/

/-- The lists hold the threads their states say. -/
structure Sched (k : Kernel nl) (L : ListRef nl → List Tid) : Prop where
  rep : ∀ r, Rep k.listNext (k.list r) (L r)
  ready_iff : ∀ t, t ∈ L .ready ↔ k.thrtab t = true ∧ (k.thr t).state = .ready
  wait_of_mem : ∀ c t, t ∈ L (.wait c) →
    k.thrtab t = true ∧ (k.thr t).state = .waiting ∧ (k.thr t).waitCond = some c
  /-- The running thread may be marked waiting before it is put on its list. -/
  mem_of_wait : ∀ t, k.thrtab t = true → t ≠ k.tp → (k.thr t).state = .waiting →
    ∃ c, (k.thr t).waitCond = some c ∧ t ∈ L (.wait c)
  /-- A thread waits for its own children only. -/
  child : ∀ t u, u ∈ L (.wait (.childExit t)) → u = t
  self : ∀ t, k.thrtab t = true → (k.thr t).state = .self → t = k.tp
  initialized : ∀ t, k.thrtab t = true → (k.thr t).state ≠ .uninitialized
  tp_live : k.thrtab k.tp = true
  idle_live : k.thrtab idleTid = true
  idle : (k.thr idleTid).state = .ready ∨ (k.thr idleTid).state = .self

/-- The state between calls. -/
structure Running (k : Kernel nl) (L : ListRef nl → List Tid) : Prop extends Sched k L where
  tp_self : (k.thr k.tp).state = .self

/-- What the lists and the record of one thread say of each other. -/
structure Sched.At (k : Kernel nl) (L : ListRef nl → List Tid) (t : Tid) : Prop where
  ready_iff : t ∈ L .ready ↔ k.thrtab t = true ∧ (k.thr t).state = .ready
  wait_of_mem : ∀ c, t ∈ L (.wait c) →
    k.thrtab t = true ∧ (k.thr t).state = .waiting ∧ (k.thr t).waitCond = some c
  mem_of_wait : k.thrtab t = true → t ≠ k.tp → (k.thr t).state = .waiting →
    ∃ c, (k.thr t).waitCond = some c ∧ t ∈ L (.wait c)
  child : ∀ u, t ∈ L (.wait (.childExit u)) → t = u
  self : k.thrtab t = true → (k.thr t).state = .self → t = k.tp
  initialized : k.thrtab t = true → (k.thr t).state ≠ .uninitialized

namespace Sched

theorem each (h : Sched k L) (t : Tid) : At k L t :=
  ⟨h.ready_iff t, fun c => h.wait_of_mem c t, h.mem_of_wait t, fun u => h.child u t, h.self t,
    h.initialized t⟩

theorem of_at (hrep : ∀ r, Rep k.listNext (k.list r) (L r)) (hat : ∀ t, At k L t)
    (htp : k.thrtab k.tp = true) (hlive : k.thrtab idleTid = true)
    (hidle : (k.thr idleTid).state = .ready ∨ (k.thr idleTid).state = .self) : Sched k L :=
  ⟨hrep, fun t => (hat t).ready_iff, fun c t => (hat t).wait_of_mem c, fun t => (hat t).mem_of_wait,
    fun u t => (hat t).child u, fun t => (hat t).self, fun t => (hat t).initialized, htp, hlive,
    hidle⟩

namespace At

variable {t : Tid}

/-- A thread that keeps its record and its lists. -/
theorem congr (h : At k L t) (htab : k'.thrtab t = k.thrtab t)
    (hthr : (k'.thr t).state = (k.thr t).state ∧ (k'.thr t).waitCond = (k.thr t).waitCond)
    (htp : t = k'.tp ↔ t = k.tp) (hmem : ∀ r, t ∈ L' r ↔ t ∈ L r) : At k' L' t := by
  refine ⟨?_, fun c => ?_, ?_, fun u => ?_, ?_, ?_⟩ <;>
    simp only [htab, hthr, hmem, htp, ne_eq]
  · exact h.ready_iff
  · exact h.wait_of_mem c
  · exact h.mem_of_wait
  · exact h.child u
  · exact h.self
  · exact h.initialized

/-- A thread that is ready and on the ready list. -/
theorem ready (hlive : k.thrtab t = true) (hst : (k.thr t).state = .ready) (hmem : t ∈ L .ready)
    (hoff : ∀ c, t ∉ L (.wait c)) : At k L t :=
  ⟨iff_of_true hmem ⟨hlive, hst⟩, fun c hc => absurd hc (hoff c), by simp [hst],
    fun u hu => absurd hu (hoff _), by simp [hst], by simp [hst]⟩

/-- A thread on no list: the running one, or one that has exited. -/
theorem off (hoff : ∀ r, t ∉ L r)
    (hst : k.thrtab t = true → t = k.tp ∧ ((k.thr t).state = .self ∨ (k.thr t).state = .waiting) ∨
      (k.thr t).state = .exited) : At k L t := by
  refine ⟨iff_of_false (hoff _) ?_, fun c hc => absurd hc (hoff _), ?_,
    fun u hu => absurd hu (hoff _), ?_, ?_⟩
  · rintro ⟨hl, hs⟩
    rcases hst hl with ⟨-, h | h⟩ | h <;> rw [h] at hs <;> cases hs
  · intro hl hne hs
    rcases hst hl with ⟨h, -⟩ | h
    · exact absurd h hne
    · rw [h] at hs
      cases hs
  · intro hl hs
    rcases hst hl with ⟨h, -⟩ | h
    · exact h
    · rw [h] at hs
      cases hs
  · intro hl hs
    rcases hst hl with ⟨-, h | h⟩ | h <;> rw [h] at hs <;> cases hs

end At

end Sched

/-- The threads `ws` are woken. -/
def woken (thr : Tid → Thread nl) (ws : List Tid) : Tid → Thread nl := fun t =>
  if t ∈ ws then { thr t with waitCond := none, state := .ready } else thr t

abbrev wake (k : Kernel nl) (ws : List Tid) (next : Tid → Option Tid) (list : ListRef nl → Ends Tid) :
    Kernel nl :=
  { k with thr := woken k.thr ws, listNext := next, list := list }

/-- The lists after the threads that wait on `c` were woken. -/
def wokenLists (L : ListRef nl → List Tid) (c : Cond nl) : ListRef nl → List Tid :=
  Function.update (Function.update L .ready (L .ready ++ L (.wait c))) (.wait c) []

theorem wake_nil (k : Kernel nl) : k.wake [] k.listNext k.list = k := rfl

theorem wake_wake (k : Kernel nl) (ws ws' : List Tid) {next next' : Tid → Option Tid}
    {list list' : ListRef nl → Ends Tid} :
    (k.wake ws next list).wake ws' next' list' = k.wake (ws ++ ws') next' list' := by
  have hthr : woken (woken k.thr ws) ws' = woken k.thr (ws ++ ws') := by
    funext t
    by_cases h : t ∈ ws <;> by_cases h' : t ∈ ws' <;> simp [woken, h, h']
  rw [wake, hthr]

namespace Sched

theorem linked (h : Sched k L) : Linked k L := by
  refine ⟨h.rep, fun r r' t ht ht' => ?_⟩
  cases r with
  | ready =>
    cases r' with
    | ready => rfl
    | wait c =>
      have h1 := ((h.ready_iff t).mp ht).2
      rw [(h.wait_of_mem c t ht').2.1] at h1
      cases h1
  | wait c =>
    obtain ⟨-, hw, hc⟩ := h.wait_of_mem c t ht
    cases r' with
    | ready =>
      have h1 := ((h.ready_iff t).mp ht').2
      rw [hw] at h1
      cases h1
    | wait c' =>
      obtain ⟨-, -, hc'⟩ := h.wait_of_mem c' t ht'
      rw [hc] at hc'
      rw [Option.some.inj hc']

variable {t : Tid}

/-- A thread on a list is ready or waiting. -/
theorem state_of_mem (h : Sched k L) (ht : t ∈ L r) :
    (k.thr t).state = .ready ∨ (k.thr t).state = .waiting := by
  cases r with
  | ready => exact .inl ((h.ready_iff t).mp ht).2
  | wait c => exact .inr (h.wait_of_mem c t ht).2.1

theorem live_of_mem (h : Sched k L) (ht : t ∈ L r) : k.thrtab t = true := by
  cases r with
  | ready => exact ((h.ready_iff t).mp ht).1
  | wait c => exact (h.wait_of_mem c t ht).1

theorem off_of_self (h : Sched k L) (hs : (k.thr t).state = .self) (r : ListRef nl) : t ∉ L r := by
  intro hr
  rcases h.state_of_mem hr with hst | hst
  · rw [hs] at hst
    cases hst
  · rw [hs] at hst
    cases hst

/-! ## Waking threads -/

/-- The first thread that waits on a condition is woken. -/
theorem wakeOne (h : Sched k L) {c : Cond nl} (hc : L (.wait c) = t :: ts) (fuel : Nat) :
    ∃ next list, Kernel.drainWaitList c (fuel + 1) k =
        Kernel.drainWaitList c fuel (k.wake [t] next list) ∧
      Sched (k.wake [t] next list) (appended (Function.update L (.wait c) ts) .ready t) := by
  obtain ⟨next1, list1, hrem, hlink1⟩ := h.linked.tlremove_cons hc
  have htc : t ∈ L (.wait c) := by
    rw [hc]
    exact List.mem_cons_self ..
  have hnd := (h.rep (.wait c)).nodup
  rw [hc, List.nodup_cons] at hnd
  have hoff : ∀ r, t ∉ Function.update L (.wait c) ts r := by
    intro r hr
    by_cases hrc : r = .wait c
    · subst hrc
      rw [update_self] at hr
      exact hnd.1 hr
    · rw [update_of_ne hrc] at hr
      exact hrc (h.linked.disjoint r (.wait c) t hr htc)
  -- the links do not depend on the states of the threads
  have hlink1' : Linked (k.wake [t] next1 list1) (Function.update L (.wait c) ts) :=
    ⟨hlink1.rep, hlink1.disjoint⟩
  obtain ⟨next2, list2, hins, hlink2⟩ := hlink1'.tlinsert .ready hoff
  refine ⟨next2, list2, ?_, ?_⟩
  · rw [Kernel.drainWaitList, hrem]
    have hthr : Function.update k.thr t { k.thr t with waitCond := none, state := .ready } =
        woken k.thr [t] := by
      funext a
      by_cases ha : a = t
      · subst ha
        simp [woken]
      · simp [woken, ha]
    simp only [setThr, hthr, hins]
    rfl
  · obtain ⟨hlive, hwait, -⟩ := h.wait_of_mem c t htc
    have hmem : ∀ a r, a ≠ t → (a ∈ appended (Function.update L (.wait c) ts) .ready t r ↔ a ∈ L r) := by
      intro a r ha
      cases r with
      | ready => simp [appended, ha]
      | wait c' =>
        by_cases hcc : c' = c
        · subst hcc
          simp [appended, hc, ha]
        · simp [appended, hcc]
    refine .of_at hlink2.rep (fun a => ?_) h.tp_live h.idle_live ?_
    · by_cases ha : a = t
      · subst ha
        exact .ready hlive (by simp [woken]) (by simp [appended])
          fun c' => by simpa [appended] using hoff (.wait c')
      · exact (h.each a).congr rfl (by simp [woken, ha]) Iff.rfl fun r => hmem a r ha
    · by_cases ha : idleTid = t
      · subst ha
        simp [woken]
      · simpa [woken, ha] using h.idle

/-- The loop of `condition_broadcast` wakes the threads that wait, in order. -/
theorem drainWaitList (h : Sched k L) (c : Cond nl) {fuel : Nat}
    (hf : (L (.wait c)).length < fuel) :
    ∃ next list, Kernel.drainWaitList c fuel k =
        some (k.wake (L (.wait c)) next list) ∧
      Sched (k.wake (L (.wait c)) next list) (wokenLists L c) := by
  -- by induction on the wait list, with the kernel and the lists the loop has reached
  generalize hws : L (.wait c) = ws at hf
  induction ws generalizing k L fuel with
  | nil =>
    cases fuel with
    | zero => cases hf
    | succ fuel =>
      have hL : wokenLists L c = L := by
        funext r
        cases r with
        | ready => simp [wokenLists, hws]
        | wait c' =>
          by_cases hcc : c' = c
          · subst hcc
            simp [wokenLists, hws]
          · simp [wokenLists, hcc]
      refine ⟨k.listNext, k.list, ?_, ?_⟩
      · rw [Kernel.drainWaitList, h.linked.tlremove_nil hws, wake_nil]
      · rw [wake_nil, hL]
        exact h
  | cons t ts ih =>
    cases fuel with
    | zero => cases hf
    | succ fuel =>
      obtain ⟨next1, list1, heq1, h1⟩ := h.wakeOne hws fuel
      have hts : appended (Function.update L (.wait c) ts) .ready t (.wait c) = ts := by
        simp [appended]
      obtain ⟨next2, list2, heq2, h2⟩ := ih h1 hts (Nat.lt_of_succ_lt_succ hf)
      have hL : wokenLists (appended (Function.update L (.wait c) ts) .ready t) c =
          wokenLists L c := by
        funext r
        cases r with
        | ready => simp [wokenLists, appended, hws]
        | wait c' => by_cases hcc : c' = c <;> simp [wokenLists, appended, hcc]
      rw [hL, wake_wake] at h2
      rw [wake_wake] at heq2
      exact ⟨next2, list2, heq1.trans heq2, h2⟩

/-- `condition_broadcast` wakes every thread that waits on the condition. -/
theorem conditionBroadcast (h : Sched k L) (c : Cond nl) :
    ∃ next list, k.conditionBroadcast c =
        some (k.wake (L (.wait c)) next list) ∧
      Sched (k.wake (L (.wait c)) next list) (wokenLists L c) := by
  have hlen : (L (.wait c)).length ≤ nthr := by
    have := (h.rep (.wait c)).nodup.length_le_card
    rwa [Fintype.card_fin] at this
  exact h.drainWaitList c (Nat.lt_succ_of_le hlen)

end Sched

/-- The running thread is on the list of the condition it waits on, if it waits. -/
def Parked (k : Kernel nl) (L : ListRef nl → List Tid) : Prop :=
  (k.thr k.tp).state = .waiting → ∃ c, (k.thr k.tp).waitCond = some c ∧ k.tp ∈ L (.wait c)

theorem Parked.woken (h : Parked k L) (c : Cond nl) (next : Tid → Option Tid)
    (list : ListRef nl → Ends Tid) :
    Parked (k.wake (L (.wait c)) next list) (wokenLists L c) := by
  intro hw
  by_cases ht : k.tp ∈ L (.wait c)
  · simp [Kernel.woken, ht] at hw
  · simp only [Kernel.woken, ht, if_false] at hw ⊢
    obtain ⟨c', hc', hm⟩ := h hw
    refine ⟨c', hc', ?_⟩
    have hcc : c' ≠ c := by
      rintro rfl
      exact ht hm
    simpa [wokenLists, hcc] using hm

/-- The broadcasts of interrupts. -/
theorem Sched.interrupts (h : Sched k L) (isr : List (Cond nl)) :
    ∃ ws next list, k.interrupts isr = some (k.wake ws next list) ∧
      Sched (k.wake ws next list) (isr.foldl wokenLists L) ∧
      (Parked k L → Parked (k.wake ws next list) (isr.foldl wokenLists L)) := by
  induction isr generalizing k L with
  | nil =>
    exact ⟨[], k.listNext, k.list, rfl, h, id⟩
  | cons c isr ih =>
    obtain ⟨next1, list1, heq1, h1⟩ := h.conditionBroadcast c
    obtain ⟨ws, next2, list2, heq2, h2, hp2⟩ := ih h1
    refine ⟨L (.wait c) ++ ws, next2, list2, ?_⟩
    rw [wake_wake] at heq2 h2 hp2
    refine ⟨?_, h2, fun hp => hp2 (hp.woken c next1 list1)⟩
    rw [Kernel.interrupts, List.foldlM_cons, heq1]
    exact heq2

/-! ## Suspending the running thread -/

/-- The thread is marked ready if it was running. -/
def requeued (thr : Tid → Thread nl) (t : Tid) : Tid → Thread nl :=
  if (thr t).state = .self then Function.update thr t { thr t with state := .ready } else thr

/-- The ready list when the running thread is about to be suspended. -/
def readyQueue (k : Kernel nl) (L : ListRef nl → List Tid) : List Tid :=
  if (k.thr k.tp).state = .self then L .ready ++ [k.tp] else L .ready

/-- The kernel when the thread `t` goes on in place of the running thread. -/
abbrev resume (k : Kernel nl) (t : Tid) (next : Tid → Option Tid) (list : ListRef nl → Ends Tid) :
    Kernel nl :=
  { k with
    thr := Function.update (requeued k.thr k.tp) t { requeued k.thr k.tp t with state := .self }
    tp := t, listNext := next, list := list }

theorem Sched.requeueSelf (h : Sched k L) :
    ∃ next list, k.requeueSelf =
        some { k with thr := requeued k.thr k.tp, listNext := next, list := list } ∧
      Sched { k with thr := requeued k.thr k.tp, listNext := next, list := list }
        (Function.update L .ready (readyQueue k L)) := by
  by_cases hs : (k.thr k.tp).state = .self
  · have hoff := h.off_of_self hs
    have hlink : Linked (k.setState k.tp .ready) L := ⟨h.rep, h.linked.disjoint⟩
    obtain ⟨next, list, hins, hlink'⟩ := hlink.tlinsert .ready hoff
    have hL : Function.update L .ready (readyQueue k L) = appended L .ready k.tp := by
      rw [readyQueue, if_pos hs, appended]
    refine ⟨next, list, ?_, ?_⟩
    · rw [Kernel.requeueSelf, if_pos hs, hins, requeued, if_pos hs]
      rfl
    · rw [hL, requeued, if_pos hs]
      refine .of_at hlink'.rep (fun a => ?_) h.tp_live h.idle_live ?_
      · by_cases ha : a = k.tp
        · subst ha
          exact .ready h.tp_live (by simp) (by simp [appended])
            fun c => by simpa [appended] using hoff (.wait c)
        · refine (h.each a).congr rfl (by simp [ha]) Iff.rfl fun r => ?_
          cases r <;> simp [appended, ha]
      · by_cases ha : idleTid = k.tp
        · simp [ha]
        · simpa [ha] using h.idle
  · refine ⟨k.listNext, k.list, ?_, ?_⟩
    · rw [Kernel.requeueSelf, if_neg hs, requeued, if_neg hs]
    · rw [readyQueue, if_neg hs, update_eq_self, requeued, if_neg hs]
      exact h

/-- The second part: the first ready thread runs. -/
theorem Sched.dispatch (h : Sched k L) (hp : Parked k L) (hs : (k.thr k.tp).state ≠ .self)
    {t : Tid} (hr : L .ready = t :: ts) :
    ∃ next list, k.tlremove .ready = (some t, { k with listNext := next, list := list }) ∧
      Running
        { k with
          thr := Function.update k.thr t { k.thr t with state := .self }
          tp := t, listNext := next, list := list }
        (Function.update L .ready ts) := by
  obtain ⟨next, list, hrem, hlink⟩ := h.linked.tlremove_cons hr
  have htr : t ∈ L .ready := by
    rw [hr]
    exact List.mem_cons_self ..
  obtain ⟨hlive, hst⟩ := (h.ready_iff t).mp htr
  have hnd := (h.rep .ready).nodup
  rw [hr, List.nodup_cons] at hnd
  have hmem : ∀ a r, a ≠ t → (a ∈ Function.update L .ready ts r ↔ a ∈ L r) := by
    intro a r ha
    cases r <;> simp [hr, ha]
  refine ⟨next, list, hrem, .of_at hlink.rep (fun a => ?_) hlive h.idle_live ?_, by simp⟩
  · by_cases ha : a = t
    · subst ha
      refine .off (fun r hr' => ?_) fun _ => .inl ⟨rfl, .inl (by simp)⟩
      cases r with
      | ready => exact hnd.1 (by simpa using hr')
      | wait c =>
        have hw := h.wait_of_mem c a (by simpa using hr')
        rw [hst] at hw
        cases hw.2.1
    · by_cases hat : a = k.tp
      · -- the thread that ran is on its list now
        subst hat
        refine ⟨?_, ?_, fun _ _ => ?_, ?_, ?_, ?_⟩ <;>
          simp only [hmem _ _ ha, update_of_ne ha]
        · exact h.ready_iff _
        · exact fun c => h.wait_of_mem c _
        · exact hp
        · exact fun u => h.child u _
        · exact fun _ hself => absurd hself hs
        · exact h.initialized _
      · refine (h.each a).congr rfl (by simp [ha]) ?_ fun r => hmem a r ha
        exact iff_of_false ha hat
  · by_cases ha : idleTid = t
    · simp [ha]
    · simpa [ha] using h.idle

/-- The idle thread is in the ready queue. -/
theorem Sched.idle_mem_readyQueue (h : Sched k L) : idleTid ∈ readyQueue k L := by
  by_cases hs : (k.thr k.tp).state = .self
  · rw [readyQueue, if_pos hs, List.mem_append, List.mem_singleton]
    rcases h.idle with hi | hi
    · exact .inl ((h.ready_iff _).mpr ⟨h.idle_live, hi⟩)
    · exact .inr (h.self _ h.idle_live hi)
  · rw [readyQueue, if_neg hs]
    rcases h.idle with hi | hi
    · exact (h.ready_iff _).mpr ⟨h.idle_live, hi⟩
    · rw [h.self _ h.idle_live hi] at hi
      exact absurd hi hs

/-- `running_thread_suspend` finds a thread to run: the first of the ready queue. -/
theorem Sched.suspend (h : Sched k L) (hp : Parked k L) :
    ∃ t ts next list, readyQueue k L = t :: ts ∧
      k.runningThreadSuspend = some (k.resume t next list) ∧
      Running (k.resume t next list) (Function.update L .ready ts) := by
  obtain ⟨next1, list1, heq1, h1⟩ := h.requeueSelf
  obtain ⟨t, ts, hq⟩ : ∃ t ts, readyQueue k L = t :: ts := by
    cases hq : readyQueue k L with
    | nil =>
      have := h.idle_mem_readyQueue
      rw [hq] at this
      cases this
    | cons t ts => exact ⟨t, ts, rfl⟩
  have hs : (requeued k.thr k.tp k.tp).state ≠ .self := by
    by_cases hs : (k.thr k.tp).state = .self
    · simp [requeued, hs]
    · simp [requeued, hs]
  have hp' : Parked { k with thr := requeued k.thr k.tp, listNext := next1, list := list1 }
      (Function.update L .ready (readyQueue k L)) := by
    intro hw
    by_cases hself : (k.thr k.tp).state = .self
    · simp [requeued, hself] at hw
    · simp only [requeued, hself, if_false] at hw ⊢
      simpa using hp hw
  obtain ⟨next2, list2, hrem, hrun⟩ := h1.dispatch hp' hs (by rw [update_self, hq])
  rw [Function.update_idem] at hrun
  refine ⟨t, ts, next2, list2, hq, ?_, hrun⟩
  rw [runningThreadSuspend, heq1]
  simp only [Option.bind_eq_bind, Option.bind_some, hrem]
  rfl

end MiniOs.Kernel
