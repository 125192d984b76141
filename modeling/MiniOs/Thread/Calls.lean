import MiniOs.Thread.Lists

/-!
# The calls of the thread manager

What each call does to the lists and to the locks.  A call that only schedules leaves the
locks, the parents and the slots alone, and ends no thread (`Reshuffled`).  The locks a
thread holds are linked through their `next` fields from the thread's `lockList`, and
`Held k H` says that these lists are exactly the locks each thread owns.
-/

namespace MiniOs.Kernel

open Function (update_of_ne update_self update_eq_self)

variable {nl : Nat} {k k' : Kernel nl} {L : ListRef nl → List Tid}
  {t : Tid} {next : Tid → Option Tid} {c : Cond nl} {l : Fin nl} {st : ThreadState}
  {list : ListRef nl → Ends Tid}

/-! ## Calls that schedule -/

/-- Only states, wait conditions, lists and the running thread differ. -/
structure Reshuffled (k k' : Kernel nl) : Prop where
  thrtab : k'.thrtab = k.thrtab
  lock : k'.lock = k.lock
  lockNext : k'.lockNext = k.lockNext
  parent : ∀ t, (k'.thr t).parent = (k.thr t).parent
  lockList : ∀ t, (k'.thr t).lockList = (k.thr t).lockList
  exited : ∀ t, (k'.thr t).state = .exited → (k.thr t).state = .exited

theorem Reshuffled.refl (k : Kernel nl) : Reshuffled k k :=
  ⟨rfl, rfl, rfl, fun _ => rfl, fun _ => rfl, fun _ => id⟩

theorem Reshuffled.trans {k1 k2 k3 : Kernel nl} (h : Reshuffled k1 k2) (h' : Reshuffled k2 k3) :
    Reshuffled k1 k3 :=
  ⟨h'.thrtab.trans h.thrtab, h'.lock.trans h.lock, h'.lockNext.trans h.lockNext,
    fun t => (h'.parent t).trans (h.parent t), fun t => (h'.lockList t).trans (h.lockList t),
    fun t ht => h.exited t (h'.exited t ht)⟩

theorem reshuffled_woken (k : Kernel nl) (ws : List Tid) (next : Tid → Option Tid)
    (list : ListRef nl → Ends Tid) :
    Reshuffled k (k.wake ws next list) := by
  refine ⟨rfl, rfl, rfl, fun t => ?_, fun t => ?_, fun t => ?_⟩ <;>
    by_cases h : t ∈ ws <;> simp [woken, h]

theorem reshuffled_update (k : Kernel nl) (t : Tid) (hst : st ≠ .exited)
    (wc : Option (Cond nl)) (next : Tid → Option Tid) (list : ListRef nl → Ends Tid) (tp : Tid) :
    Reshuffled k
      { k with
        thr := Function.update k.thr t { k.thr t with state := st, waitCond := wc }
        listNext := next, list := list, tp := tp } := by
  refine ⟨rfl, rfl, rfl, fun a => ?_, fun a => ?_, fun a => ?_⟩
  · exact proj_update (p := Thread.parent) (by rfl) a
  · exact proj_update (p := Thread.lockList) (by rfl) a
  · by_cases h : a = t
    · subst h
      simp [hst]
    · simp [h]

/-- Scheduling reads the states, the wait conditions, the lists and the running thread. -/
theorem Running.congr (h : Running k L) (hnext : k'.listNext = k.listNext)
    (hlist : k'.list = k.list) (htab : k'.thrtab = k.thrtab) (htp : k'.tp = k.tp)
    (hthr : ∀ t, (k'.thr t).state = (k.thr t).state ∧ (k'.thr t).waitCond = (k.thr t).waitCond) :
    Running k' L := by
  refine ⟨.of_at (fun r => by rw [hnext, hlist]; exact h.rep r)
    (fun t => (h.each t).congr (by rw [htab]) (hthr t) (by rw [htp]) fun _ => Iff.rfl) ?_ ?_ ?_, ?_⟩
  · rw [htab, htp]
    exact h.tp_live
  · rw [htab]
    exact h.idle_live
  · rw [(hthr idleTid).1]
    exact h.idle
  · rw [(hthr _).1, htp]
    exact h.tp_self

/-- The running thread is on no list. -/
theorem Running.off (h : Running k L) (r : ListRef nl) : k.tp ∉ L r := h.off_of_self h.tp_self r

theorem reshuffled_resume (k : Kernel nl) (t : Tid) (next : Tid → Option Tid)
    (list : ListRef nl → Ends Tid) : Reshuffled k (k.resume t next list) := by
  have hq : Reshuffled k { k with thr := requeued k.thr k.tp } := by
    rw [requeued]
    split
    · exact reshuffled_update k k.tp (by decide) (k.thr k.tp).waitCond _ _ _
    · exact .refl k
  exact hq.trans (reshuffled_update _ t (by decide) _ next list t)

/-- `running_thread_suspend` switches to the first thread of the ready queue. -/
theorem Sched.switches (h : Sched k L) (hp : Parked k L) :
    ∃ k' ts, k.runningThreadSuspend = some k' ∧ readyQueue k L = k'.tp :: ts ∧
      Running k' (Function.update L .ready ts) ∧ Reshuffled k k' := by
  obtain ⟨t, ts, next, list, hq, heq, hrun⟩ := h.suspend hp
  exact ⟨_, ts, heq, hq, hrun, reshuffled_resume k t next list⟩

/-- The running thread, which is waiting or has exited, is suspended after interrupts. -/
theorem Sched.interrupts_suspend (h : Sched k L) (hp : Parked k L) (hs : (k.thr k.tp).state ≠ .self)
    (isr : List (Cond nl)) :
    ∃ k1 k' ts, k.interrupts isr = some k1 ∧ k1.runningThreadSuspend = some k' ∧
      isr.foldl wokenLists L .ready = k'.tp :: ts ∧
      Running k' (Function.update (isr.foldl wokenLists L) .ready ts) ∧ Reshuffled k k' := by
  obtain ⟨ws, next, list, heq1, h1, hp1⟩ := h.interrupts isr
  obtain ⟨k', ts, heq, hq, hrun, hsame⟩ := h1.switches (hp1 hp)
  have hns : (woken k.thr ws k.tp).state ≠ .self := by
    by_cases hw : k.tp ∈ ws
    · simp [woken, hw]
    · rwa [woken, if_neg hw]
  rw [readyQueue, if_neg hns] at hq
  exact ⟨_, k', ts, heq1, heq, hq, hrun, (reshuffled_woken k ws next list).trans hsame⟩

/-- `thread_yield`. -/
theorem Running.threadYield (h : Running k L) :
    ∃ k' ts, k.threadYield = some k' ∧ L .ready ++ [k.tp] = k'.tp :: ts ∧
      Running k' (Function.update L .ready ts) ∧ Reshuffled k k' := by
  obtain ⟨k', ts, heq, hq, hrun, hsame⟩ := h.switches (fun hw => by
    rw [h.tp_self] at hw
    cases hw)
  rw [readyQueue, if_pos h.tp_self] at hq
  exact ⟨k', ts, heq, hq, hrun, hsame⟩

/-- A broadcast leaves the running thread running. -/
theorem Running.conditionBroadcast (h : Running k L) (c : Cond nl) :
    ∃ k', k.conditionBroadcast c = some k' ∧ k'.tp = k.tp ∧ Running k' (wokenLists L c) ∧
      Reshuffled k k' := by
  obtain ⟨next, list, heq, hs⟩ := h.toSched.conditionBroadcast c
  refine ⟨_, heq, rfl, ⟨hs, ?_⟩, reshuffled_woken k _ next list⟩
  have hoff := h.off (.wait c)
  simp [woken, hoff, h.tp_self]

/-- The lists when the running thread was put on the wait list of `c`. -/
def waitLists (L : ListRef nl → List Tid) (c : Cond nl) (t : Tid) (isr₁ isr₂ : List (Cond nl)) :
    ListRef nl → List Tid :=
  isr₂.foldl wokenLists (appended (isr₁.foldl wokenLists L) (.wait c) t)

/-- Interrupts put no thread on a list that was on none. -/
theorem not_mem_foldl_woken (isr : List (Cond nl)) (ht : ∀ r, t ∉ L r) (r : ListRef nl) :
    t ∉ isr.foldl wokenLists L r := by
  induction isr generalizing L with
  | nil => exact ht r
  | cons c isr ih =>
    refine ih fun r => ?_
    cases r with
    | ready => simp [wokenLists, ht]
    | wait c' => by_cases hcc : c' = c <;> simp [wokenLists, hcc, ht]

/-- The running thread is marked waiting or exited, and is on no list. -/
theorem Running.mark (h : Running k L) (hidle : k.tp ≠ idleTid) (hst : st = .waiting ∨ st = .exited)
    (wc : Option (Cond nl)) (hnext : ∀ t, t ≠ k.tp → next t = k.listNext t) :
    Sched
      { k with
        thr := Function.update k.thr k.tp { k.thr k.tp with state := st, waitCond := wc }
        listNext := next } L := by
  refine .of_at (fun r => ?_) (fun a => ?_) h.tp_live h.idle_live ?_
  · refine (h.rep r).congr fun a ha => hnext a ?_
    rintro rfl
    exact h.off r ha
  · by_cases ha : a = k.tp
    · subst ha
      exact .off h.off fun _ => by rcases hst with rfl | rfl <;> simp
    · exact (h.each a).congr rfl (by simp [ha]) Iff.rfl fun _ => Iff.rfl
  · simpa [Ne.symm hidle] using h.idle

/-- The running thread is marked waiting, before it is on a list. -/
theorem Running.markWaiting (h : Running k L) (hidle : k.tp ≠ idleTid) (c : Cond nl) :
    Sched (k.markWaiting c) L :=
  h.mark hidle (.inl rfl) (some c) fun _ ht => update_of_ne ht _ _

/-- The running thread is put on the wait list it is marked for. -/
theorem Sched.park (h : Sched k L) (hoff : ∀ r, k.tp ∉ L r)
    (hown : ∀ t, c = .childExit t → t = k.tp) (hst : (k.thr k.tp).state = .waiting) (hc : (k.thr k.tp).waitCond = some c) :
    ∃ next list, k.tlinsert (.wait c) k.tp = some { k with listNext := next, list := list } ∧
      Sched { k with listNext := next, list := list } (appended L (.wait c) k.tp) := by
  obtain ⟨next, list, hins, hlink⟩ := h.linked.tlinsert (.wait c) hoff
  have hmem : ∀ r, r ≠ .wait c → appended L (.wait c) k.tp r = L r :=
    fun r hr => update_of_ne hr _ _
  refine ⟨next, list, hins, .of_at hlink.rep (fun a => ?_) h.tp_live h.idle_live h.idle⟩
  by_cases ha : a = k.tp
  · -- the thread is on the list of its condition only
    subst ha
    have honly : ∀ {r}, k.tp ∈ appended L (.wait c) k.tp r → r = .wait c := by
      intro r hr
      by_contra hne
      rw [hmem r hne] at hr
      exact hoff r hr
    refine ⟨iff_of_false (fun hr => nomatch honly hr) ?_, fun c' hc' => ?_,
      fun _ hne => absurd rfl hne, fun u hu => ?_, fun _ _ => rfl, by simp [hst]⟩
    · simp [hst]
    · obtain rfl := ListRef.wait.inj (honly hc')
      exact ⟨h.tp_live, hst, hc⟩
    · exact (hown u (ListRef.wait.inj (honly hu)).symm).symm
  · refine (h.each a).congr rfl ⟨rfl, rfl⟩ Iff.rfl fun r => ?_
    by_cases hr : r = .wait c
    · subst hr
      simp [appended, ha]
    · rw [hmem r hr]

/-- A thread that is not on the ready list was not woken. -/
theorem Sched.not_woken {ws : List Tid} (h : Sched (k.wake ws next list) L) (hl : k.thrtab t = true)
    (ht : t ∉ L .ready) : woken k.thr ws t = k.thr t := by
  by_cases hw : t ∈ ws
  · exact absurd ((h.ready_iff t).mpr ⟨hl, by simp [woken, hw]⟩) ht
  · simp [woken, hw]

/-- `condition_wait` up to the switch. -/
theorem Running.conditionWait (h : Running k L) (hidle : k.tp ≠ idleTid)
    (hown : ∀ t, c = .childExit t → t = k.tp) (isr₁ isr₂ : List (Cond nl)) :
    ∃ k' ts, k.conditionWait c isr₁ isr₂ = some k' ∧
      waitLists L c k.tp isr₁ isr₂ .ready = k'.tp :: ts ∧
      Running k' (Function.update (waitLists L c k.tp isr₁ isr₂) .ready ts) ∧ Reshuffled k k' := by
  have h1 := h.markWaiting hidle c
  have hst1 : ((k.markWaiting c).thr k.tp).state = .waiting := by simp [Kernel.markWaiting, setThr]
  have hwc1 : ((k.markWaiting c).thr k.tp).waitCond = some c := by
    simp [Kernel.markWaiting, setThr]
  have hsame1 : Reshuffled k (k.markWaiting c) := reshuffled_update k k.tp (by decide) (some c) _ _ _
  have htp1 : (k.markWaiting c).tp = k.tp := rfl
  simp only [Kernel.conditionWait, h.tp_self, guard, if_true, Option.bind_eq_bind, Option.pure_def,
    Option.bind_some]
  rw [← htp1] at hst1 hwc1 ⊢
  have hoff : ∀ r, (k.markWaiting c).tp ∉ L r := h.off
  generalize k.markWaiting c = k1 at h1 hst1 hwc1 hsame1 htp1 hoff
  obtain ⟨ws1, next1, list1, heq1, h2, -⟩ := h1.interrupts isr₁
  -- the first interrupts cannot wake the thread, since it is on no list yet
  have hoff2 := not_mem_foldl_woken isr₁ hoff
  have hthr := h2.not_woken h1.tp_live (hoff2 .ready)
  rw [← hthr] at hst1 hwc1
  obtain ⟨next2, list2, heq2, h3⟩ := h2.park hoff2 (fun t ht => (hown t ht).trans htp1.symm) hst1 hwc1
  obtain ⟨k3, k', ts, heq3, heq4, hq, hrun, hsame4⟩ := h3.interrupts_suspend
    (fun _ => ⟨c, hwc1, by simp [appended]⟩) (by simp only [hst1]; simp) isr₂
  refine ⟨k', ts, ?_, hq, hrun, ?_⟩
  · simp only [heq1, Option.bind_some, heq2, heq3, heq4]
  · exact hsame1.trans ((reshuffled_woken k1 ws1 next2 list2).trans hsame4)

/-! ## Locks -/

/-- The lock lists of the threads are the locks they own, each once.  An owned lock has a
count of at least 1 and an owner that has not exited. -/
structure Held (k : Kernel nl) (H : Tid → List (Fin nl)) : Prop where
  chain : ∀ t, Chain k.lockNext (k.thr t).lockList (H t)
  nodup : ∀ t, (H t).Nodup
  mem_iff : ∀ t l, l ∈ H t ↔ (k.lock l).owner = some t
  owned : ∀ l t, (k.lock l).owner = some t → 1 ≤ (k.lock l).count
  free : ∀ l, (k.lock l).owner = none → (k.lock l).count = 0
  holder : ∀ l t, (k.lock l).owner = some t → k.thrtab t = true ∧ (k.thr t).state ≠ .exited

variable {H : Tid → List (Fin nl)} {head : Option (Fin nl)}
  {p : Kernel nl → (ListRef nl → List Tid) → Prop}

theorem Held.reshuffled (h : Held k H) (hs : Reshuffled k k') : Held k' H where
  chain t := by
    rw [hs.lockNext, hs.lockList]
    exact h.chain t
  nodup := h.nodup
  mem_iff t l := by
    rw [hs.lock]
    exact h.mem_iff t l
  owned l t ho := by
    rw [hs.lock] at ho ⊢
    exact h.owned l t ho
  free l ho := by
    rw [hs.lock] at ho ⊢
    exact h.free l ho
  holder l t ho := by
    rw [hs.lock] at ho
    rw [hs.thrtab]
    obtain ⟨hl, hst⟩ := h.holder l t ho
    exact ⟨hl, fun he => hst (hs.exited t he)⟩

/-- A lock is on one list at most. -/
theorem Held.eq_of_mem (h : Held k H) {t' : Tid} (ht : l ∈ H t) (ht' : l ∈ H t') :
    t = t' := by
  have := ((h.mem_iff t l).mp ht).symm.trans ((h.mem_iff t' l).mp ht')
  exact Option.some.inj this

/-- The kernel after the running thread took a free lock. -/
def taken (k : Kernel nl) (l : Fin nl) : Kernel nl :=
  { k with
    lock := Function.update k.lock l { owner := some k.tp, count := 1 }
    lockNext := Function.update k.lockNext l (k.thr k.tp).lockList
    thr := Function.update k.thr k.tp { k.thr k.tp with lockList := some l } }

theorem lockAcquireLoop_free (ho : (k.lock l).owner = none) :
    k.lockAcquireLoop l = some (true, k.taken l) := by
  rw [lockAcquireLoop, if_neg (not_not.mpr ho)]
  rfl

theorem lockAcquireLoop_owned (ho : (k.lock l).owner ≠ none) :
    k.lockAcquireLoop l = (k.conditionWait (.lockCv l) [] []).map fun k => (false, k) := by
  rw [lockAcquireLoop, if_pos ho]
  cases k.conditionWait (.lockCv l) [] [] <;> rfl

theorem Running.taken (h : Running k L) (l : Fin nl) : Running (k.taken l) L :=
  h.congr rfl rfl rfl rfl fun t =>
    ⟨proj_update (p := Thread.state) (by rfl) t, proj_update (p := Thread.waitCond) (by rfl) t⟩

/-- A lock is put on the list of the running thread or taken off it. -/
theorem Held.relist (h : Held k H) (hr : Running k L) {lk : Lock} {ls : List (Fin nl)}
    {next : Fin nl → Option (Fin nl)}
    (hlk : lk = { owner := some k.tp, count := 1 } ∨ lk = { owner := none, count := 0 })
    (hoff : ∀ t, t ≠ k.tp → l ∉ H t) (hc : Chain next head ls) (hnd : ls.Nodup)
    (hls : ∀ m, m ∈ ls ↔ if m = l then lk.owner = some k.tp else m ∈ H k.tp)
    (hkeep : ∀ t, t ≠ k.tp → ∀ m ∈ H t, next m = k.lockNext m) :
    Held
      { k with
        lock := Function.update k.lock l lk
        lockNext := next
        thr := Function.update k.thr k.tp { k.thr k.tp with lockList := head } }
      (Function.update H k.tp ls) := by
  refine ⟨fun t => ?_, fun t => ?_, fun t m => ?_, fun m t hm => ?_, fun m hm => ?_, fun m t hm => ?_⟩
  · by_cases ht : t = k.tp
    · subst ht
      simpa only [update_self] using hc
    · simp only [update_of_ne ht]
      exact (h.chain t).congr (hkeep t ht)
  · by_cases ht : t = k.tp
    · subst ht
      rwa [update_self]
    · rw [update_of_ne ht]
      exact h.nodup t
  · by_cases hm : m = l <;> by_cases ht : t = k.tp
    · subst hm ht
      simpa using hls m
    · subst hm
      rcases hlk with rfl | rfl <;> simp [ht, hoff t ht, Ne.symm ht]
    · subst ht
      simp [hm, hls, h.mem_iff]
    · simp [hm, ht, h.mem_iff]
  · by_cases hml : m = l
    · subst hml
      rcases hlk with rfl | rfl <;> simp at hm ⊢
    · simp only [update_of_ne hml] at hm ⊢
      exact h.owned m t hm
  · by_cases hml : m = l
    · subst hml
      rcases hlk with rfl | rfl <;> simp at hm ⊢
    · simp only [update_of_ne hml] at hm ⊢
      exact h.free m hm
  · rw [proj_update (p := Thread.state) (by rfl) t]
    by_cases hml : m = l
    · subst hml
      rcases hlk with rfl | rfl
      · obtain rfl : k.tp = t := by simpa using hm
        exact ⟨hr.tp_live, by rw [hr.tp_self]; decide⟩
      · simp at hm
    · simp only [update_of_ne hml] at hm
      exact h.holder m t hm

theorem Held.taken (h : Held k H) (hr : Running k L) (ho : (k.lock l).owner = none) :
    Held (k.taken l) (Function.update H k.tp (l :: H k.tp)) := by
  have hoff : ∀ t, l ∉ H t := by
    intro t ht
    rw [h.mem_iff, ho] at ht
    cases ht
  have hkeep : ∀ t, ∀ m ∈ H t, Function.update k.lockNext l (k.thr k.tp).lockList m = k.lockNext m := by
    intro t m hm
    refine update_of_ne ?_ _ _
    rintro rfl
    exact hoff t hm
  refine h.relist hr (.inl rfl) (fun t _ => hoff t) ⟨rfl, ?_⟩ (List.nodup_cons.mpr ⟨hoff _, h.nodup _⟩)
    (fun m => ?_) fun t _ => hkeep t
  · rw [update_self]
    exact (h.chain k.tp).congr (hkeep k.tp)
  · by_cases hm : m = l <;> simp [hm]

/-- The count of an owned lock changes and stays positive. -/
theorem Held.setCount (h : Held k H) (ho : (k.lock l).owner = some t)
    {n : Int} (hn : 1 ≤ n) : Held (k.setLock l { k.lock l with count := n }) H := by
  have howner : ∀ m, ((k.setLock l { k.lock l with count := n }).lock m).owner = (k.lock m).owner :=
    proj_update (p := Lock.owner) (by rfl)
  refine ⟨h.chain, h.nodup, fun t m => ?_, fun m t' hm => ?_, fun m hm => ?_, fun m t' hm => ?_⟩
  · rw [howner]
    exact h.mem_iff t m
  · rw [howner] at hm
    by_cases hml : m = l
    · subst hml
      simpa [setLock] using hn
    · simpa [setLock, hml] using h.owned m t' hm
  · rw [howner] at hm
    have hml : m ≠ l := by
      rintro rfl
      rw [ho] at hm
      cases hm
    simpa [setLock, hml] using h.free m hm
  · rw [howner] at hm
    exact h.holder m t' hm

/-- What a release by thread `t` leaves of a lock. -/
def released (lk : Lock) (t : Tid) : Lock :=
  if lk.owner = some t then
    if 1 < lk.count then { lk with count := lk.count - 1 } else { owner := none, count := 0 }
  else lk

/-- The lists after a release of `l` by the running thread. -/
def releasedLists (k : Kernel nl) (L : ListRef nl → List Tid) (l : Fin nl) :
    ListRef nl → List Tid :=
  if (k.lock l).owner = some k.tp ∧ ¬ 1 < (k.lock l).count then wokenLists L (.lockCv l) else L

/-- A lock is taken off its owner's list. -/
theorem Held.drop (h : Held k H) (hr : Running k L) (hl : l ∈ H k.tp)
    {next : Fin nl → Option (Fin nl)}
    (hc : Chain next head ((H k.tp).erase l)) (hkeep : ∀ m, m ∉ H k.tp → next m = k.lockNext m) :
    Held
      { k with
        lock := Function.update k.lock l { owner := none, count := 0 }
        lockNext := Function.update next l none
        thr := Function.update k.thr k.tp { k.thr k.tp with lockList := head } }
      (Function.update H k.tp ((H k.tp).erase l)) := by
  have hnd := h.nodup k.tp
  have hoff : ∀ t, t ≠ k.tp → l ∉ H t := fun t ht hlt => ht (h.eq_of_mem hlt hl)
  refine h.relist hr (.inr rfl) hoff ?_ (hnd.erase l) (fun m => ?_) fun t ht m hm => ?_
  · refine hc.congr fun m hm => update_of_ne ?_ _ _
    rintro rfl
    exact hnd.not_mem_erase hm
  · by_cases hm : m = l
    · subst hm
      simp [hnd.not_mem_erase]
    · simp [hm, List.mem_erase_of_ne hm]
  · have hml : m ≠ l := by
      rintro rfl
      exact hoff t ht hm
    rw [update_of_ne hml]
    exact hkeep m fun hmt => ht (h.eq_of_mem hm hmt)

/-- A call of the running thread that changes locks: slots, parents and the running thread
stay, and no thread exits. -/
structure Relocked (k k' : Kernel nl) : Prop where
  thrtab : k'.thrtab = k.thrtab
  tp : k'.tp = k.tp
  parent : ∀ t, (k'.thr t).parent = (k.thr t).parent
  exited : ∀ t, (k'.thr t).state = .exited → (k.thr t).state = .exited

theorem Relocked.refl (k : Kernel nl) : Relocked k k := ⟨rfl, rfl, fun _ => rfl, fun _ => id⟩

theorem Relocked.trans {k1 k2 k3 : Kernel nl} (h : Relocked k1 k2) (h' : Relocked k2 k3) :
    Relocked k1 k3 :=
  ⟨h'.thrtab.trans h.thrtab, h'.tp.trans h.tp, fun t => (h'.parent t).trans (h.parent t),
    fun t ht => h.exited t (h'.exited t ht)⟩

/-- `lock_release`, by the owner or not. -/
theorem Running.lockRelease (hr : Running k L) (h : Held k H) (l : Fin nl) :
    ∃ k' H', k.lockRelease l = some k' ∧ Running k' (releasedLists k L l) ∧ Held k' H' ∧
      k'.lock = Function.update k.lock l (released (k.lock l) k.tp) ∧ Relocked k k' := by
  by_cases ho : (k.lock l).owner = some k.tp
  · rw [Kernel.lockRelease, if_neg (not_not.mpr ho), releasedLists, released, if_pos ho]
    simp only [ho, true_and]
    have hown := h.owned l _ ho
    by_cases hc : 1 < (k.lock l).count
    · -- still held by the running thread
      rw [if_neg (not_not.mpr hc), if_pos hc]
      refine ⟨k.setLock l { k.lock l with count := (k.lock l).count - 1 }, H, ?_, ?_, ?_, ?_, ?_⟩
      · have hpos : 0 < (k.lock l).count - 1 := by omega
        rw [if_pos (by simpa [setLock] using hpos)]
        simp only [ho]
      · exact hr.congr rfl rfl rfl rfl fun _ => ⟨rfl, rfl⟩
      · exact h.setCount ho (by omega)
      · simp only [setLock, ho]
      · exact ⟨rfl, rfl, fun _ => rfl, fun _ => id⟩
    · rw [if_pos hc, if_neg hc]
      have hl : l ∈ H k.tp := (h.mem_iff _ _).mpr ho
      have hlen : (H k.tp).length ≤ nl + 1 := by
        have := (h.nodup k.tp).length_le_card
        rw [Fintype.card_fin] at this
        omega
      obtain ⟨next, head, hun, hchain, hkeep⟩ := (h.chain k.tp).unlink (h.nodup k.tp) hl hlen
      have hdrop := h.drop hr hl hchain hkeep
      have hrun : Running
          { k with
            lock := Function.update k.lock l { owner := none, count := 0 }
            lockNext := Function.update next l none
            thr := Function.update k.thr k.tp { k.thr k.tp with lockList := head } } L := by
        exact hr.congr rfl rfl rfl rfl fun t =>
          ⟨proj_update (p := Thread.state) (by rfl) t, proj_update (p := Thread.waitCond) (by rfl) t⟩
      obtain ⟨k', heq, htp, hrun', hsame⟩ := hrun.conditionBroadcast (.lockCv l)
      refine ⟨k', _, ?_, hrun', hdrop.reshuffled hsame, hsame.lock, ?_⟩
      · have hz : (k.lock l).count - 1 = 0 := by omega
        rw [if_neg (by simp [setLock, hz]), Kernel.lockFree]
        simp only [setLock, hz]
        rw [hun]
        simp only [Option.bind_eq_bind, Option.bind_some, setThr, update_self,
          Function.update_idem]
        exact heq
      · refine ⟨hsame.thrtab, htp, fun t => ?_, fun t ht => ?_⟩
        · rw [hsame.parent]
          exact proj_update (p := Thread.parent) (by rfl) t
        · rw [← proj_update (p := Thread.state) (b := { k.thr k.tp with lockList := head }) (by rfl) t]
          exact hsame.exited t ht
  · refine ⟨k, H, ?_, ?_, h, ?_, Relocked.refl k⟩
    · rw [Kernel.lockRelease, if_pos ho]
    · rw [releasedLists, if_neg fun hand => ho hand.1]
      exact hr
    · rw [released, if_neg ho, update_eq_self]

/-! ## Thread exit -/

/-- A release by the owner undoes one acquire. -/
theorem lockDepth_released (h : Held k H) (ho : (k.lock l).owner = some k.tp)
    (hk : k'.lock = Function.update k.lock l (released (k.lock l) k.tp)) :
    k'.lockDepth + 1 = k.lockDepth := by
  have hown := h.owned l _ ho
  have hcount : (released (k.lock l) k.tp).count.toNat + 1 = (k.lock l).count.toNat := by
    rw [released, if_pos ho]
    by_cases hc : 1 < (k.lock l).count
    · rw [if_pos hc]
      show ((k.lock l).count - 1).toNat + 1 = _
      omega
    · rw [if_neg hc]
      show (0 : Int).toNat + 1 = _
      omega
  have hsum : ∀ f : Fin nl → Nat,
      ∑ m, f m = f l + ∑ m ∈ Finset.univ.erase l, f m := fun f =>
    (Finset.add_sum_erase _ _ (Finset.mem_univ l)).symm
  rw [lockDepth, lockDepth, hsum, hsum fun m => (k.lock m).count.toNat, hk, update_self]
  have hrest : ∑ m ∈ Finset.univ.erase l,
      (Function.update k.lock l (released (k.lock l) k.tp) m).count.toNat =
        ∑ m ∈ Finset.univ.erase l, (k.lock m).count.toNat :=
    Finset.sum_congr rfl fun m hm => by
      rw [update_of_ne (Finset.ne_of_mem_erase hm)]
  rw [hrest]
  omega

/-- Only locks of the running thread are released, and these for good. -/
structure Drained (k k' : Kernel nl) : Prop extends Relocked k k' where
  empty : (k'.thr k.tp).lockList = none
  lock : ∀ l, k'.lock l = if (k.lock l).owner = some k.tp then { owner := none, count := 0 }
    else k.lock l

theorem Held.owner_ne (h : Held k H) (hlist : (k.thr t).lockList = none) (l : Fin nl) :
    (k.lock l).owner ≠ some t := by
  intro ho
  have hc := h.chain t
  have hl := (h.mem_iff _ _).mpr ho
  rw [hlist] at hc
  cases hH : H t with
  | nil =>
    rw [hH] at hl
    cases hl
  | cons m ms =>
    rw [hH] at hc
    cases hc.1

theorem Held.owner_head (h : Held k H) (hlist : (k.thr t).lockList = some l) :
    (k.lock l).owner = some t := by
  have hc := h.chain t
  rw [hlist] at hc
  refine (h.mem_iff _ _).mp (List.mem_iff_getElem?.mpr ⟨0, ?_⟩)
  rw [← List.head?_eq_getElem?, ← hc.head_eq]

theorem Drained.refl (h : Held k H) (hlist : (k.thr k.tp).lockList = none) : Drained k k :=
  ⟨Relocked.refl k, hlist, fun l => (if_neg (h.owner_ne hlist l)).symm⟩

/-- The loop of `thread_exit` ends, and the thread owns no lock then.  What a release keeps,
the loop keeps. -/
theorem Running.drainLocks
    (hp : ∀ {k k' L H l}, Running k L → Held k H → k.lockRelease l = some k' → p k L →
      p k' (releasedLists k L l))
    {fuel : Nat} (hr : Running k L) (h : Held k H) (hk : p k L) (hf : k.lockDepth ≤ fuel) :
    ∃ k' L' H', Kernel.drainLocks fuel k = some k' ∧ Running k' L' ∧ Held k' H' ∧ Drained k k' ∧
      p k' L' := by
  -- by induction on the acquires that are left to undo
  induction fuel generalizing k L H with
  | zero =>
    cases hlist : (k.thr k.tp).lockList with
    | none => exact ⟨k, L, H, by rw [Kernel.drainLocks, if_pos hlist], hr, h, .refl h hlist, hk⟩
    | some l =>
      have hown := h.owned l _ (h.owner_head hlist)
      have hz : (k.lock l).count.toNat = 0 :=
        Finset.sum_eq_zero_iff.mp (Nat.le_zero.mp hf) l (Finset.mem_univ l)
      omega
  | succ fuel ih =>
    cases hlist : (k.thr k.tp).lockList with
    | none => exact ⟨k, L, H, by rw [Kernel.drainLocks, hlist], hr, h, .refl h hlist, hk⟩
    | some l =>
      have ho := h.owner_head hlist
      obtain ⟨k1, H1, heq1, hr1, h1, hlock1, hre1⟩ := hr.lockRelease h l
      have hdepth := lockDepth_released h ho hlock1
      obtain ⟨k2, L2, H2, heq2, hr2, h2, hd2, hk2⟩ := ih hr1 h1 (hp hr h heq1 hk) (by omega)
      refine ⟨k2, L2, H2, ?_, hr2, h2, ⟨hre1.trans hd2.toRelocked, ?_, fun m => ?_⟩, hk2⟩
      · rw [Kernel.drainLocks, hlist]
        simp only [heq1, Option.bind_some, heq2]
      · have := hd2.empty
        rw [hre1.tp] at this
        exact this
      · rw [hd2.lock, hlock1, hre1.tp]
        by_cases hm : m = l
        · subst hm
          rw [update_self, if_pos ho, released, if_pos ho]
          by_cases hc : 1 < (k.lock m).count
          · rw [if_pos hc, if_pos ho]
          · rw [if_neg hc]
            simp
        · rw [update_of_ne hm]

/-- The running thread, which owns no lock, is marked exited. -/
theorem Running.markExited (h : Running k L) (hidle : k.tp ≠ idleTid) :
    Sched (k.setState k.tp .exited) L :=
  h.mark hidle (.inr rfl) _ fun _ _ => rfl

theorem Held.markExited (h : Held k H) (hnone : ∀ l, (k.lock l).owner ≠ some k.tp) :
    Held (k.setState k.tp .exited) H := by
  have hlist : ∀ t, ((k.setState k.tp .exited).thr t).lockList = (k.thr t).lockList :=
    proj_update (p := Thread.lockList) (by rfl)
  refine ⟨fun t => ?_, h.nodup, h.mem_iff, h.owned, h.free, fun l t ho => ?_⟩
  · rw [hlist]
    exact h.chain t
  · have ht : t ≠ k.tp := by
      rintro rfl
      exact hnone l ho
    simpa [setState, setThr, ht] using h.holder l t ho

/-- The conditions `thread_exit` broadcasts: that of the parent, if there is one. -/
def exitConds (k : Kernel nl) : List (Cond nl) :=
  match (k.thr k.tp).parent with
  | none => []
  | some p => [.childExit p]

theorem signalParent_eq (k : Kernel nl) : k.signalParent = k.interrupts k.exitConds := by
  rw [signalParent, exitConds]
  cases (k.thr k.tp).parent with
  | none => rfl
  | some p =>
    simp only [interrupts, List.foldlM_cons, List.foldlM_nil]
    exact (bind_pure _).symm

theorem mem_exitConds :
    c ∈ k.exitConds ↔ ∃ p, (k.thr k.tp).parent = some p ∧ c = .childExit p := by
  rw [exitConds]
  cases (k.thr k.tp).parent with
  | none => simp
  | some p => simp

/-- The running thread ends, and no other: the slots and the parents stay. -/
structure Ended (k k' : Kernel nl) : Prop where
  thrtab : k'.thrtab = k.thrtab
  parent : ∀ t, (k'.thr t).parent = (k.thr t).parent
  exited : ∀ t, t ≠ k.tp → (k'.thr t).state = .exited → (k.thr t).state = .exited

/-- `thread_exit` of a thread other than the idle thread: it owns no lock afterwards, and what
a release keeps holds when the locks are released and the thread is marked exited next. -/
theorem Running.threadExit
    (hp : ∀ {k k' L H l}, Running k L → Held k H → k.lockRelease l = some k' → p k L →
      p k' (releasedLists k L l))
    (hr : Running k L) (h : Held k H) (hk : p k L) (hidle : k.tp ≠ idleTid)
    (isr : List (Cond nl)) :
    ∃ k1 k' L1 H' ts, k.threadExit isr = some k' ∧ Drained k k1 ∧ Running k1 L1 ∧ p k1 L1 ∧
      (k.exitConds ++ isr).foldl wokenLists L1 .ready = k'.tp :: ts ∧
      Running k' (Function.update ((k.exitConds ++ isr).foldl wokenLists L1) .ready ts) ∧
      Held k' H' ∧ Ended k k' ∧ k'.lock = k1.lock := by
  obtain ⟨k1, L1, H1, heq1, hr1, h1, hd, hk1⟩ := hr.drainLocks hp h hk (Nat.le_refl _)
  have hidle1 : k1.tp ≠ idleTid := by
    rw [hd.tp]
    exact hidle
  have hnone : ∀ l, (k1.lock l).owner ≠ some k1.tp := by
    intro l
    rw [hd.lock, hd.tp]
    by_cases ho : (k.lock l).owner = some k.tp
    · simp [ho]
    · rw [if_neg ho]
      exact ho
  have hs2 := hr1.markExited hidle1
  have h2 := h1.markExited hnone
  have hst2 : ((k1.setState k1.tp .exited).thr k1.tp).state = .exited := by
    simp [setState, setThr]
  have hothers : ∀ t, t ≠ k.tp → (k1.setState k1.tp .exited).thr t = k1.thr t := by
    intro t ht
    rw [← hd.tp] at ht
    simp [setState, setThr, ht]
  have hparent : ∀ t, ((k1.setState k1.tp .exited).thr t).parent = (k.thr t).parent := fun t =>
    (proj_update (p := Thread.parent) (by rfl) t).trans (hd.parent t)
  have hpark : Parked (k1.setState k1.tp .exited) L1 := by
    intro hw
    have hw' : ((k1.setState k1.tp .exited).thr k1.tp).state = .waiting := hw
    rw [hst2] at hw'
    cases hw'
  have hrest : ∀ k2 : Kernel nl, k2.interrupts (k2.exitConds ++ isr) =
      (k2.signalParent).bind fun k => k.interrupts isr := by
    intro k2
    rw [signalParent_eq, Kernel.interrupts, List.foldlM_append]
    rfl
  generalize hk2 : k1.setState k1.tp .exited = k2 at hs2 h2 hst2 hothers hparent hpark
  have htp2 : k2.tp = k1.tp := by
    rw [← hk2]
    rfl
  have hconds : k2.exitConds = k.exitConds := by
    rw [exitConds, exitConds, hparent, htp2, hd.tp]
  obtain ⟨k3, k', ts, heq3, heq4, hq, hr4, hsame⟩ := hs2.interrupts_suspend hpark
    (by rw [htp2, hst2]; decide) (k2.exitConds ++ isr)
  rw [← hconds]
  refine ⟨k1, k', L1, _, ts, ?_, hd, hr1, hk1, hq, hr4, h2.reshuffled hsame,
    ⟨?_, fun t => (hsame.parent t).trans (hparent t), fun t ht he => ?_⟩, ?_⟩
  · rw [hrest] at heq3
    obtain ⟨k4, heq5, heq6⟩ := Option.bind_eq_some_iff.mp heq3
    simp only [Kernel.threadExit, heq1, Option.bind_eq_bind, Option.bind_some, hk2, heq5, heq6, heq4]
  · rw [hsame.thrtab, ← hk2]
    exact hd.thrtab
  · have he2 := hsame.exited t he
    rw [hothers t ht] at he2
    exact hd.exited t he2
  · rw [hsame.lock, ← hk2]
    rfl

/-! ## Spawning and joining -/

/-- A thread made in a free slot is put on the ready list. -/
theorem Running.spawned (hr : Running k L) (hfree : k.thrtab t = false)
    (hlink : Linked { k.createThread t with listNext := next, list := list } (appended L .ready t)) :
    Running { k.createThread t with listNext := next, list := list } (appended L .ready t) := by
  have hne : ∀ a, k.thrtab a = true → a ≠ t := by
    rintro a ha rfl
    rw [hfree] at ha
    cases ha
  have hoff : ∀ r, t ∉ L r := fun r hr' => hne t (hr.live_of_mem hr') rfl
  have hkeep : ∀ a, a ≠ t → (k.createThread t).thrtab a = k.thrtab a ∧
      (k.createThread t).thr a = k.thr a := by
    intro a ha
    simp [createThread, setThr, ha]
  have htp := hkeep k.tp (hne _ hr.tp_live)
  have hidle := hkeep idleTid (hne _ hr.idle_live)
  refine ⟨.of_at hlink.rep (fun a => ?_) (htp.1.trans hr.tp_live) (hidle.1.trans hr.idle_live) ?_, ?_⟩
  · by_cases ha : a = t
    · subst ha
      exact .ready (by simp [createThread, setThr]) (by simp [createThread, setThr])
        (by simp [appended]) fun c => by simpa [appended] using hoff (.wait c)
    · refine (hr.each a).congr (hkeep a ha).1 ?_ Iff.rfl fun r => ?_
      · exact ⟨congrArg Thread.state (hkeep a ha).2, congrArg Thread.waitCond (hkeep a ha).2⟩
      · cases r <;> simp [appended, ha]
  · simpa only [hidle] using hr.idle
  · show ((k.createThread t).thr k.tp).state = _
    rw [htp.2]
    exact hr.tp_self

theorem Held.spawned (h : Held k H) (hfree : k.thrtab t = false) :
    Held (k.createThread t) H := by
  have hnone : ∀ l, (k.lock l).owner ≠ some t := by
    intro l ho
    have := (h.holder l t ho).1
    rw [hfree] at this
    cases this
  have hH : H t = [] := List.eq_nil_iff_forall_not_mem.mpr fun l hl =>
    hnone l ((h.mem_iff t l).mp hl)
  refine ⟨fun a => ?_, h.nodup, h.mem_iff, h.owned, h.free, fun l a ho => ?_⟩
  · by_cases ha : a = t
    · subst ha
      rw [hH]
      simp [createThread, setThr]
    · have : ((k.createThread t).thr a).lockList = (k.thr a).lockList := by
        simp [createThread, setThr, ha]
      rw [this]
      exact h.chain a
  · have ha : a ≠ t := by
      rintro rfl
      exact hnone l ho
    simpa [createThread, setThr, ha] using h.holder l a ho

theorem free_of_freeSlot (h : k.freeSlot = some t) : k.thrtab t = false := by
  have := List.find?_some h
  simp only [Bool.and_eq_true, Bool.not_eq_true'] at this
  exact this.2

/-- `thread_spawn` with a free slot. -/
theorem Running.threadSpawn (hr : Running k L) (h : Held k H) (hslot : k.freeSlot = some t) :
    ∃ k', k.threadSpawn = some ((t.val : Int), k') ∧ Running k' (appended L .ready t) ∧ Held k' H ∧
      k'.lock = k.lock ∧ k'.tp = k.tp := by
  have hfree := free_of_freeSlot hslot
  have hoff : ∀ r, t ∉ L r := by
    intro r hrt
    rw [hr.live_of_mem hrt] at hfree
    cases hfree
  have hlink : Linked (k.createThread t) L := ⟨hr.rep, hr.linked.disjoint⟩
  obtain ⟨next, list, hins, hlink'⟩ := hlink.tlinsert .ready hoff
  have hrun := hr.spawned hfree hlink'
  -- nobody waits for children of a thread that is not there
  have hchild : appended L .ready t (.wait (.childExit t)) = [] := by
    refine List.eq_nil_iff_forall_not_mem.mpr fun u hu => hoff (.wait (.childExit t)) ?_
    have hu' : u ∈ L (.wait (.childExit t)) := by simpa [appended] using hu
    rw [hr.child t u hu'] at hu'
    exact hu'
  have hempty : (list (.wait (.childExit t))) = Ends.empty := by
    have hrep := hrun.rep (.wait (.childExit t))
    rw [hchild] at hrep
    obtain ⟨hhead, htail, -⟩ := hrep
    show (Ends.mk _ _ : Ends Tid) = _
    rw [Ends.empty]
    congr
  refine ⟨{ k.createThread t with listNext := next, list := list }, ?_, hrun, ?_, rfl, rfl⟩
  · rw [Kernel.threadSpawn, hslot]
    simp only [hins, Option.bind_eq_bind, Option.bind_some, setList, Option.pure_def]
    rw [← hempty, update_eq_self]
  · exact (h.spawned hfree).reshuffled ⟨rfl, rfl, rfl, fun _ => rfl, fun _ => rfl, fun _ => id⟩

/-- `thread_reclaim` of a thread that has exited. -/
theorem Running.threadReclaim (hr : Running k L) (h : Held k H) (hm : t ≠ mainTid)
    (hlive : k.thrtab t = true) (hst : (k.thr t).state = .exited) :
    ∃ k', k.threadReclaim t = some k' ∧ Running k' L ∧ Held k' H ∧ k'.lock = k.lock ∧
      k'.tp = k.tp := by
  let thr : Tid → Thread nl := fun c =>
    if c ≠ mainTid ∧ k.thrtab c ∧ (k.thr c).parent = some t
    then { k.thr c with parent := (k.thr t).parent } else k.thr c
  have hthr : ∀ a, (thr a).state = (k.thr a).state ∧ (thr a).waitCond = (k.thr a).waitCond ∧
      (thr a).lockList = (k.thr a).lockList := by
    intro a
    by_cases hc : a ≠ mainTid ∧ k.thrtab a ∧ (k.thr a).parent = some t
    · simp only [thr, if_pos hc, and_self]
    · simp only [thr, if_neg hc, and_self]
  have hne : ∀ a, (k.thr a).state ≠ .exited → a ≠ t := by
    rintro a ha rfl
    exact ha hst
  have htab : ∀ a, Function.update k.thrtab t false a = true ↔ k.thrtab a = true ∧ a ≠ t := by
    intro a
    by_cases ha : a = t
    · subst ha
      simp
    · simp [ha]
  refine ⟨{ k with thr := thr, thrtab := Function.update k.thrtab t false }, ?_, ?_, ?_, rfl, rfl⟩
  · rw [Kernel.threadReclaim, guard, if_pos ⟨hm, hlive, hst⟩]
    rfl
  · refine ⟨.of_at hr.rep (fun a => ?_) ?_ ?_ (by simpa only [(hthr idleTid).1] using hr.idle),
      (hthr k.tp).1.trans hr.tp_self⟩
    · by_cases ha : a = t
      · subst ha
        refine .off (fun r hr' => ?_) fun hl => absurd rfl ((htab a).mp hl).2
        rcases hr.state_of_mem hr' with hs | hs <;> rw [hst] at hs <;> cases hs
      · exact (hr.each a).congr (update_of_ne ha _ _) ⟨(hthr a).1, (hthr a).2.1⟩ Iff.rfl
          fun _ => Iff.rfl
    · exact (htab _).mpr ⟨hr.tp_live, hne _ (by rw [hr.tp_self]; decide)⟩
    · refine (htab _).mpr ⟨hr.idle_live, hne _ ?_⟩
      rcases hr.idle with hi | hi <;> rw [hi] <;> decide
  · refine ⟨fun a => ?_, h.nodup, h.mem_iff, h.owned, h.free, fun l a ho => ?_⟩
    · simp only [(hthr a).2.2]
      exact h.chain a
    · obtain ⟨hl, hs⟩ := h.holder l a ho
      simp only [htab, (hthr a).1]
      exact ⟨⟨hl, hne a hs⟩, hs⟩

/-- `thread_join`, one turn of its loop: it returns, or it waits for the thread's children. -/
theorem Running.threadJoin (hr : Running k L) (h : Held k H) (hidle : k.tp ≠ idleTid) (tid : Int)
    (isr₁ isr₂ : List (Cond nl)) :
    ∃ r k', k.threadJoin tid isr₁ isr₂ = some (r, k') ∧ Held k' H ∧ k'.lock = k.lock ∧
      (r.isSome = true ∧ k'.tp = k.tp ∧ Running k' L ∨
        ∃ ts, r = none ∧ waitLists L (.childExit k.tp) k.tp isr₁ isr₂ .ready = k'.tp :: ts ∧
          Running k' (Function.update (waitLists L (.childExit k.tp) k.tp isr₁ isr₂) .ready ts) ∧
          Reshuffled k k') := by
  rw [Kernel.threadJoin]
  cases hfind : (List.finRange nthr).find? fun c => k.isMatch tid c && (k.thr c).state = .exited with
  | some c =>
    have hc := List.find?_some hfind
    simp only [isMatch, Bool.and_eq_true, decide_eq_true_eq] at hc
    obtain ⟨⟨⟨⟨hm, hlive⟩, -⟩, -⟩, hst⟩ := hc
    obtain ⟨k', heq, hrun, hheld, hlock, htp⟩ := hr.threadReclaim h hm hlive hst
    refine ⟨some c.val, k', ?_, hheld, hlock, .inl ⟨rfl, htp, hrun⟩⟩
    simp only [heq, Option.bind_eq_bind, Option.bind_some, Option.pure_def]
  | none =>
    by_cases hany : (List.finRange nthr).any (k.isMatch tid) = true
    · have hown : ∀ t, (Cond.childExit k.tp : Cond nl) = .childExit t → t = k.tp := fun t ht =>
        (Cond.childExit.inj ht).symm
      obtain ⟨k', ts, heq, hq, hrun, hsame⟩ := hr.conditionWait hidle hown isr₁ isr₂
      refine ⟨none, k', ?_, h.reshuffled hsame, hsame.lock, .inr ⟨ts, rfl, hq, hrun, hsame⟩⟩
      simp only [hany, if_true, heq, Option.bind_eq_bind, Option.bind_some, Option.pure_def]
    · refine ⟨some (-EINVAL), k, ?_, h, rfl, .inl ⟨rfl, rfl, hr⟩⟩
      simp only [hany, Bool.false_eq_true, if_false, Option.pure_def]

end MiniOs.Kernel
