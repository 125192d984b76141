import MiniOs.Thread.Machine
import Mathlib.Logic.Relation

/-!
# The thread tree

Every thread but the main one has a parent, and the parents lead to the main thread.  Two
calls change the tree: a spawn adds a leaf below the running thread, and a join takes an exited
child of the running thread out and hands the children of that child up.
-/

namespace MiniOs.Kernel

variable {nl : Nat} {k k' : Kernel nl} {L : ListRef nl → List Tid} {t : Tid} {tid : Int}

/-! ## Wait lists -/

/-- After broadcasts a thread waits only where it waited before, and on no condition that was
broadcast. -/
theorem mem_wait_foldl_woken (isr : List (Cond nl)) {c : Cond nl}
    (h : t ∈ isr.foldl wokenLists L (.wait c)) : t ∈ L (.wait c) ∧ c ∉ isr := by
  induction isr generalizing L with
  | nil => exact ⟨h, List.not_mem_nil⟩
  | cons c' isr ih =>
    obtain ⟨hmem, hnot⟩ := ih h
    by_cases hcc : c = c'
    · subst hcc
      simp [wokenLists] at hmem
    · refine ⟨by simpa [wokenLists, hcc] using hmem, ?_⟩
      rw [List.mem_cons, not_or]
      exact ⟨hcc, hnot⟩

theorem mem_wait_waitLists {isr1 isr2 : List (Cond nl)} {u : Tid} {c c' : Cond nl}
    (h : t ∈ waitLists L c u isr1 isr2 (.wait c')) : t ∈ L (.wait c') ∨ t = u ∧ c' = c := by
  have hmem := (mem_wait_foldl_woken _ h).1
  by_cases hcc : c' = c
  · subst hcc
    rw [appended, Function.update_self, List.mem_append, List.mem_singleton] at hmem
    rcases hmem with hmem | hmem
    · exact .inl (mem_wait_foldl_woken _ hmem).1
    · exact .inr ⟨hmem, rfl⟩
  · rw [appended, Function.update_of_ne (by simpa using hcc)] at hmem
    exact .inl (mem_wait_foldl_woken _ hmem).1

theorem mem_wait_releasedLists {l : Fin nl} {c : Cond nl}
    (h : t ∈ releasedLists k L l (.wait c)) : t ∈ L (.wait c) := by
  rw [releasedLists] at h
  split at h
  · exact (mem_wait_foldl_woken [.lockCv l] h).1
  · exact h

/-! ## The tree -/

/-- The slots and the parents are the same, and no thread exited. -/
structure SameTree (k k' : Kernel nl) : Prop where
  thrtab : k'.thrtab = k.thrtab
  parent : ∀ t, (k'.thr t).parent = (k.thr t).parent
  exited : ∀ t, (k'.thr t).state = .exited → (k.thr t).state = .exited

theorem Reshuffled.sameTree (h : Reshuffled k k') : SameTree k k' := ⟨h.thrtab, h.parent, h.exited⟩

theorem Relocked.sameTree (h : Relocked k k') : SameTree k k' := ⟨h.thrtab, h.parent, h.exited⟩

/-- The parent of `a` is `b`. -/
def ParentOf (k : Kernel nl) (a b : Tid) : Prop := (k.thr a).parent = some b

/-- Thread `c` is in the table, its parent is `p`, and `thread_join(tid)` asks for it. -/
def Matches (k : Kernel nl) (p : Tid) (tid : Int) (c : Tid) : Prop :=
  k.thrtab c = true ∧ k.ParentOf c p ∧ (tid = 0 ∨ (c.val : Int) = tid)

/-- The threads in the table form a tree with the main thread at its root. -/
structure Family (k : Kernel nl) : Prop where
  main : k.thrtab mainTid = true
  root : (k.thr mainTid).parent = none
  parent : ∀ t, k.thrtab t = true → t ≠ mainTid → ∃ p, k.ParentOf t p ∧ k.thrtab p = true
  reaches : ∀ t, k.thrtab t = true → Relation.ReflTransGen k.ParentOf t mainTid

theorem init_family : Family (init : Kernel nl) := by
  have hidle : ∀ t, (init : Kernel nl).thrtab t = true → t ≠ mainTid →
      (init : Kernel nl).ParentOf t mainTid := by
    intro t ht hne
    rcases init_cases ht with ⟨rfl, -⟩ | ⟨rfl, -⟩
    · exact absurd rfl hne
    · rfl
  refine ⟨rfl, rfl, fun t ht hne => ⟨mainTid, hidle t ht hne, rfl⟩, fun t ht => ?_⟩
  by_cases hne : t = mainTid
  · subst hne
    exact .refl
  · exact .single (hidle t ht hne)

namespace Family

/-- A parent is in the table, and so is the whole line of ancestors. -/
theorem live (h : Family k) {p : Tid} (ht : k.thrtab t = true) (hp : k.ParentOf t p) :
    k.thrtab p = true := by
  have hne : t ≠ mainTid := by
    rintro rfl
    rw [ParentOf, h.root] at hp
    cases hp
  obtain ⟨p', hp', hlive⟩ := h.parent t ht hne
  rw [ParentOf, hp'] at hp
  cases hp
  exact hlive

/-- An induction over the ancestors of a thread in the table, from the main thread down. -/
theorem induction (h : Family k) {p : Tid → Prop} (hmain : p mainTid)
    (hstep : ∀ t u, k.thrtab t = true → k.thrtab u = true → k.ParentOf t u → p u → p t)
    (ht : k.thrtab t = true) : p t := by
  have hpath := h.reaches t ht
  induction hpath using Relation.ReflTransGen.head_induction_on with
  | refl => exact hmain
  | head hp _ ih => exact hstep _ _ ht (h.live ht hp) hp (ih (h.live ht hp))

theorem congr (h : Family k) (htab : k'.thrtab = k.thrtab)
    (hpar : ∀ t, (k'.thr t).parent = (k.thr t).parent) : Family k' := by
  have hrel : k'.ParentOf = k.ParentOf := by
    funext a b
    rw [ParentOf, ParentOf, hpar]
  refine ⟨?_, ?_, ?_, ?_⟩
  · rw [htab]
    exact h.main
  · rw [hpar]
    exact h.root
  · rw [htab, hrel]
    exact h.parent
  · rw [htab, hrel]
    exact h.reaches

/-- The scan of `thread_join` begins after the main thread, which is nobody's child. -/
theorem isMatch_iff (h : Family k) {c : Tid} :
    k.isMatch tid c = true ↔ k.Matches k.tp tid c := by
  simp only [isMatch, Matches, ParentOf, Bool.and_eq_true, Bool.or_eq_true, decide_eq_true_eq,
    and_assoc]
  constructor
  · rintro ⟨-, hrest⟩
    exact hrest
  · rintro ⟨hl, hp, hm⟩
    refine ⟨?_, hl, hp, hm⟩
    rintro rfl
    rw [h.root] at hp
    cases hp

end Family

/-- A thread is made in the free slot `t`, below the running thread. -/
structure Spawned (k k' : Kernel nl) (t : Tid) : Prop where
  free : k.thrtab t = false
  thrtab : k'.thrtab = Function.update k.thrtab t true
  parent : k'.ParentOf t k.tp
  state : (k'.thr t).state = .ready
  others : ∀ u, u ≠ t → k'.thr u = k.thr u

theorem Spawned.family (hs : Spawned k k' t) (h : Family k) (htp : k.thrtab k.tp = true) :
    Family k' := by
  have hne : ∀ u, k.thrtab u = true → u ≠ t := by
    rintro u hu rfl
    rw [hs.free] at hu
    cases hu
  have hlive : ∀ u, k'.thrtab u = true ↔ u = t ∨ k.thrtab u = true := by
    intro u
    rw [hs.thrtab]
    by_cases hu : u = t
    · subst hu
      simp
    · simp [hu]
  have hpar : ∀ u p, k.thrtab u = true → (k'.ParentOf u p ↔ k.ParentOf u p) := by
    intro u p hu
    rw [ParentOf, hs.others u (hne u hu), ParentOf]
  have hreach : ∀ u, k.thrtab u = true → Relation.ReflTransGen k'.ParentOf u mainTid := by
    intro u hu
    refine h.induction (p := fun u => Relation.ReflTransGen k'.ParentOf u mainTid) .refl
      (fun a b ha _ hab ih => ?_) hu
    exact .head ((hpar a b ha).mpr hab) ih
  refine ⟨(hlive _).mpr (.inr h.main), ?_, fun u hu hum => ?_, fun u hu => ?_⟩
  · rw [hs.others _ (hne _ h.main)]
    exact h.root
  · rcases (hlive u).mp hu with rfl | hu
    · exact ⟨k.tp, hs.parent, (hlive _).mpr (.inr htp)⟩
    · obtain ⟨p, hp, hpl⟩ := h.parent u hu hum
      exact ⟨p, (hpar u p hu).mpr hp, (hlive p).mpr (.inr hpl)⟩
  · rcases (hlive u).mp hu with rfl | hu
    · exact .head hs.parent (hreach _ htp)
    · exact hreach u hu

/-- The exited child `c` of the running thread is taken out of the table, and its children get
the running thread as their parent. -/
structure Reclaimed (k k' : Kernel nl) (c : Tid) : Prop where
  live : k.thrtab c = true
  parent : k.ParentOf c k.tp
  exited : (k.thr c).state = .exited
  thrtab : k'.thrtab = Function.update k.thrtab c false
  handed : ∀ t, k.thrtab t = true → k.ParentOf t c → k'.ParentOf t k.tp
  others : ∀ t, ¬ k.ParentOf t c → (k'.thr t).parent = (k.thr t).parent
  state : ∀ t, (k'.thr t).state = (k.thr t).state

theorem Reclaimed.family (hs : Reclaimed k k' c) (h : Family k) (htp : k.thrtab k.tp = true)
    (hne : k.tp ≠ c) : Family k' := by
  have hlive : ∀ u, k'.thrtab u = true ↔ u ≠ c ∧ k.thrtab u = true := by
    intro u
    rw [hs.thrtab]
    by_cases hu : u = c
    · subst hu
      simp
    · simp [hu]
  have hroot : ∀ p, ¬ k.ParentOf mainTid p := by
    intro p hp
    rw [ParentOf, h.root] at hp
    cases hp
  have hmain : mainTid ≠ c := by
    intro heq
    exact hroot _ (heq ▸ hs.parent)
  -- what was above `c` is now above its children
  have hpar : ∀ t p, k.thrtab t = true → k.ParentOf t p →
      k'.ParentOf t (if p = c then k.tp else p) := by
    intro t p ht hp
    by_cases hpc : p = c
    · subst hpc
      rw [if_pos rfl]
      exact hs.handed t ht hp
    · rw [if_neg hpc]
      have hother : ¬ k.ParentOf t c := by
        intro hc
        rw [ParentOf, hp] at hc
        exact hpc (Option.some.inj hc)
      rw [ParentOf, hs.others t hother]
      exact hp
  have hreach : ∀ t, k.thrtab t = true →
      Relation.ReflTransGen k'.ParentOf (if t = c then k.tp else t) mainTid := by
    intro t ht
    refine h.induction
      (p := fun t => Relation.ReflTransGen k'.ParentOf (if t = c then k.tp else t) mainTid)
      ?_ (fun t p ht _ hp ih => ?_) ht
    · rw [if_neg hmain]
    · by_cases htc : t = c
      · subst htc
        rw [if_pos rfl]
        have hpt : p = k.tp := by
          rw [ParentOf, hs.parent] at hp
          exact (Option.some.inj hp).symm
        subst hpt
        rwa [if_neg hne] at ih
      · rw [if_neg htc]
        exact .head (hpar t p ht hp) ih
  refine ⟨(hlive _).mpr ⟨hmain, h.main⟩, ?_, fun t ht htm => ?_, fun t ht => ?_⟩
  · rw [hs.others _ (hroot c)]
    exact h.root
  · obtain ⟨htc, ht⟩ := (hlive t).mp ht
    obtain ⟨p, hp, hpl⟩ := h.parent t ht htm
    refine ⟨_, hpar t p ht hp, (hlive _).mpr ?_⟩
    by_cases hpc : p = c
    · rw [if_pos hpc]
      exact ⟨hne, htp⟩
    · rw [if_neg hpc]
      exact ⟨hpc, hpl⟩
  · obtain ⟨htc, ht⟩ := (hlive t).mp ht
    have hr := hreach t ht
    rwa [if_neg htc] at hr

/-! ## The calls -/

/-- `thread_spawn` makes no thread, or one in a free slot. -/
theorem threadSpawn_tree {r : Int} (heq : k.threadSpawn = some (r, k')) :
    k.freeSlot = none ∧ k' = k ∨ ∃ t, k.freeSlot = some t ∧ Spawned k k' t := by
  rw [threadSpawn] at heq
  cases hslot : k.freeSlot with
  | none =>
    rw [hslot] at heq
    cases heq
    exact .inl ⟨rfl, rfl⟩
  | some t =>
    simp only [hslot, tlinsert, Option.bind_eq_bind, Option.pure_def] at heq
    obtain ⟨k1, hins, heq⟩ := Option.bind_eq_some_iff.mp heq
    obtain ⟨⟨next, q⟩, -, rfl⟩ := Option.map_eq_some_iff.mp hins
    cases heq
    have hfree : k.thrtab t = false := by
      have := List.find?_some hslot
      simp only [Bool.and_eq_true, Bool.not_eq_true'] at this
      exact this.2
    refine .inr ⟨t, rfl, hfree, rfl, ?_, ?_, fun u hu => ?_⟩
    · show (Function.update k.thr t _ t).parent = _
      rw [Function.update_self]
    · show (Function.update k.thr t _ t).state = _
      rw [Function.update_self]
    · exact Function.update_of_ne hu _ _

/-- The child that `thread_join(tid)` hands to `thread_reclaim`. -/
def exitedChild (k : Kernel nl) (tid : Int) : Option Tid :=
  (List.finRange nthr).find? fun c => k.isMatch tid c && (k.thr c).state = .exited

/-- `thread_reclaim` of an exited child of the running thread. -/
theorem threadReclaim_tree (h : Family k) {c : Tid} (hp : k.ParentOf c k.tp)
    (heq : k.threadReclaim c = some k') : Reclaimed k k' c := by
  rw [threadReclaim, guard] at heq
  split at heq
  case isFalse => cases heq
  case isTrue hc =>
    cases heq
    refine ⟨hc.2.1, hp, hc.2.2, rfl, fun t ht htc => ?_, fun t htc => ?_, fun t => ?_⟩
    · have hm : t ≠ mainTid := by
        rintro rfl
        rw [ParentOf, h.root] at htc
        cases htc
      simp only [ParentOf]
      rw [if_pos ⟨hm, ht, htc⟩]
      exact hp
    · simp only
      rw [if_neg fun hand => htc hand.2.2]
    · simp only
      split <;> rfl

/-- `thread_join`, one turn of its loop. -/
theorem threadJoin_tree (h : Family k) {isr1 isr2 : List (Cond nl)} {r : Option Int}
    (heq : k.threadJoin tid isr1 isr2 = some (r, k')) :
    (∃ c, k.exitedChild tid = some c ∧ r = some (c.val : Int) ∧ k.Matches k.tp tid c ∧
        Reclaimed k k' c) ∨
      (k.exitedChild tid = none ∧ r = some (-EINVAL) ∧ k' = k) ∨
      (k.exitedChild tid = none ∧ r = none ∧ k.conditionWait (.childExit k.tp) isr1 isr2 = some k' ∧
        (∃ c, k.Matches k.tp tid c) ∧ ∀ c, k.Matches k.tp tid c → (k.thr c).state ≠ .exited) := by
  rw [threadJoin] at heq
  cases hfind : k.exitedChild tid with
  | some c =>
    have hc := List.find?_some hfind
    rw [Bool.and_eq_true, decide_eq_true_eq, h.isMatch_iff] at hc
    rw [exitedChild] at hfind
    simp only [hfind, Option.bind_eq_bind, Option.pure_def] at heq
    obtain ⟨k1, hrec, heq⟩ := Option.bind_eq_some_iff.mp heq
    cases heq
    exact .inl ⟨c, rfl, rfl, hc.1, threadReclaim_tree h hc.1.2.1 hrec⟩
  | none =>
    have hnone := List.find?_eq_none.mp hfind
    rw [exitedChild] at hfind
    simp only [hfind] at heq
    by_cases hany : (List.finRange nthr).any (k.isMatch tid) = true
    · rw [if_pos hany] at heq
      obtain ⟨k1, hwait, heq⟩ := Option.bind_eq_some_iff.mp heq
      cases heq
      obtain ⟨c, -, hc⟩ := List.any_eq_true.mp hany
      refine .inr (.inr ⟨rfl, rfl, hwait, ⟨c, h.isMatch_iff.mp hc⟩, fun c hc he => ?_⟩)
      have := hnone c (List.mem_finRange c)
      rw [h.isMatch_iff.mpr hc] at this
      exact this (by simp [he])
    · rw [if_neg hany] at heq
      cases heq
      exact .inr (.inl ⟨rfl, rfl, rfl⟩)

end MiniOs.Kernel
