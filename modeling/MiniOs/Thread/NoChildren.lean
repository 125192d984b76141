import MiniOs.Thread.Join

/-!
# A join without children

`thread_join(0)` is to return `-EINVAL` when the running thread has no child.  It looks for children
in the table, by their parent, and the idle thread is there with the main thread for its parent from
`thrmgr_init` on.  So the main thread always has a child, one that never exits.
-/

namespace MiniOs.Machine

open Kernel (Running Held Family)

variable {nl : Nat} {m m' : Machine nl} {L L' : ListRef nl → List Tid}

/-- The idle thread stays a child of the main thread. -/
theorem Effect.idle_parent {lbl : Label nl} (he : Effect m L lbl m' L') (hr : Running m.k L)
    (hf : Family m.k) (h : m.k.ParentOf idleTid mainTid) : m'.k.ParentOf idleTid mainTid := by
  cases he with
  | same hs => exact (hs.parent idleTid).trans h
  | spawn t hs =>
    have hne : idleTid ≠ t := by
      rintro rfl
      exact absurd (hr.idle_live.symm.trans hs.free) (by simp)
    rw [Kernel.ParentOf, hs.others idleTid hne]
    exact h
  | exit hs => exact (hs.parent idleTid).trans h
  | reclaim tid c _ _ hmatch hs =>
    refine (hs.others idleTid fun hc => ?_).trans h
    -- only the main thread has no parent
    cases (Option.some_inj.mp (h.symm.trans hc))
    exact absurd (hf.root.symm.trans hmatch.2.1) (by simp)
  | refuse _ _ _ hs => exact (hs.parent idleTid).trans h
  | wait _ _ _ hs => exact (hs.parent idleTid).trans h

/-- In every state a run reaches. -/
theorem Reachable.idle_parent (h : Reachable m) :
    m.k.ParentOf idleTid mainTid ∧ ∃ L, Running m.k L ∧ Kindred m L := by
  induction h with
  | init => exact ⟨rfl, _, Kernel.init_running, init_kindred⟩
  | step hrun hen _ hst ih =>
    obtain ⟨hidle, L, hr, hk⟩ := ih
    obtain ⟨-, ⟨H, hh⟩, hpc⟩ := hrun.inv
    obtain ⟨L', hr', he⟩ := effect hr hh hk.family hpc hen hst
    exact ⟨he.idle_parent hr hk.family hidle, L', hr', he.kindred hr hk⟩

/-- `thread_join(0)` with no child refuses. -/
theorem threadJoin_of_no_match (hf : Family m.k) (h : ∀ c, ¬ m.k.Matches m.k.tp 0 c)
    (isr₁ isr₂ : List (Cond nl)) : m.k.threadJoin 0 isr₁ isr₂ = some (some (-EINVAL), m.k) := by
  have hmatch : ∀ c, m.k.isMatch 0 c = false :=
    fun c => Bool.eq_false_iff.mpr fun hc => h c (hf.isMatch_iff.mp hc)
  have hany : (List.finRange nthr).any (m.k.isMatch 0) = false := by
    rw [List.any_eq_false]
    exact fun c _ => by simp [hmatch c]
  have hfind : ((List.finRange nthr).find? fun c =>
      m.k.isMatch 0 c && decide ((m.k.thr c).state = .exited)) = none := by
    rw [List.find?_eq_none]
    exact fun c _ => by simp [hmatch c]
  rw [Kernel.threadJoin, hfind]
  dsimp only
  rw [hany]
  rfl

/-- In every state that runs reach, `thread_join(0)` of a thread that has no child made by `thread_spawn`
refuses without suspending the caller, exactly when the caller is not the main thread.  Of the threads
in the table only the main and the idle thread were not made by `thread_spawn`. -/
theorem join_no_children_iff (h : Reachable m) (isr₁ isr₂ : List (Cond nl))
    (hnone : ∀ c, c ≠ mainTid → c ≠ idleTid → ¬ m.k.Matches m.k.tp 0 c) :
    m.k.threadJoin 0 isr₁ isr₂ = some (some (-EINVAL), m.k) ↔ m.k.tp ≠ mainTid := by
  obtain ⟨hidle, L, hr, hk⟩ := h.idle_parent
  constructor
  · rintro heq htp
    have hmatch : m.k.isMatch 0 idleTid = true :=
      hk.family.isMatch_iff.mpr ⟨hr.idle_live, htp ▸ hidle, .inl rfl⟩
    have hany : (List.finRange nthr).any (m.k.isMatch 0) = true :=
      List.any_eq_true.mpr ⟨idleTid, List.mem_finRange _, hmatch⟩
    rw [Kernel.threadJoin] at heq
    split at heq
    · -- a reclaim returns a thread id
      obtain ⟨k', -, hk'⟩ := Option.bind_eq_some_iff.mp heq
      cases hk'
    · rw [if_pos hany] at heq
      obtain ⟨k', -, hk'⟩ := Option.bind_eq_some_iff.mp heq
      cases hk'
  · intro htp
    refine threadJoin_of_no_match hk.family (fun c hc => ?_) isr₁ isr₂
    by_cases hmain : c = mainTid
    · subst hmain
      exact absurd (hk.family.root.symm.trans hc.2.1) (by simp)
    · by_cases hci : c = idleTid
      · subst hci
        exact htp (Option.some_inj.mp (hc.2.1.symm.trans hidle))
      · exact hnone c hmain hci hc

instance (k : Kernel nl) (p : Tid) (tid : Int) (c : Tid) : Decidable (k.Matches p tid c) :=
  inferInstanceAs
    (Decidable (k.thrtab c = true ∧ (k.thr c).parent = some p ∧ (tid = 0 ∨ (c.val : Int) = tid)))

/-- A thread that the main thread has spawned joins, when it runs. -/
theorem join_no_children_iff_spawned : ∃ m : Machine 1, Reachable m ∧ m.k.tp = 1 ∧
    (m.k.threadJoin 0 [] [] = some (some (-EINVAL), m.k) ↔ m.k.tp ≠ mainTid) := by
  have heval : (exec (fun _ _ => True) (init : Machine 1)
      [.call .spawn, .call .yield, .call .yield]).map (fun m => (m.k.tp,
        decide (∀ c, c ≠ mainTid → c ≠ idleTid → ¬ m.k.Matches m.k.tp 0 c))) = some (1, true) := by
    decide +kernel
  obtain ⟨m, hm, heq⟩ := Option.map_eq_some_iff.mp heval
  obtain ⟨htp, hnone⟩ := Prod.mk.inj heq
  exact ⟨m, Run.init.exec hm, htp, join_no_children_iff (Run.init.exec hm) [] [] (of_decide_eq_true hnone)⟩

/-- The main thread, right after `thrmgr_init`, waits for the idle thread. -/
theorem main_join_waits : Reachable (init : Machine 1) ∧
    (init : Machine 1).Enabled (.call (.join 0 [] [])) ∧
    (∀ c, c ≠ mainTid → c ≠ idleTid → ¬ (init : Machine 1).k.Matches mainTid 0 c) ∧
    ((init : Machine 1).k.threadJoin 0 [] []).map (fun x => (x.1, x.2.tp)) = some (none, idleTid) :=
  ⟨.init, by decide +kernel, by decide +kernel, by decide +kernel⟩

end MiniOs.Machine
