import MiniOs.Thread.Tree

/-!
# Threads that can run

A thread runs, or is on a list and may run later.  A segment lets no other thread run later than
those that could before it, except for the thread that a spawn makes, and an exit takes the
running thread out for good.
-/

namespace MiniOs

namespace Kernel

open Function (update_of_ne update_self)

variable {nl : Nat} {k k' : Kernel nl} {L L' : ListRef nl → List Tid} {t u : Tid} {r : ListRef nl}
  {c : Cond nl} {ts : List Tid}

/-- The thread runs, is ready or waits. -/
def Alive (k : Kernel nl) (t : Tid) : Prop :=
  k.thrtab t = true ∧
    ((k.thr t).state = .self ∨ (k.thr t).state = .ready ∨ (k.thr t).state = .waiting)

/-- The thread runs, or is on a list. -/
def Queued (k : Kernel nl) (L : ListRef nl → List Tid) (t : Tid) : Prop := t = k.tp ∨ ∃ r, t ∈ L r

theorem Running.alive_iff (h : Running k L) : k.Alive t ↔ k.Queued L t := by
  constructor
  · rintro ⟨hl, hs | hs | hs⟩
    · exact .inl (h.self t hl hs)
    · exact .inr ⟨.ready, (h.ready_iff t).mpr ⟨hl, hs⟩⟩
    · have hne : t ≠ k.tp := by
        rintro rfl
        rw [h.tp_self] at hs
        cases hs
      obtain ⟨c, -, hc⟩ := h.mem_of_wait t hl hne hs
      exact .inr ⟨.wait c, hc⟩
  · rintro (rfl | ⟨r, hr⟩)
    · exact ⟨h.tp_live, .inl h.tp_self⟩
    · cases r with
      | ready =>
        obtain ⟨hl, hs⟩ := (h.ready_iff t).mp hr
        exact ⟨hl, .inr (.inl hs)⟩
      | wait c =>
        obtain ⟨hl, hs, -⟩ := h.wait_of_mem c t hr
        exact ⟨hl, .inr (.inr hs)⟩

theorem Running.alive_tp (h : Running k L) : k.Alive k.tp := h.alive_iff.mpr (.inl rfl)

/-! ## What is on the lists -/

theorem mem_foldl_woken (isr : List (Cond nl))
    (h : t ∈ isr.foldl wokenLists L r) : ∃ r, t ∈ L r := by
  induction isr generalizing L with
  | nil => exact ⟨r, h⟩
  | cons c isr ih =>
    obtain ⟨r', hr'⟩ := ih h
    by_cases hw : r' = .wait c
    · subst hw
      simp [wokenLists] at hr'
    · rw [wokenLists, update_of_ne hw] at hr'
      by_cases hready : r' = .ready
      · subst hready
        rw [update_self, List.mem_append] at hr'
        rcases hr' with hr' | hr'
        · exact ⟨_, hr'⟩
        · exact ⟨_, hr'⟩
      · rw [update_of_ne hready] at hr'
        exact ⟨_, hr'⟩

theorem mem_appended {r' : ListRef nl} (h : t ∈ appended L r u r') : t = u ∨ ∃ r, t ∈ L r := by
  by_cases hr : r' = r
  · subst hr
    rw [appended, update_self, List.mem_append, List.mem_singleton] at h
    rcases h with h | h
    · exact .inr ⟨_, h⟩
    · exact .inl h
  · rw [appended, update_of_ne hr] at h
    exact .inr ⟨_, h⟩

theorem mem_waitLists {isr1 isr2 : List (Cond nl)}
    (h : t ∈ waitLists L c u isr1 isr2 r) : t = u ∨ ∃ r, t ∈ L r := by
  obtain ⟨r1, h1⟩ := mem_foldl_woken isr2 h
  rcases mem_appended h1 with h2 | ⟨r2, h2⟩
  · exact .inl h2
  · exact .inr (mem_foldl_woken isr1 h2)

theorem mem_releasedLists {l : Fin nl} (h : t ∈ releasedLists k L l r) :
    ∃ r, t ∈ L r := by
  rw [releasedLists] at h
  split at h
  · exact mem_foldl_woken [.lockCv l] h
  · exact ⟨r, h⟩

/-- After a switch: the thread that runs was the first ready one. -/
theorem mem_of_popped (hq : L .ready = k'.tp :: ts)
    (h : k'.Queued (Function.update L .ready ts) t) : ∃ r, t ∈ L r := by
  rcases h with rfl | ⟨r, hr⟩
  · exact ⟨.ready, by rw [hq]; exact List.mem_cons_self ..⟩
  · by_cases hready : r = .ready
    · subst hready
      rw [update_self] at hr
      exact ⟨.ready, by rw [hq]; exact List.mem_cons_of_mem _ hr⟩
    · rw [update_of_ne hready] at hr
      exact ⟨r, hr⟩

theorem Running.alive_wait {isr1 isr2 : List (Cond nl)}
    (h : Running k L) (hq : waitLists L c k.tp isr1 isr2 .ready = k'.tp :: ts)
    (h' : Running k' (Function.update (waitLists L c k.tp isr1 isr2) .ready ts))
    (ht : k'.Alive t) : k.Alive t := by
  obtain ⟨r, hr⟩ := mem_of_popped hq (h'.alive_iff.mp ht)
  exact h.alive_iff.mpr (mem_waitLists hr)

/-- The lists hold no other threads, and the same thread runs. -/
theorem Running.alive_same (h : Running k L) (h' : Running k' L') (htp : k'.tp = k.tp)
    (hsub : ∀ r, t ∈ L' r → ∃ r, t ∈ L r) (ht : k'.Alive t) : k.Alive t := by
  refine h.alive_iff.mpr ?_
  rcases h'.alive_iff.mp ht with rfl | ⟨r, hr⟩
  · exact .inl htp
  · exact .inr (hsub r hr)

end Kernel

namespace Machine

open Kernel (Running Held)

variable {nl : Nat} {m m' : Machine nl} {L : ListRef nl → List Tid} {H : Tid → List (Fin nl)} {t : Tid}

/-- A thread that can run after a segment could run before it or was made by it; the thread that
exits cannot run again. -/
theorem alive_of_step (hr : Running m.k L) (hh : Held m.k H) (hpc : m.pc idleTid = .user)
    {lbl : Label nl} (hen : m.Enabled lbl) (hst : m.step lbl = some m') (ht : m'.k.Alive t) :
    (m.k.Alive t ∧ ∀ isr, lbl = .call (.exit isr) → t ≠ m.k.tp) ∨
      lbl = .call .spawn ∧ m.k.freeSlot = some t := by
  cases did_of_step hr hh hpc hen hst with
  | @broadcast _ c _ hlbl htp hrun _ =>
    refine .inl ⟨hr.alive_same hrun htp (fun r hr => Kernel.mem_foldl_woken [c] hr) ht, ?_⟩
    rintro isr rfl
    rcases hlbl with h | h
    · cases h
    · cases h
  | full => exact .inl ⟨ht, nofun⟩
  | @spawn u k' hslot heq htp _ hrun =>
    rcases hrun.alive_iff.mp ht with rfl | ⟨r, hmem⟩
    · rw [htp]
      exact .inl ⟨hr.alive_tp, nofun⟩
    · rcases Kernel.mem_appended hmem with rfl | hmem
      · exact .inr ⟨rfl, hslot⟩
      · exact .inl ⟨hr.alive_iff.mpr (.inr hmem), nofun⟩
  | yield hq hrun =>
    obtain ⟨r, hmem⟩ := Kernel.mem_of_popped hq (hrun.alive_iff.mp ht)
    exact .inl ⟨hr.alive_iff.mpr (Kernel.mem_appended hmem), nofun⟩
  | park hp hq hrun =>
    refine .inl ⟨hr.alive_wait hq hrun ht, ?_⟩
    rintro isr rfl
    cases hp with
    | join h => cases h
    | acquire h => cases h.1
  | join hlbl _ htp _ hrun =>
    refine .inl ⟨hr.alive_same hrun htp (fun r hr => ⟨r, hr⟩) ht, ?_⟩
    rintro isr rfl
    cases hlbl
  | @exit isr _ hidle heq =>
    obtain ⟨k1, k', L1, -, ts, heq', hdr, hrun1, hsub, hq, hrun, -⟩ :=
      Running.threadExit (p := fun _ L1 => ∀ t r, t ∈ L1 r → ∃ r, t ∈ L r)
        (fun _ _ _ hsub t r hmem => by
          obtain ⟨r', hr'⟩ := Kernel.mem_releasedLists hmem
          exact hsub t r' hr')
        hr hh (fun _ r hmem => ⟨r, hmem⟩) hidle isr
    rw [heq] at heq'
    cases heq'
    obtain ⟨r, hmem⟩ := Kernel.mem_of_popped hq (hrun.alive_iff.mp ht)
    obtain ⟨r1, hmem1⟩ := Kernel.mem_foldl_woken _ hmem
    refine .inl ⟨hr.alive_iff.mpr (.inr (hsub t r1 hmem1)), fun _ _ => ?_⟩
    rintro rfl
    rw [← hdr.tp] at hmem1
    exact hrun1.off _ hmem1
  | bump => exact .inl ⟨ht, nofun⟩
  | @take _ l hlbl =>
    refine .inl ⟨hr.alive_same (hr.taken l) rfl (fun r hr => ⟨r, hr⟩) ht, ?_⟩
    rintro isr rfl
    cases hlbl.1
  | release _ hrun _ hre =>
    exact .inl ⟨hr.alive_same hrun hre.tp (fun r hr => Kernel.mem_releasedLists hr) ht, nofun⟩

end Machine

end MiniOs
