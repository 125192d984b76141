import MiniOs.Timer.Sleep

/-!
# Lost wake-ups

`alarm_sleep` puts the alarm on the sleep list and restores interrupts before it calls
`condition_wait`.  A timer interrupt taken in between that finds the alarm due takes it off the
list and wakes nobody, and the thread then waits on a condition that no interrupt will broadcast.
This is the only way to lose a wake-up: when no interrupt comes in that window at or after the wake
time (`Prompt`), every alarm that a thread waits for is on the sleep list.
-/

namespace MiniOs.Sleepers

variable {A T : Type} {s s' : Sleepers A T} {pending L : List A} {al : A} {t : T} {now : Ticks}

/-- Every alarm whose condition a thread waits on is on the sleep list. -/
def Awaited (s : Sleepers A T) : Prop :=
  ∀ al t, t ∈ s.tm.waitList al → ∃ L, Chain s.tm.next s.tm.sleepList L ∧ al ∈ L

/-- An interrupt finds no alarm due whose thread is not yet on the condition's wait list. -/
def Prompt (s : Sleepers A T) : SleepLabel A T → Prop
  | .interrupt now => ∀ t al pie, s.phase t = .inserted al pie → now < s.tm.twake al
  | _ => True

/-- The alarms that threads wait for, or are about to, are pending. -/
structure Expected (s : Sleepers A T) (pending : List A) : Prop where
  inserted : ∀ t al pie, s.phase t = .inserted al pie → al ∈ pending
  waits : ∀ al t, t ∈ s.tm.waitList al → al ∈ pending

theorem Expected.awaited (h : Expected s pending) (hinv : Inv s pending L) : s.Awaited :=
  fun al t ht => ⟨L, hinv.queue.chain, hinv.perm.mem_iff.mpr (h.waits al t ht)⟩

variable [DecidableEq A] [DecidableEq T]

/-- The states that runs reach in which every interrupt is prompt. -/
inductive PromptReach : List A → Sleepers A T → Prop where
  | init (next : A → Option A) (twake : A → Ticks) (stcmp clock : Ticks) :
      PromptReach []
        ⟨Timer.timerInit ⟨none, next, twake, fun _ => [], [], stcmp⟩, fun _ => .out, clock⟩
  | step {pending : List A} {s s' : Sleepers A T} (fuel : Nat) (lbl : SleepLabel A T) :
      PromptReach pending s → s.Enabled lbl → s.Prompt lbl → s.step fuel lbl = some s' →
      PromptReach (s.pendingAfter pending lbl) s'

theorem PromptReach.reach (h : PromptReach pending s) : Reach pending s := by
  induction h with
  | init next twake stcmp clock => exact .init next twake stcmp clock
  | step fuel lbl _ hen _ hst ih => exact ih.step fuel lbl hen hst

/-! ## Each update keeps what is expected -/

namespace Expected

omit [DecidableEq A] in
/-- A thread goes on to a place where its alarm is not on the list, or still is. -/
theorem update (h : Expected s pending) {p : SleepPhase A}
    (hp : ∀ al pie, p = .inserted al pie → al ∈ pending) :
    ∀ u al pie, Function.update s.phase t p u = .inserted al pie → al ∈ pending := by
  intro u al pie hu
  rcases Inv.phase_cases hu with ⟨-, hq⟩ | ⟨-, hu⟩
  · exact hp al pie hq.symm
  · exact h.inserted u al pie hu

variable {pie : Bool} {fuel : Nat}

theorem insert (h : Expected s pending)
    (hp : s.phase t = .inserting al pie) (hst : s.step fuel (.insert t) = some s') :
    Expected s' (pending ++ [al]) := by
  simp only [step, hp, Timer.insertAlarm, Option.map_map, Option.map_eq_some_iff] at hst
  obtain ⟨place, -, rfl⟩ := hst
  refine ⟨fun u b pie' hu => ?_, fun b u hu => List.mem_append_left _ (h.waits b u hu)⟩
  rcases Inv.phase_cases hu with ⟨-, hq⟩ | ⟨-, hu⟩
  · cases hq
    exact List.mem_append_right _ (List.mem_singleton_self al)
  · exact List.mem_append_left _ (h.inserted u b pie' hu)

theorem wait (h : Expected s pending) (hp : s.phase t = .inserted al pie) :
    Expected { s with
      tm := s.tm.conditionWait al t
      phase := Function.update s.phase t (.waiting al) } pending := by
  refine ⟨h.update fun b pie' hq => (by cases hq), fun b u hu => ?_⟩
  change u ∈ Function.update s.tm.waitList al (s.tm.waitList al ++ [t]) b at hu
  by_cases hba : b = al
  · rw [hba]
    exact h.inserted t al pie hp
  · rw [Function.update_of_ne hba] at hu
    exact h.waits b u hu

omit [DecidableEq T] in
theorem interrupt (h : Expected s pending) (hinv : Inv s pending L)
    (hprompt : s.Prompt (.interrupt now)) :
    Expected { s with tm := s.tm.afterInterrupt L now, clock := now }
      (pending.filter fun a => now < s.tm.twake a) := by
  refine ⟨fun u b pie hu => ?_, fun b u hu => ?_⟩
  · rw [List.mem_filter, decide_eq_true_eq]
    exact ⟨h.inserted u b pie hu, hprompt u b pie hu⟩
  · have hwl : (s.tm.afterInterrupt L now).waitList b =
        if b ∈ L.filter (fun a => s.tm.twake a ≤ now) then [] else s.tm.waitList b := rfl
    rw [hwl] at hu
    split at hu
    case isTrue => cases hu
    case isFalse hdue =>
      -- the alarm is on the list and is not due
      have hmem := h.waits b u hu
      rw [List.mem_filter, decide_eq_true_eq, not_and] at hdue
      have hlt := hdue (hinv.perm.mem_iff.mpr hmem)
      rw [List.mem_filter, decide_eq_true_eq]
      exact ⟨hmem, BitVec.not_le.mp hlt⟩

theorem step {lbl : SleepLabel A T} (h : Expected s pending) (hinv : Inv s pending L)
    (hen : s.Enabled lbl) (hprompt : s.Prompt lbl) (hst : s.step fuel lbl = some s') :
    Expected s' (s.pendingAfter pending lbl) := by
  cases lbl with
  | alarmInit b now =>
    cases hst
    refine ⟨h.inserted, fun c u hu => ?_⟩
    change u ∈ Function.update s.tm.waitList b [] c at hu
    by_cases hcb : c = b
    · rw [hcb, Function.update_self] at hu
      cases hu
    · rw [Function.update_of_ne hcb] at hu
      exact h.waits c u hu
  | alarmReset b now =>
    cases hst
    exact ⟨h.inserted, h.waits⟩
  | call u b tcnt now pie =>
    cases hst
    refine ⟨h.update fun c pie' hq => ?_, h.waits⟩
    split at hq <;> cases hq
  | insert u =>
    obtain ⟨b, pie, hp⟩ := hen
    rw [pendingAfter, hp]
    exact h.insert hp hst
  | wait u =>
    obtain ⟨b, pie, hp⟩ := hen
    simp only [Sleepers.step, hp] at hst
    cases hst
    exact h.wait hp
  | interrupt now =>
    have hst' := step_mono (L.length + 1) hst
    rw [Sleepers.step, hinv.interrupt_eq (by omega)] at hst'
    cases hst'
    exact h.interrupt hinv hprompt
  | ret u now =>
    cases hst
    exact ⟨h.update fun c pie' hq => (by cases hq), h.waits⟩

end Expected

theorem PromptReach.expected (h : PromptReach pending s) : Expected s pending := by
  induction h with
  | init next twake stcmp clock =>
    refine ⟨fun t al pie hp => ?_, fun al t ht => ?_⟩
    · cases hp
    · cases ht
  | step fuel lbl hrun hen hprompt hst ih =>
    obtain ⟨L, hinv⟩ := hrun.reach.inv
    exact ih.step hinv hen hprompt hst

/-! ## The window -/

/-- An interrupt in the window takes the alarm off the list, and the thread then waits for it. -/
theorem lost_of_not_prompt (h : Reach pending s) (hen : s.Enabled (.interrupt now))
    (hlate : ¬ s.Prompt (.interrupt now)) :
    ∃ fuel s₁ t s₂, s.step fuel (.interrupt now) = some s₁ ∧ s₁.Enabled (.wait t) ∧
      s₁.step fuel (.wait t) = some s₂ ∧ ¬ s₂.Awaited := by
  obtain ⟨L, hinv⟩ := h.inv
  simp only [Prompt, not_forall] at hlate
  obtain ⟨t, al, pie, hp, hdue⟩ := hlate
  have hst : s.step (L.length + 1) (.interrupt now) =
      some { s with tm := s.tm.afterInterrupt L now, clock := now } := by
    rw [Sleepers.step, hinv.interrupt_eq (by omega)]
    rfl
  have hafter := hinv.interrupt hen.1
  refine ⟨L.length + 1, _, t, _, hst, ⟨al, pie, hp⟩, by simp only [Sleepers.step, hp]; rfl, ?_⟩
  intro hawaited
  have hself : t ∈ Function.update (s.tm.afterInterrupt L now).waitList al
      ((s.tm.afterInterrupt L now).waitList al ++ [t]) al := by
    rw [Function.update_self]
    exact List.mem_append_right _ (List.mem_singleton_self t)
  obtain ⟨L', hchain, hmem⟩ := hawaited al t hself
  rw [hchain.unique hafter.queue.chain, List.mem_filter, decide_eq_true_eq] at hmem
  exact hdue hmem.2

/-- No wake-up is lost in a run whose interrupts are all prompt, and the first interrupt that is
not prompt loses one. -/
theorem wakeup_kept (h : PromptReach pending s) :
    s.Awaited ∧ ∀ now, s.Enabled (.interrupt now) → ¬ s.Prompt (.interrupt now) →
      ∃ fuel s₁ t s₂, s.step fuel (.interrupt now) = some s₁ ∧ s₁.Enabled (.wait t) ∧
        s₁.step fuel (.wait t) = some s₂ ∧ ¬ s₂.Awaited := by
  obtain ⟨L, hinv⟩ := h.reach.inv
  exact ⟨h.expected.awaited hinv, fun now hen hlate => lost_of_not_prompt h.reach hen hlate⟩

/-- A thread sleeps for five ticks with interrupts enabled, and the interrupt comes when it
waits. -/
theorem wakeup_kept_sleep : ∃ s : Sleepers Unit Unit, PromptReach [] s ∧ s.tm.readyList = [()] ∧
    s.Awaited := by
  have h0 : PromptReach [] _ := .init (A := Unit) (T := Unit) (fun _ => none) (fun _ => 0) 0 0
  have h1 : PromptReach _ _ := h0.step 1 (.call () () 5 1 true)
    ⟨by decide, rfl, fun ⟨⟩ => by decide⟩ trivial rfl
  have h2 : PromptReach _ _ := h1.step 1 (.insert ()) ⟨(), true, by decide⟩ trivial rfl
  have h3 : PromptReach _ _ := h2.step 1 (.wait ()) ⟨(), true, by decide⟩ trivial rfl
  have h4 : PromptReach _ _ := h3.step 2 (.interrupt 5) ⟨by decide, fun ⟨⟩ => by decide⟩
    (fun _ _ _ hp => by cases hp) rfl
  exact ⟨_, h4, rfl, (wakeup_kept h4).1⟩

/-- The interrupt comes at the wake time, after the insertion and before the wait: the comparator
is then set to the far future and the thread waits. -/
theorem wakeup_lost : ∃ s : Sleepers Unit Unit, Reach [] s ∧ s.tm.stcmp = uint64Max ∧
    s.tm.waitList () = [()] ∧ ¬ s.Awaited := by
  have h0 : Reach [] _ := .init (A := Unit) (T := Unit) (fun _ => none) (fun _ => 0) 0 0
  have h1 : Reach _ _ := h0.step 1 (.call () () 5 1 true) ⟨by decide, rfl, fun ⟨⟩ => by decide⟩ rfl
  have h2 : Reach _ _ := h1.step 1 (.insert ()) ⟨(), true, by decide⟩ rfl
  have h3 : Reach _ _ := h2.step 2 (.interrupt 5) ⟨by decide, fun ⟨⟩ => by decide⟩ rfl
  have h4 : Reach _ _ := h3.step 1 (.wait ()) ⟨(), true, by decide⟩ rfl
  refine ⟨_, h4, rfl, rfl, fun hawaited => ?_⟩
  obtain ⟨L, hchain, hmem⟩ := hawaited () () (.head _)
  cases L with
  | nil => cases hmem
  | cons b L => exact nomatch hchain

end MiniOs.Sleepers
