import MiniOs.Timer.Sleep

/-!
# How long a sleep lasts

`sleep_us` and `sleep_ms` convert the duration to ticks with multiplications of 64-bit numbers, and
only the sum with the current time saturates.  The earliest time at which a sleep of `tcnt` ticks can
return is the saturated sum, so a duration that does not fit 64 bits is cut short, unless the sum
saturates all the same.
-/

namespace MiniOs

open Function (update_of_ne update_self)

/-- `TIMER_FREQ`, in ticks per second. -/
def timerFreq : Nat := 10000000

/-- The ticks that `alarm_sleep_us` asks for. -/
def ticksOfUs (us : BitVec 64) : Ticks := us * BitVec.ofNat 64 (timerFreq / 1000 / 1000)

/-- The microseconds that `sleep_ms` asks for. -/
def usOfMs (ms : BitVec 64) : BitVec 64 := 1000 * ms

namespace Sleepers

variable {A T : Type} [DecidableEq A] [DecidableEq T] {t : T} {al : A} {us t₀ : BitVec 64}
  {s s' : Sleepers A T} {pending : List A}

/-- The states during `sleep_us(us)` in thread `t`, which runs `alarm_init` at time `t₀` on the alarm
`al` of its stack and then `alarm_sleep`; `called` says that it is in `alarm_sleep`.  Nobody else has
that alarm. -/
inductive InSleepUs (t : T) (al : A) (us t₀ : BitVec 64) : Bool → Sleepers A T → Prop where
  | init {pending : List A} {s s' : Sleepers A T} (fuel : Nat) : Reach pending s →
      s.Enabled (.alarmInit al t₀) → s.step fuel (.alarmInit al t₀) = some s' →
      InSleepUs t al us t₀ false s'
  | before {s s' : Sleepers A T} (fuel : Nat) (lbl : SleepLabel A T) : InSleepUs t al us t₀ false s →
      s.Enabled lbl → ¬ Sets al lbl → s.step fuel lbl = some s' → InSleepUs t al us t₀ false s'
  | call {s s' : Sleepers A T} (fuel : Nat) (now : Ticks) (pie : Bool) :
      InSleepUs t al us t₀ false s → s.Enabled (.call t al (ticksOfUs us) now pie) →
      s.step fuel (.call t al (ticksOfUs us) now pie) = some s' → InSleepUs t al us t₀ true s'
  | during {s s' : Sleepers A T} (fuel : Nat) (lbl : SleepLabel A T) : InSleepUs t al us t₀ true s →
      s.Enabled lbl → (∀ now, lbl ≠ .ret t now) → s.step fuel lbl = some s' →
      InSleepUs t al us t₀ true s'

/-- A thread stays in its call until it returns. -/
theorem step_alarm {fuel : Nat} {lbl : SleepLabel A T} (hen : s.Enabled lbl)
    (hst : s.step fuel lbl = some s') (hret : ∀ now, lbl ≠ .ret t now)
    (hal : (s.phase t).alarm = some al) : (s'.phase t).alarm = some al := by
  have hupdate : ∀ {u p}, (s.phase u).alarm = SleepPhase.alarm p →
      (Function.update s.phase u p t).alarm = some al := by
    intro u p hp
    by_cases htu : t = u
    · subst htu
      rw [update_self, ← hp, hal]
    · rw [update_of_ne htu, hal]
  cases lbl with
  | alarmInit | alarmReset =>
    cases hst
    exact hal
  | call u b tcnt now pie =>
    cases hst
    have htu : t ≠ u := by
      rintro rfl
      rw [hen.2.1] at hal
      cases hal
    show (Function.update s.phase u _ t).alarm = _
    rw [update_of_ne htu, hal]
  | insert u =>
    obtain ⟨b, pie, hp⟩ := hen
    simp only [step, hp, Option.map_eq_some_iff] at hst
    obtain ⟨tm, -, rfl⟩ := hst
    exact hupdate (by rw [hp]; rfl)
  | wait u =>
    obtain ⟨b, pie, hp⟩ := hen
    simp only [step, hp] at hst
    cases hst
    exact hupdate (by rw [hp]; rfl)
  | interrupt now =>
    simp only [step, Option.map_eq_some_iff] at hst
    obtain ⟨tm, -, rfl⟩ := hst
    exact hal
  | ret u now =>
    cases hst
    have htu : t ≠ u := by
      rintro rfl
      exact hret now rfl
    show (Function.update s.phase u _ t).alarm = _
    rw [update_of_ne htu, hal]

/-- The alarm has the time of `alarm_init` before the call, and the wake time in it. -/
theorem InSleepUs.twake {called : Bool} (h : InSleepUs t al us t₀ called s) :
    (∃ pending, Reach pending s) ∧
      if called then (s.phase t).alarm = some al ∧ s.tm.twake al = Timer.wakeTime t₀ (ticksOfUs us)
      else s.tm.twake al = t₀ := by
  induction h with
  | init fuel hreach hen hst =>
    refine ⟨⟨_, hreach.step fuel _ hen hst⟩, ?_⟩
    cases hst
    exact update_self ..
  | before fuel lbl _ hen hsets hst ih =>
    obtain ⟨⟨pending, hreach⟩, htwake⟩ := ih
    obtain ⟨L, hinv⟩ := hreach.inv
    refine ⟨⟨_, hreach.step fuel _ hen hst⟩, ?_⟩
    rw [if_neg (by simp)] at htwake ⊢
    rw [hinv.step_twake_of_not_sets hen hst hsets, htwake]
  | call fuel now pie _ hen hst ih =>
    obtain ⟨⟨pending, hreach⟩, htwake⟩ := ih
    refine ⟨⟨_, hreach.step fuel _ hen hst⟩, ?_⟩
    rw [if_neg (by simp)] at htwake
    cases hst
    rw [if_pos rfl]
    constructor
    · dsimp only
      rw [update_self]
      split <;> rfl
    · dsimp only [Timer.advance]
      rw [update_self, htwake]
  | during fuel lbl _ hen hret hst ih =>
    obtain ⟨⟨pending, hreach⟩, htwake⟩ := ih
    obtain ⟨L, hinv⟩ := hreach.inv
    refine ⟨⟨_, hreach.step fuel _ hen hst⟩, ?_⟩
    rw [if_pos rfl] at htwake ⊢
    exact ⟨step_alarm hen hst hret htwake.1, (hinv.step_twake hen hst htwake.1).trans htwake.2⟩

/-- A sleep does not return before its wake time. -/
theorem InSleepUs.wakeTime_le (h : InSleepUs t al us t₀ true s) {now : Ticks}
    (hret : s.Enabled (.ret t now)) : Timer.wakeTime t₀ (ticksOfUs us) ≤ now := by
  obtain ⟨⟨pending, hreach⟩, htwake⟩ := h.twake
  rw [if_pos rfl] at htwake
  obtain ⟨L, hinv⟩ := hreach.inv
  obtain ⟨al', hal', hle⟩ := hinv.twake_le_of_ret hret
  rw [htwake.1, Option.some_inj] at hal'
  rw [← htwake.2, hal']
  exact hle

/-- One thread in a sleep from `t₀` to `w`, with nobody else around. -/
def alone (t : T) (al : A) (t₀ w : Ticks) (listed : Bool) (waits ready : List T)
    (phase : SleepPhase A) (clock : Ticks) : Sleepers A T where
  tm := {
    sleepList := if listed then some al else none
    next := Function.update (fun _ => none) al none
    twake := Function.update (fun _ => t₀) al w
    waitList := Function.update (fun _ => []) al waits
    readyList := ready
    stcmp := if listed then w else uint64Max }
  phase := Function.update (fun _ => .out) t phase
  clock := clock

/-- A sleep can return at its wake time: the thread is on the condition's list when the interrupt
comes. -/
theorem exists_return_at_wakeTime (t : T) (al : A) (us t₀ : BitVec 64) :
    ∃ s : Sleepers A T, InSleepUs t al us t₀ true s ∧
      s.Enabled (.ret t (Timer.wakeTime t₀ (ticksOfUs us))) := by
  have hle : t₀ ≤ Timer.wakeTime t₀ (ticksOfUs us) := by
    rw [BitVec.le_def, toNat_wakeTime]
    omega
  have hnot : ¬ Timer.wakeTime t₀ (ticksOfUs us) < t₀ := BitVec.not_lt.mpr hle
  generalize hw : Timer.wakeTime t₀ (ticksOfUs us) = w at hle hnot ⊢
  have hrefl : t₀ ≤ t₀ := BitVec.le_refl t₀
  have h0 : Reach [] _ := .init (A := A) (T := T) (fun _ => none) (fun _ => t₀) 0 t₀
  have h1 : InSleepUs t al us t₀ false (alone t al t₀ t₀ false [] [] .out t₀) := by
    refine .init 1 h0 ⟨hrefl, fun _ => by simp [SleepPhase.alarm]⟩ ?_
    simp [step, Timer.alarmInit, Timer.timerInit, alone]
  have h2 : InSleepUs t al us t₀ true (alone t al t₀ w false [] [] (.inserting al true) t₀) := by
    refine .call 1 t₀ true h1 ⟨hrefl, by simp [alone], fun u => by simp [alone, SleepPhase.alarm]⟩ ?_
    simp [step, Timer.advance, alone, hw, hnot]
  have h3 : InSleepUs t al us t₀ true (alone t al t₀ w true [] [] (.inserted al true) t₀) := by
    refine .during 1 (.insert t) h2 ⟨al, true, by simp [alone]⟩ (by simp) ?_
    simp [step, alone, Timer.insertAlarm, Timer.findPlace, linkAt, setLink]
  have h4 : InSleepUs t al us t₀ true (alone t al t₀ w true [t] [] (.waiting al) t₀) := by
    refine .during 1 (.wait t) h3 ⟨al, true, by simp [alone]⟩ (by simp) ?_
    simp [step, alone, Timer.conditionWait]
  have h5 : InSleepUs t al us t₀ true (alone t al t₀ w false [] [t] (.waiting al) w) := by
    refine .during 2 (.interrupt w) h4 ⟨hle, fun u => ?_⟩ (by simp) ?_
    · by_cases hu : u = t <;> simp [alone, hu, SleepPhase.masked]
    · simp [step, alone, Timer.handleTimerInterrupt, Timer.drainDue, Timer.conditionBroadcast]
  refine ⟨_, h5, BitVec.le_refl w, .inr ⟨⟨al, by simp [alone]⟩, by simp [alone]⟩⟩

/-! ## The duration -/

/-- `sleep_us(us)` does not return before `ticks` ticks have passed since `t₀`, or the time is the
greatest there is. -/
def SleepsFor (t : T) (al : A) (us t₀ : BitVec 64) (ticks : Nat) : Prop :=
  ∀ (s : Sleepers A T) (now : Ticks), InSleepUs t al us t₀ true s → s.Enabled (.ret t now) →
    min (t₀.toNat + ticks) (2 ^ 64 - 1) ≤ now.toNat

/-- The duration that fits is slept, and one that does not is only when the wake time saturates. -/
theorem sleepsFor_iff (t : T) (al : A) (us t₀ : BitVec 64) {ticks : Nat}
    (hticks : (ticksOfUs us).toNat = ticks % 2 ^ 64) :
    SleepsFor t al us t₀ ticks ↔ ticks < 2 ^ 64 ∨ 2 ^ 64 - 1 ≤ t₀.toNat + ticks % 2 ^ 64 := by
  have hmod := Nat.mod_le ticks (2 ^ 64)
  have hiff : SleepsFor t al us t₀ ticks ↔
      min (t₀.toNat + ticks) (2 ^ 64 - 1) ≤ min (t₀.toNat + ticks % 2 ^ 64) (2 ^ 64 - 1) := by
    rw [← hticks, ← toNat_wakeTime]
    constructor
    · intro h
      obtain ⟨s, hs, hret⟩ := exists_return_at_wakeTime t al us t₀
      exact h s _ hs hret
    · intro h s now hs hret
      exact Nat.le_trans h (hs.wakeTime_le hret)
  rw [hiff]
  have ht := t₀.isLt
  omega

theorem toNat_ticksOfUs (us : BitVec 64) : (ticksOfUs us).toNat = 10 * us.toNat % 2 ^ 64 := by
  have hfreq : (BitVec.ofNat 64 (timerFreq / 1000 / 1000)).toNat = 10 := by decide
  rw [ticksOfUs, BitVec.toNat_mul, hfreq, Nat.mul_comm]

/-- For every duration and every current time, `sleep_us` and `sleep_ms` sleep as long as they are asked
to, exactly when the number of ticks fits 64 bits or what is left of it saturates the wake time. -/
theorem sleep_duration_iff (t : T) (al : A) (us ms t₀ : BitVec 64) :
    (SleepsFor t al us t₀ (10 * us.toNat) ↔
      10 * us.toNat < 2 ^ 64 ∨ 2 ^ 64 - 1 ≤ t₀.toNat + 10 * us.toNat % 2 ^ 64) ∧
    (SleepsFor t al (usOfMs ms) t₀ (10000 * ms.toNat) ↔
      10000 * ms.toNat < 2 ^ 64 ∨ 2 ^ 64 - 1 ≤ t₀.toNat + 10000 * ms.toNat % 2 ^ 64) := by
  refine ⟨sleepsFor_iff t al us t₀ (toNat_ticksOfUs us), sleepsFor_iff t al (usOfMs ms) t₀ ?_⟩
  have hus : (usOfMs ms).toNat = 1000 * ms.toNat % 2 ^ 64 := by
    rw [usOfMs, BitVec.toNat_mul]
    rfl
  rw [toNat_ticksOfUs, hus]
  omega

/-- The least duration that does not fit: four ticks are left of it. -/
theorem sleep_cut_short : ¬ SleepsFor () () 1844674407370955162 0 (10 * 1844674407370955162) := by
  intro h
  have hcond := (sleepsFor_iff () () 1844674407370955162 0 (toNat_ticksOfUs _)).mp h
  exact absurd hcond (by decide)

end Sleepers

end MiniOs
