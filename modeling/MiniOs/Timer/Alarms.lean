import MiniOs.Base.Links
import Mathlib.Data.BitVec

/-!
# Alarms (`timer.c`)

An alarm is on the sleep list from the insertion in `alarm_sleep` to the timer interrupt that
finds it due.  The `next` and `twake` members of all alarms are fields of the timer, and so
are the wait lists of their conditions.  `readyList` holds the sleepers that a broadcast has
made ready and that have not run since.

The sleep list is changed with interrupts masked, so a run is a sequence of whole updates.
An interrupt can come between two of them unless the caller had interrupts masked itself, as
system calls do: `pie` is what `disable_interrupts` found.  The clock never goes back.
-/

namespace MiniOs

/-- A time in ticks, as `rdtime` gives it. -/
abbrev Ticks := BitVec 64

/-- `UINT64_MAX`. -/
def uint64Max : Ticks := BitVec.allOnes 64

/-- The sleep list with its alarms, the comparator, and the sleepers made ready. -/
structure Timer (A T : Type) where
  sleepList : Option A
  next : A → Option A
  twake : A → Ticks
  waitList : A → List T
  readyList : List T
  stcmp : Ticks

namespace Timer

variable {A T : Type} [DecidableEq A]

omit [DecidableEq A] in
/-- `timer_init`. -/
def timerInit (tm : Timer A T) : Timer A T := { tm with stcmp := uint64Max }

/-- `alarm_init`, at time `now`. -/
def alarmInit (tm : Timer A T) (al : A) (now : Ticks) : Timer A T :=
  { tm with
    waitList := Function.update tm.waitList al []
    next := Function.update tm.next al none
    twake := Function.update tm.twake al now }

/-- `alarm_reset`, at time `now`. -/
def alarmReset (tm : Timer A T) (al : A) (now : Ticks) : Timer A T :=
  { tm with twake := Function.update tm.twake al now }

/-- The wake time that `alarm_sleep` computes. -/
def wakeTime (twake tcnt : Ticks) : Ticks :=
  if uint64Max - twake < tcnt then uint64Max else twake + tcnt

/-- `alarm_sleep` up to the test whether the wake time has passed. -/
def advance (tm : Timer A T) (al : A) (tcnt : Ticks) : Timer A T :=
  { tm with twake := Function.update tm.twake al (wakeTime (tm.twake al) tcnt) }

omit [DecidableEq A] in
/-- The loop of `alarm_sleep`: the first link from `place` on that leads to no alarm or to one
with a later wake time than `w`. -/
def findPlace (tm : Timer A T) (w : Ticks) : Nat → Option A → Option (Option A)
  | 0, _ => none
  | fuel + 1, place =>
      match linkAt tm.next tm.sleepList place with
      | none => some place
      | some b => if tm.twake b ≤ w then findPlace tm w fuel (some b) else some place

/-- The insertion in `alarm_sleep`, with the comparator. -/
def insertAlarm (tm : Timer A T) (fuel : Nat) (al : A) : Option (Timer A T) :=
  (tm.findPlace (tm.twake al) fuel none).map fun place =>
    let next := Function.update tm.next al (linkAt tm.next tm.sleepList place)
    let links := setLink next tm.sleepList place (some al)
    { tm with
      next := links.1
      sleepList := links.2
      stcmp := if links.2 = some al then tm.twake al else tm.stcmp }

/-- `condition_wait(&al->cond)` in thread `t`, up to its suspension. -/
def conditionWait (tm : Timer A T) (al : A) (t : T) : Timer A T :=
  { tm with waitList := Function.update tm.waitList al (tm.waitList al ++ [t]) }

/-- `condition_broadcast(&al->cond)`. -/
def conditionBroadcast (tm : Timer A T) (al : A) : Timer A T :=
  { tm with
    waitList := Function.update tm.waitList al []
    readyList := tm.readyList ++ tm.waitList al }

/-- The loop of `handle_timer_interrupt`. -/
def drainDue (now : Ticks) : Nat → Timer A T → Option (Timer A T)
  | 0, _ => none
  | fuel + 1, tm =>
      match tm.sleepList with
      | none => some tm
      | some head =>
          if tm.twake head ≤ now then
            let tm := { tm with
              sleepList := tm.next head
              next := Function.update tm.next head none }
            drainDue now fuel (tm.conditionBroadcast head)
          else some tm

/-- `handle_timer_interrupt`, at time `now`. -/
def handleTimerInterrupt (tm : Timer A T) (fuel : Nat) (now : Ticks) : Option (Timer A T) :=
  (drainDue now fuel tm).map fun tm =>
    { tm with
      stcmp := match tm.sleepList with
        | some head => tm.twake head
        | none => uint64Max }

end Timer

/-- Where a thread is in `alarm_sleep`. -/
inductive SleepPhase (A : Type) where
  | out
  /-- The wake time had passed, and the call is about to return. -/
  | late (al : A)
  | inserting (al : A) (pie : Bool)
  /-- The alarm is on the list, and the thread not yet on the condition's. -/
  | inserted (al : A) (pie : Bool)
  /-- In `condition_wait`. -/
  | waiting (al : A)
deriving DecidableEq

namespace SleepPhase

variable {A : Type}

/-- The alarm of the call. -/
def alarm : SleepPhase A → Option A
  | .out => none
  | .late al => some al
  | .inserting al _ => some al
  | .inserted al _ => some al
  | .waiting al => some al

/-- The thread runs with interrupts masked. -/
def masked : SleepPhase A → Bool
  | .inserting _ pie => !pie
  | .inserted _ pie => !pie
  | _ => false

end SleepPhase

/-- The timer, where each thread is in `alarm_sleep`, and the last time read. -/
structure Sleepers (A T : Type) where
  tm : Timer A T
  phase : T → SleepPhase A
  clock : Ticks

/-- One update. -/
inductive SleepLabel (A T : Type) where
  | alarmInit (al : A) (now : Ticks)
  | alarmReset (al : A) (now : Ticks)
  | call (t : T) (al : A) (tcnt now : Ticks) (pie : Bool)
  | insert (t : T)
  | wait (t : T)
  | interrupt (now : Ticks)
  | ret (t : T) (now : Ticks)

namespace Sleepers

variable {A T : Type}

/-- No thread is in a call with the alarm. -/
def Free (s : Sleepers A T) (al : A) : Prop := ∀ t, (s.phase t).alarm ≠ some al

/-- The updates that can come next.  A call brings an alarm of its own. -/
def Enabled (s : Sleepers A T) : SleepLabel A T → Prop
  | .alarmInit al now => s.clock ≤ now ∧ s.Free al
  | .alarmReset al now => s.clock ≤ now ∧ s.Free al
  | .call t al _ now _ => s.clock ≤ now ∧ s.phase t = .out ∧ s.Free al
  | .insert t => ∃ al pie, s.phase t = .inserting al pie
  | .wait t => ∃ al pie, s.phase t = .inserted al pie
  | .interrupt now => s.clock ≤ now ∧ ∀ t, (s.phase t).masked = false
  | .ret t now => s.clock ≤ now ∧
      ((∃ al, s.phase t = .late al) ∨ (∃ al, s.phase t = .waiting al) ∧ t ∈ s.tm.readyList)

variable [DecidableEq A] [DecidableEq T]

/-- One update.  There is no result when a loop does not end within `fuel` rounds. -/
def step (s : Sleepers A T) (fuel : Nat) : SleepLabel A T → Option (Sleepers A T)
  | .alarmInit al now => some { s with tm := s.tm.alarmInit al now, clock := now }
  | .alarmReset al now => some { s with tm := s.tm.alarmReset al now, clock := now }
  | .call t al tcnt now pie =>
      let tm := s.tm.advance al tcnt
      let phase := if tm.twake al < now then .late al else .inserting al pie
      some ⟨tm, Function.update s.phase t phase, now⟩
  | .insert t =>
      match s.phase t with
      | .inserting al pie => (s.tm.insertAlarm fuel al).map fun tm =>
          { s with tm := tm, phase := Function.update s.phase t (.inserted al pie) }
      | _ => none
  | .wait t =>
      match s.phase t with
      | .inserted al _ => some { s with
          tm := s.tm.conditionWait al t
          phase := Function.update s.phase t (.waiting al) }
      | _ => none
  | .interrupt now => (s.tm.handleTimerInterrupt fuel now).map fun tm =>
      { s with tm := tm, clock := now }
  | .ret t now => some ⟨{ s.tm with readyList := s.tm.readyList.erase t },
      Function.update s.phase t .out, now⟩

/-- The alarms inserted and not due since, in the order of their insertion. -/
def pendingAfter (s : Sleepers A T) (pending : List A) : SleepLabel A T → List A
  | .insert t => pending ++ (s.phase t).alarm.toList
  | .interrupt now => pending.filter fun al => now < s.tm.twake al
  | _ => pending

/-- The states that runs reach from `timer_init`, with the pending alarms. -/
inductive Reach : List A → Sleepers A T → Prop where
  | init (next : A → Option A) (twake : A → Ticks) (stcmp clock : Ticks) :
      Reach [] ⟨Timer.timerInit ⟨none, next, twake, fun _ => [], [], stcmp⟩, fun _ => .out, clock⟩
  | step {pending : List A} {s s' : Sleepers A T} (fuel : Nat) (lbl : SleepLabel A T) :
      Reach pending s → s.Enabled lbl → s.step fuel lbl = some s' →
      Reach (s.pendingAfter pending lbl) s'

end Sleepers

/-! ## Sorted lists -/

section Sorted

variable {A : Type} {key : A → Ticks} {L : List A} {w : Ticks}

theorem filter_le_eq_nil (h : ∀ a ∈ L, w < key a) : L.filter (fun a => key a ≤ w) = [] :=
  List.filter_eq_nil_iff.mpr fun a ha => by simpa using h a ha

theorem filter_lt_eq_self (h : ∀ a ∈ L, w < key a) : L.filter (fun a => w < key a) = L :=
  List.filter_eq_self.mpr fun a ha => by simpa using h a ha

/-- In a sorted list the members up to a bound are those in front. -/
theorem takeWhile_sorted (h : L.Pairwise fun a b => key a ≤ key b) :
    L.takeWhile (fun a => key a ≤ w) = L.filter (fun a => key a ≤ w) ∧
      L.dropWhile (fun a => key a ≤ w) = L.filter (fun a => w < key a) := by
  induction L with
  | nil => exact ⟨rfl, rfl⟩
  | cons a L ih =>
    rw [List.pairwise_cons] at h
    by_cases ha : key a ≤ w
    · obtain ⟨ht, hd⟩ := ih h.2
      have hlt : ¬ w < key a := BitVec.not_lt.mpr ha
      simp [ha, hlt, ht, hd]
    · have hall : ∀ b ∈ a :: L, w < key b := by
        intro b hb
        have haw : w < key a := BitVec.not_le.mp ha
        cases hb with
        | head => exact haw
        | tail _ hb =>
          have hle := h.1 b hb
          bv_omega
      rw [filter_le_eq_nil hall, filter_lt_eq_self hall]
      simp [ha]

theorem takeWhile_append_filter (h : L.Pairwise fun a b => key a ≤ key b) (w : Ticks) :
    L.filter (fun a => key a ≤ w) ++ L.filter (fun a => w < key a) = L := by
  obtain ⟨htake, hdrop⟩ := takeWhile_sorted (w := w) h
  rw [← htake, ← hdrop, List.takeWhile_append_dropWhile]

/-- The list with `a` behind the members whose keys are not greater. -/
def insertSorted (key : A → Ticks) (a : A) (L : List A) : List A :=
  L.filter (fun b => key b ≤ key a) ++ a :: L.filter (fun b => key a < key b)

section

variable (h : L.Pairwise fun a b => key a ≤ key b)

include h

theorem insertSorted_perm (a : A) :
    (insertSorted key a L).Perm (a :: L) := by
  refine List.perm_middle.trans (List.Perm.cons a ?_)
  rw [takeWhile_append_filter h]

theorem insertSorted_sorted (a : A) :
    (insertSorted key a L).Pairwise fun a b => key a ≤ key b := by
  have hsorted := h
  rw [← takeWhile_append_filter h (key a), List.pairwise_append] at hsorted
  have hgt : ∀ b ∈ L.filter (fun b => key a < key b), key a ≤ key b := by
    intro b hb
    have : key a < key b := by simpa using (List.mem_filter.mp hb).2
    exact BitVec.le_of_lt this
  rw [insertSorted, List.pairwise_append, List.pairwise_cons]
  refine ⟨hsorted.1, ⟨hgt, hsorted.2.1⟩, ?_⟩
  intro b hb c hc
  cases hc with
  | head => simpa using (List.mem_filter.mp hb).2
  | tail _ hc => exact hsorted.2.2 b hb c hc

/-- Among equal keys the new member comes last. -/
theorem insertSorted_filter (a : A) (w : Ticks) :
    (insertSorted key a L).filter (fun b => key b = w) = (L ++ [a]).filter (fun b => key b = w) := by
  have hsplit : (L.filter (fun b => key b ≤ key a)).filter (fun b => key b = w) ++
      (L.filter (fun b => key a < key b)).filter (fun b => key b = w) =
      L.filter (fun b => key b = w) := by
    rw [← List.filter_append, takeWhile_append_filter h]
  rw [insertSorted, List.filter_append, List.filter_append, ← hsplit, List.filter_cons]
  by_cases hw : key a = w
  · have hnone : (L.filter (fun b => key a < key b)).filter (fun b => key b = w) = [] := by
      rw [List.filter_eq_nil_iff]
      intro b hb
      have hlt : key a < key b := by simpa using (List.mem_filter.mp hb).2
      have hne : key b ≠ w := by bv_omega
      simpa using hne
    rw [hnone]
    simp [hw]
  · simp [hw]

/-- The new member is the first, or the first one stays. -/
theorem insertSorted_head {a : A} (ha : a ∉ L) :
    (insertSorted key a L).head? = some a ∨
      (insertSorted key a L).head? = L.head? ∧ L.head? ≠ some a := by
  cases hle : L.filter (fun b => decide (key b ≤ key a)) with
  | nil =>
    left
    rw [insertSorted, hle]
    rfl
  | cons b rest =>
    right
    have hL := takeWhile_append_filter h (key a)
    rw [hle] at hL
    refine ⟨?_, ?_⟩
    · rw [insertSorted, hle, ← hL]
      rfl
    · rw [← hL]
      rintro hba
      have : b = a := by simpa using hba
      exact ha (hL ▸ this ▸ List.mem_cons_self ..)

end

end Sorted

/-! ## The operations on the sleep list -/

namespace Timer

variable {A T : Type} {tm : Timer A T} {L pre rest : List A} {w : Ticks}

/-- The sleep list holds the alarms `L`, each once, in the order of their wake times. -/
structure Queue (tm : Timer A T) (L : List A) : Prop where
  chain : Chain tm.next tm.sleepList L
  nodup : L.Nodup
  sorted : L.Pairwise fun a b => tm.twake a ≤ tm.twake b

theorem findPlace_eq (h : Chain tm.next tm.sleepList (pre ++ rest)) {fuel : Nat}
    (hf : rest.length < fuel) :
    tm.findPlace w fuel pre.getLast? =
      some (pre ++ rest.takeWhile (fun a => tm.twake a ≤ w)).getLast? := by
  induction rest generalizing pre fuel with
  | nil =>
    obtain ⟨fuel, rfl⟩ := Nat.exists_eq_succ_of_ne_zero (Nat.ne_zero_of_lt hf)
    rw [findPlace, h.linkAt_eq]
    simp
  | cons b rest ih =>
    obtain ⟨fuel, rfl⟩ := Nat.exists_eq_succ_of_ne_zero (Nat.ne_zero_of_lt hf)
    have h' : Chain tm.next tm.sleepList ((pre ++ [b]) ++ rest) := by
      rw [List.append_assoc]
      exact h
    have hnext := ih h' (Nat.lt_of_succ_lt_succ hf)
    rw [findPlace, h.linkAt_eq]
    by_cases hb : tm.twake b ≤ w
    · simp only [List.head?_cons, List.takeWhile_cons, hb, decide_true, if_true]
      rw [List.getLast?_concat, List.append_assoc] at hnext
      exact hnext
    · simp [hb]

variable [DecidableEq A] {al : A} {now : Ticks}

/-- The alarm goes behind the alarms that wake no later, and the comparator is set when it is
the first. -/
theorem Queue.insertAlarm (h : Queue tm L) (ha : al ∉ L) {fuel : Nat} (hf : L.length < fuel) :
    ∃ tm', tm.insertAlarm fuel al = some tm' ∧ Queue tm' (insertSorted tm.twake al L) ∧
      tm'.twake = tm.twake ∧ tm'.waitList = tm.waitList ∧ tm'.readyList = tm.readyList ∧
      tm'.stcmp = if (insertSorted tm.twake al L).head? = some al then tm.twake al
        else tm.stcmp := by
  have hsplit := takeWhile_append_filter h.sorted (tm.twake al)
  have hplace : tm.findPlace (tm.twake al) fuel none =
      some (L.filter (fun a => tm.twake a ≤ tm.twake al)).getLast? := by
    have h0 : Chain tm.next tm.sleepList ([] ++ L) := h.chain
    rw [← (takeWhile_sorted h.sorted).1]
    exact findPlace_eq h0 hf
  have hch := h.chain
  have hnd := h.nodup
  have hal := ha
  rw [← hsplit] at hch hnd hal
  have hins := hch.insertAt hnd hal
  have hnodup : (insertSorted tm.twake al L).Nodup := by
    rw [(insertSorted_perm h.sorted al).nodup_iff, List.nodup_cons]
    exact ⟨ha, h.nodup⟩
  simp only [Timer.insertAlarm, hplace, Option.map_some]
  rw [hch.linkAt_eq]
  refine ⟨_, rfl, ⟨hins, hnodup, insertSorted_sorted h.sorted al⟩, rfl, rfl, rfl, ?_⟩
  show (if _ = some al then _ else _) = _
  rw [hins.head_eq]
  rfl

/-- What the loop of `handle_timer_interrupt` leaves when it takes off the alarms `due`. -/
def expired (tm : Timer A T) (due rest : List A) : Timer A T :=
  { tm with
    sleepList := rest.head?
    next := fun a => if a ∈ due then none else tm.next a
    waitList := fun a => if a ∈ due then [] else tm.waitList a
    readyList := tm.readyList ++ due.flatMap tm.waitList }

theorem Queue.drainDue (h : Queue tm L) {fuel : Nat} (hf : L.length < fuel) :
    Timer.drainDue now fuel tm = some (tm.expired (L.filter (fun a => tm.twake a ≤ now))
      (L.filter (fun a => now < tm.twake a))) := by
  induction L generalizing tm fuel with
  | nil =>
    obtain ⟨fuel, rfl⟩ := Nat.exists_eq_succ_of_ne_zero (Nat.ne_zero_of_lt hf)
    have hs : tm.sleepList = none := h.chain
    rw [Timer.drainDue, hs]
    cases tm
    simp_all [expired]
  | cons a L ih =>
    obtain ⟨fuel, rfl⟩ := Nat.exists_eq_succ_of_ne_zero (Nat.ne_zero_of_lt hf)
    obtain ⟨⟨hs, hc⟩, hnd, hsorted⟩ := h
    rw [List.nodup_cons] at hnd
    rw [List.pairwise_cons] at hsorted
    rw [Timer.drainDue, hs]
    by_cases ha : tm.twake a ≤ now
    · simp only [if_pos ha]
      have hq : Queue (({ tm with
          sleepList := tm.next a
          next := Function.update tm.next a none } : Timer A T).conditionBroadcast a) L := by
        refine ⟨hc.congr fun b hb => Function.update_of_ne ?_ _ _, hnd.2, hsorted.2⟩
        rintro rfl
        exact hnd.1 hb
      have hnext : Timer.drainDue now fuel _ = some (Timer.expired _
          (L.filter fun b => tm.twake b ≤ now) (L.filter fun b => now < tm.twake b)) :=
        ih hq (Nat.lt_of_succ_lt_succ hf)
      rw [hnext]
      have hflat : (L.filter fun b => decide (tm.twake b ≤ now)).flatMap
          (Function.update tm.waitList a []) =
          (L.filter fun b => decide (tm.twake b ≤ now)).flatMap tm.waitList := by
        refine List.flatMap_congr fun b hb => ?_
        apply Function.update_of_ne
        rintro rfl
        exact hnd.1 (List.mem_filter.mp hb).1
      have hlt : ¬ now < tm.twake a := BitVec.not_lt.mpr ha
      simp only [expired, conditionBroadcast, List.filter_cons, ha, hlt, decide_true, if_true,
        decide_false, Bool.false_eq_true, if_false, List.mem_cons, List.flatMap_cons,
        List.append_assoc]
      congr 2
      · funext b
        by_cases hb : b = a <;> simp [hb]
      · funext b
        by_cases hb : b = a <;> simp [hb]
      · rw [hflat]
    · have hall : ∀ b ∈ a :: L, now < tm.twake b := by
        intro b hb
        have han : now < tm.twake a := BitVec.not_le.mp ha
        cases hb with
        | head => exact han
        | tail _ hb =>
          have hle := hsorted.1 b hb
          bv_omega
      rw [filter_le_eq_nil hall, filter_lt_eq_self hall]
      simp only [if_neg ha]
      cases tm
      simp_all [expired]

end Timer

end MiniOs
