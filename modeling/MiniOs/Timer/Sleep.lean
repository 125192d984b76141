import MiniOs.Timer.Alarms

/-!
# Runs of the alarm queue

`Inv` relates the sleep list, the pending alarms and the threads in `alarm_sleep`.  The sleep
list is the pending alarms sorted by wake time, and sorting keeps the order of insertion among
alarms that wake at the same time.  Every alarm on the list belongs to one thread, which is on
the wait list of the alarm's condition or still on its way there.
-/

namespace MiniOs

open Function (update_of_ne update_self)

/-- The timer after an interrupt: the due alarms are taken off, their sleepers are made ready,
and the comparator is that of the first alarm left. -/
def Timer.afterInterrupt {A T : Type} [DecidableEq A] (tm : Timer A T) (L : List A) (now : Ticks) : Timer A T :=
  { tm.expired (L.filter fun a => tm.twake a ≤ now) (L.filter fun a => now < tm.twake a) with
    stcmp := ((L.filter fun a => now < tm.twake a).head?.map tm.twake).getD uint64Max }

namespace Sleepers

variable {A T : Type} {s : Sleepers A T} {pending L : List A} {al : A} {t : T} {now : Ticks}

/-- What holds between updates. -/
structure Inv (s : Sleepers A T) (pending L : List A) : Prop where
  queue : s.tm.Queue L
  perm : L.Perm pending
  /-- Among alarms that wake at the same time the order is that of insertion. -/
  stable : ∀ w, L.filter (fun a => s.tm.twake a = w) = pending.filter (fun a => s.tm.twake a = w)
  stcmp : s.tm.stcmp = (L.head?.map s.tm.twake).getD uint64Max
  own : ∀ t t' al, (s.phase t).alarm = some al → (s.phase t').alarm = some al → t = t'
  queued : ∀ al ∈ L, ∃ t, (∃ pie, s.phase t = .inserted al pie) ∨
    s.phase t = .waiting al ∧ s.tm.waitList al = [t]
  fresh : ∀ t al pie, s.phase t = .inserting al pie → al ∉ L
  waits : ∀ al t, t ∈ s.tm.waitList al → s.phase t = .waiting al
  waiting : ∀ t al, s.phase t = .waiting al →
    s.tm.waitList al = [t] ∧ t ∉ s.tm.readyList ∨ s.tm.waitList al = [] ∧ t ∈ s.tm.readyList
  ready : ∀ t ∈ s.tm.readyList, ∃ al, s.phase t = .waiting al ∧ s.tm.twake al ≤ s.clock
  ready_nodup : s.tm.readyList.Nodup
  late : ∀ t al, s.phase t = .late al → s.tm.twake al ≤ s.clock

namespace Inv

/-- An alarm no thread is in a call with is not on the list, and nobody waits for it. -/
theorem not_mem_of_free (h : Inv s pending L) (hfree : s.Free al) : al ∉ L := by
  intro hmem
  obtain ⟨t, ⟨pie, hp⟩ | ⟨hp, -⟩⟩ := h.queued al hmem
  · exact hfree t (by rw [hp]; rfl)
  · exact hfree t (by rw [hp]; rfl)

theorem waitList_eq_nil (h : Inv s pending L) (hal : ∀ t, s.phase t ≠ .waiting al) :
    s.tm.waitList al = [] := by
  rw [List.eq_nil_iff_forall_not_mem]
  intro t ht
  exact hal t (h.waits al t ht)

/-- At most one thread waits on the condition of an alarm. -/
theorem waitList_eq_singleton (h : Inv s pending L) (ht : t ∈ s.tm.waitList al) :
    s.tm.waitList al = [t] := by
  rcases h.waiting t al (h.waits al t ht) with ⟨hw, -⟩ | ⟨hw, -⟩
  · exact hw
  · rw [hw] at ht
    cases ht

/-- The sleepers of different alarms are different, and none of them was ready before. -/
theorem ready_append_nodup (h : Inv s pending L) {due : List A} (hdue : due.Nodup) :
    (s.tm.readyList ++ due.flatMap s.tm.waitList).Nodup := by
  rw [List.nodup_append]
  refine ⟨h.ready_nodup, ?_, ?_⟩
  · rw [List.nodup_flatMap]
    constructor
    · intro b _
      cases hw : s.tm.waitList b with
      | nil => exact List.nodup_nil
      | cons u us =>
        have hu : u ∈ s.tm.waitList b := by
          rw [hw]
          exact List.mem_cons_self ..
        rw [← hw, h.waitList_eq_singleton hu]
        exact List.nodup_singleton u
    · refine hdue.imp fun {b c} hbc u hb hc => hbc ?_
      have heq := (h.waits b u hb).symm.trans (h.waits c u hc)
      cases heq
      rfl
  · rintro u hu v hv rfl
    obtain ⟨b, -, hb⟩ := List.mem_flatMap.mp hv
    rcases h.waiting u b (h.waits b u hb) with ⟨-, hnot⟩ | ⟨hw, -⟩
    · exact hnot hu
    · rw [hw] at hb
      cases hb

variable {p : SleepPhase A}

/-- The same alarm. -/
theorem own_same (h : Inv s pending L) (hp : p.alarm = (s.phase t).alarm) :
    ∀ u b, u ≠ t → (s.phase u).alarm = some b → p.alarm ≠ some b :=
  fun u b hut hu hb => hut (h.own u t b hu (hp ▸ hb))

section

variable [DecidableEq T]

/-- Where the other threads are when thread `t` goes on at `p`. -/
theorem phase_cases {q : SleepPhase A} {u : T} (hq : Function.update s.phase t p u = q) :
    u = t ∧ q = p ∨ u ≠ t ∧ s.phase u = q := by
  by_cases hut : u = t
  · subst hut
    rw [update_self] at hq
    exact .inl ⟨rfl, hq.symm⟩
  · rw [update_of_ne hut] at hq
    exact .inr ⟨hut, hq⟩

theorem phase_other {q : SleepPhase A} {u : T} (hu : s.phase u = q) (hne : s.phase t ≠ q) :
    Function.update s.phase t p u = q := by
  rw [update_of_ne]
  · exact hu
  · rintro rfl
    exact hne hu

/-- A thread that goes on with an alarm no other thread has keeps alarms and threads apart. -/
theorem own_update (h : Inv s pending L)
    (hp : ∀ u b, u ≠ t → (s.phase u).alarm = some b → p.alarm ≠ some b) :
    ∀ t1 t2 b, (Function.update s.phase t p t1).alarm = some b →
      (Function.update s.phase t p t2).alarm = some b → t1 = t2 := by
  intro t1 t2 b h1 h2
  rcases phase_cases (rfl : Function.update s.phase t p t1 = _) with ⟨rfl, hq1⟩ | ⟨hne1, hq1⟩
  · rcases phase_cases (rfl : Function.update s.phase t1 p t2 = _) with ⟨rfl, -⟩ | ⟨hne2, hq2⟩
    · rfl
    · rw [hq1] at h1
      rw [← hq2] at h2
      exact absurd h1 (hp t2 b hne2 h2)
  · rw [← hq1] at h1
    rcases phase_cases (rfl : Function.update s.phase t p t2 = _) with ⟨rfl, hq2⟩ | ⟨-, hq2⟩
    · rw [hq2] at h2
      exact absurd h2 (hp t1 b hne1 h1)
    · rw [← hq2] at h2
      exact h.own t1 t2 b h1 h2

/-- A thread enters a call with an alarm of its own. -/
theorem enter (h : Inv s pending L) (hout : s.phase t = .out) (hfree : s.Free al)
    (hp : p = .late al ∧ s.tm.twake al ≤ s.clock ∨ ∃ pie, p = .inserting al pie) :
    Inv { s with phase := Function.update s.phase t p } pending L := by
  have hpal : p.alarm = some al := by
    rcases hp with ⟨rfl, -⟩ | ⟨pie, rfl⟩ <;> rfl
  refine ⟨h.queue, h.perm, h.stable, h.stcmp, h.own_update fun u b _ hu hb => hfree u ?_, ?_, ?_, ?_,
    ?_, ?_, h.ready_nodup, ?_⟩
  · rw [hu, ← hb, hpal]
  · intro b hb
    obtain ⟨t', ⟨pie, hq⟩ | ⟨hq, hw⟩⟩ := h.queued b hb
    · exact ⟨t', .inl ⟨pie, phase_other hq (by simp [hout])⟩⟩
    · exact ⟨t', .inr ⟨phase_other hq (by simp [hout]), hw⟩⟩
  · intro t' b pie hq
    rcases phase_cases hq with ⟨-, hpq⟩ | ⟨-, hq'⟩
    · have hb : b = al := by
        rw [← hpq] at hpal
        exact Option.some.inj hpal
      rw [hb]
      exact h.not_mem_of_free hfree
    · exact h.fresh t' b pie hq'
  · intro b t' ht'
    exact phase_other (h.waits b t' ht') (by simp [hout])
  · intro t' b hq
    rcases phase_cases hq with ⟨-, hpq⟩ | ⟨-, hq'⟩
    · rcases hp with ⟨rfl, -⟩ | ⟨pie, rfl⟩ <;> cases hpq
    · exact h.waiting t' b hq'
  · intro t' ht'
    obtain ⟨b, hb, hle⟩ := h.ready t' ht'
    exact ⟨b, phase_other hb (by simp [hout]), hle⟩
  · intro t' b hq
    rcases phase_cases hq with ⟨-, hpq⟩ | ⟨-, hq'⟩
    · rcases hp with ⟨rfl, hle⟩ | ⟨pie, rfl⟩
      · cases hpq
        exact hle
      · cases hpq
    · exact h.late t' b hq'

/-- The call returns: the wake time had passed, or the thread was made ready. -/
theorem ret (h : Inv s pending L) (hnow : s.clock ≤ now)
    (hp : (∃ al, s.phase t = .late al) ∨ (∃ al, s.phase t = .waiting al) ∧ t ∈ s.tm.readyList) :
    Inv ⟨{ s.tm with readyList := s.tm.readyList.erase t }, Function.update s.phase t .out, now⟩
      pending L := by
  have hgone : ∀ b, s.phase t = .waiting b → s.tm.waitList b = [] := by
    intro b hb
    rcases h.waiting t b hb with ⟨-, hnot⟩ | ⟨hnil, -⟩
    · rcases hp with ⟨al, hl⟩ | ⟨-, hr⟩
      · rw [hl] at hb
        cases hb
      · exact absurd hr hnot
    · exact hnil
  have hins : ∀ b pie, s.phase t ≠ .inserted b pie := by
    intro b pie hb
    rcases hp with ⟨al, hl⟩ | ⟨⟨al, hl⟩, -⟩ <;> rw [hl] at hb <;> cases hb
  have herase : ∀ u, u ∈ s.tm.readyList.erase t ↔ u ≠ t ∧ u ∈ s.tm.readyList :=
    fun u => h.ready_nodup.mem_erase_iff
  refine ⟨⟨h.queue.chain, h.queue.nodup, h.queue.sorted⟩, h.perm, h.stable, h.stcmp,
    h.own_update nofun, ?_, ?_, ?_, ?_, ?_, h.ready_nodup.erase t, ?_⟩
  · intro b hb
    obtain ⟨u, hu⟩ := h.queued b hb
    have hut : u ≠ t := by
      rintro rfl
      rcases hu with ⟨pie, hu⟩ | ⟨hu, hw⟩
      · exact hins b pie hu
      · rw [hgone b hu] at hw
        cases hw
    refine ⟨u, ?_⟩
    show (∃ pie, Function.update s.phase t _ u = _) ∨ Function.update s.phase t _ u = _ ∧ _
    rw [update_of_ne hut]
    exact hu
  · intro u b pie hu
    rcases phase_cases hu with ⟨-, hq⟩ | ⟨-, hu⟩
    · cases hq
    · exact h.fresh u b pie hu
  · intro b u hu
    have hw := h.waits b u hu
    show Function.update s.phase t _ u = _
    rw [update_of_ne]
    · exact hw
    · rintro rfl
      rw [hgone b hw] at hu
      cases hu
  · intro u b hu
    rcases phase_cases hu with ⟨-, hq⟩ | ⟨hut, hu⟩
    · cases hq
    · rw [herase]
      rcases h.waiting u b hu with ⟨hw, hnot⟩ | ⟨hw, hmem⟩
      · exact .inl ⟨hw, fun hr => hnot hr.2⟩
      · exact .inr ⟨hw, hut, hmem⟩
  · intro u hu
    obtain ⟨hut, hmem⟩ := (herase u).mp hu
    obtain ⟨b, hb, hle⟩ := h.ready u hmem
    exact ⟨b, (update_of_ne hut _ _).trans hb, BitVec.le_trans hle hnow⟩
  · intro u b hu
    rcases phase_cases hu with ⟨-, hq⟩ | ⟨-, hu⟩
    · cases hq
    · exact BitVec.le_trans (h.late u b hu) hnow

end

variable [DecidableEq A]

theorem interrupt_eq (h : Inv s pending L) {fuel : Nat} (hf : L.length < fuel) :
    s.tm.handleTimerInterrupt fuel now = some (s.tm.afterInterrupt L now) := by
  rw [Timer.handleTimerInterrupt, h.queue.drainDue hf]
  simp only [Option.map_some, Timer.afterInterrupt, Timer.expired]
  cases (L.filter fun a => decide (now < s.tm.twake a)).head? <;> rfl

/-- The wake time of an alarm that is in no call is changed. -/
theorem retime (h : Inv s pending L) (hfree : s.Free al) (hnow : s.clock ≤ now) (w : Ticks)
    {next : A → Option A} (hnext : ∀ b, b ≠ al → next b = s.tm.next b) :
    Inv ⟨{ s.tm with next := next, twake := Function.update s.tm.twake al w }, s.phase, now⟩
      pending L := by
  have hal := h.not_mem_of_free hfree
  have hne : ∀ b ∈ L, b ≠ al := by
    rintro b hb rfl
    exact hal hb
  have hkeep : ∀ b, b ≠ al → Function.update s.tm.twake al w b = s.tm.twake b :=
    fun b hb => update_of_ne hb _ _
  have hcall : ∀ t b, (s.phase t).alarm = some b → b ≠ al := by
    rintro t b hb rfl
    exact hfree t hb
  have hmem : ∀ b ∈ pending, b ≠ al := fun b hb => hne b (h.perm.mem_iff.mpr hb)
  refine ⟨⟨h.queue.chain.congr fun b hb => hnext b (hne b hb), h.queue.nodup, ?_⟩, h.perm, ?_, ?_,
    h.own, h.queued, h.fresh, h.waits, h.waiting, ?_, h.ready_nodup, ?_⟩
  · refine h.queue.sorted.imp_of_mem fun {a b} ha hb hab => ?_
    show Function.update s.tm.twake al w a ≤ Function.update s.tm.twake al w b
    rw [hkeep a (hne a ha), hkeep b (hne b hb)]
    exact hab
  · intro w'
    have hL : L.filter (fun a => Function.update s.tm.twake al w a = w') =
        L.filter (fun a => s.tm.twake a = w') :=
      List.filter_congr fun a ha => by rw [hkeep a (hne a ha)]
    have hP : pending.filter (fun a => Function.update s.tm.twake al w a = w') =
        pending.filter (fun a => s.tm.twake a = w') :=
      List.filter_congr fun a ha => by rw [hkeep a (hmem a ha)]
    rw [hL, h.stable w']
    exact hP.symm
  · show s.tm.stcmp = _
    rw [h.stcmp]
    cases hhead : L.head? with
    | none => rfl
    | some b =>
      have hb : b ≠ al := hne b (List.mem_of_mem_head? hhead)
      simp [hkeep b hb]
  · intro t ht
    obtain ⟨b, hb, hle⟩ := h.ready t ht
    refine ⟨b, hb, ?_⟩
    show Function.update s.tm.twake al w b ≤ now
    rw [hkeep b (hcall t b (by rw [hb]; rfl))]
    exact BitVec.le_trans hle hnow
  · intro t b hb
    show Function.update s.tm.twake al w b ≤ now
    rw [hkeep b (hcall t b (by rw [hb]; rfl))]
    exact BitVec.le_trans (h.late t b hb) hnow

variable [DecidableEq T] {pie : Bool}

/-- The insertion. -/
theorem insert (h : Inv s pending L) (hp : s.phase t = .inserting al pie) {fuel : Nat}
    (hf : L.length < fuel) :
    ∃ s', s.step fuel (.insert t) = some s' ∧
      Inv s' (pending ++ [al]) (insertSorted s.tm.twake al L) := by
  have hal := h.fresh t al pie hp
  have hsorted := h.queue.sorted
  obtain ⟨tm', heq, hq, htw, hwl, hrl, hcmp⟩ := h.queue.insertAlarm hal hf
  refine ⟨{ s with tm := tm', phase := Function.update s.phase t (.inserted al pie) }, ?_, ?_⟩
  · simp only [step, hp, heq, Option.map_some]
  have hperm := insertSorted_perm hsorted al
  have hpal : (s.phase t).alarm = some al := by
    rw [hp]
    rfl
  refine ⟨hq, ?_, ?_, ?_, h.own_update (h.own_same (by rw [hpal]; rfl)), ?_, ?_, ?_, ?_, ?_, ?_, ?_⟩
  · refine hperm.trans ?_
    exact (List.Perm.cons al h.perm).trans (List.perm_append_singleton al pending).symm
  · intro w
    rw [htw, insertSorted_filter hsorted, List.filter_append, List.filter_append, h.stable w]
  · show tm'.stcmp = _
    rw [hcmp, htw]
    rcases insertSorted_head hsorted hal with hhead | ⟨hhead, hne⟩
    · simp [hhead]
    · rw [hhead, if_neg hne]
      exact h.stcmp
  · intro b hb
    rw [hperm.mem_iff, List.mem_cons] at hb
    rcases hb with rfl | hb
    · exact ⟨t, .inl ⟨pie, update_self ..⟩⟩
    · obtain ⟨u, ⟨pie', hu⟩ | ⟨hu, hw⟩⟩ := h.queued b hb
      · exact ⟨u, .inl ⟨pie', phase_other hu (by simp [hp])⟩⟩
      · refine ⟨u, .inr ⟨phase_other hu (by simp [hp]), ?_⟩⟩
        rw [hwl]
        exact hw
  · intro u b pie' hu
    rcases phase_cases hu with ⟨-, hq⟩ | ⟨hut, hu'⟩
    · cases hq
    · rw [hperm.mem_iff, List.mem_cons, not_or]
      refine ⟨?_, h.fresh u b pie' hu'⟩
      rintro rfl
      exact hut (h.own u t b (by rw [hu']; rfl) hpal)
  · intro b u hu
    rw [hwl] at hu
    exact phase_other (h.waits b u hu) (by simp [hp])
  · intro u b hu
    rcases phase_cases hu with ⟨-, hq⟩ | ⟨-, hu⟩
    · cases hq
    · rw [hwl, hrl]
      exact h.waiting u b hu
  · intro u hu
    rw [hrl] at hu
    obtain ⟨b, hb, hle⟩ := h.ready u hu
    refine ⟨b, phase_other hb (by simp [hp]), ?_⟩
    rw [htw]
    exact hle
  · rw [hrl]
    exact h.ready_nodup
  · intro u b hu
    rcases phase_cases hu with ⟨-, hq⟩ | ⟨-, hu⟩
    · cases hq
    · rw [htw]
      exact h.late u b hu

/-- `condition_wait`. -/
theorem wait (h : Inv s pending L) (hp : s.phase t = .inserted al pie) :
    Inv { s with
      tm := s.tm.conditionWait al t
      phase := Function.update s.phase t (.waiting al) } pending L := by
  have hpal : (s.phase t).alarm = some al := by
    rw [hp]
    rfl
  have hnil : s.tm.waitList al = [] := by
    refine h.waitList_eq_nil fun u hu => ?_
    have hut := h.own u t al (by rw [hu]; rfl) hpal
    rw [hut, hp] at hu
    cases hu
  have hmine : (s.tm.conditionWait al t).waitList al = [t] := by
    show Function.update s.tm.waitList al _ al = _
    rw [update_self, hnil]
    rfl
  have hkeep : ∀ b, b ≠ al → (s.tm.conditionWait al t).waitList b = s.tm.waitList b :=
    fun b hb => update_of_ne hb _ _
  have halarm : ∀ u b, u ≠ t → s.phase u = .waiting b → b ≠ al := by
    rintro u b hut hu rfl
    exact hut (h.own u t b (by rw [hu]; rfl) hpal)
  have hnot : t ∉ s.tm.readyList := by
    intro hmem
    obtain ⟨b, hb, -⟩ := h.ready t hmem
    rw [hp] at hb
    cases hb
  refine ⟨⟨h.queue.chain, h.queue.nodup, h.queue.sorted⟩, h.perm, h.stable, h.stcmp,
    h.own_update (h.own_same (by rw [hpal]; rfl)), ?_, ?_, ?_, ?_, ?_, h.ready_nodup, ?_⟩
  · intro b hb
    by_cases hba : b = al
    · subst hba
      exact ⟨t, .inr ⟨update_self .., hmine⟩⟩
    · obtain ⟨u, ⟨pie', hu⟩ | ⟨hu, hw⟩⟩ := h.queued b hb
      · exact ⟨u, .inl ⟨pie', phase_other hu (by simp [hp, Ne.symm hba])⟩⟩
      · exact ⟨u, .inr ⟨phase_other hu (by simp [hp]), (hkeep b hba).trans hw⟩⟩
  · intro u b pie' hu
    rcases phase_cases hu with ⟨-, hq⟩ | ⟨-, hu⟩
    · cases hq
    · exact h.fresh u b pie' hu
  · intro b u hu
    by_cases hba : b = al
    · subst hba
      rw [hmine, List.mem_singleton] at hu
      subst hu
      exact update_self ..
    · rw [hkeep b hba] at hu
      exact phase_other (h.waits b u hu) (by simp [hp])
  · intro u b hu
    rcases phase_cases hu with ⟨rfl, hq⟩ | ⟨hut, hu⟩
    · cases hq
      exact .inl ⟨hmine, hnot⟩
    · rw [hkeep b (halarm u b hut hu)]
      exact h.waiting u b hu
  · intro u hu
    obtain ⟨b, hb, hle⟩ := h.ready u hu
    exact ⟨b, phase_other hb (by simp [hp]), hle⟩
  · intro u b hu
    rcases phase_cases hu with ⟨-, hq⟩ | ⟨-, hu⟩
    · cases hq
    · exact h.late u b hu

omit [DecidableEq T] in
/-- The timer interrupt. -/
theorem interrupt (h : Inv s pending L) (hnow : s.clock ≤ now) :
    Inv { s with tm := s.tm.afterInterrupt L now, clock := now }
      (pending.filter fun a => now < s.tm.twake a) (L.filter fun a => now < s.tm.twake a) := by
  have hdue : ∀ b, b ∈ L.filter (fun a => s.tm.twake a ≤ now) ↔ b ∈ L ∧ s.tm.twake b ≤ now := by
    intro b
    rw [List.mem_filter, decide_eq_true_eq]
  have hrest : ∀ b, b ∈ L.filter (fun a => now < s.tm.twake a) ↔ b ∈ L ∧ now < s.tm.twake b := by
    intro b
    rw [List.mem_filter, decide_eq_true_eq]
  have hleft : ∀ b, b ∈ L.filter (fun a => now < s.tm.twake a) →
      b ∉ L.filter (fun a => s.tm.twake a ≤ now) := by
    intro b hb hb'
    have hlt := ((hrest b).mp hb).2
    have hle := ((hdue b).mp hb').2
    bv_omega
  have hwl : ∀ b, (s.tm.afterInterrupt L now).waitList b =
      if b ∈ L.filter (fun a => s.tm.twake a ≤ now) then [] else s.tm.waitList b := fun _ => rfl
  refine ⟨⟨?_, h.queue.nodup.filter _, h.queue.sorted.filter _⟩, h.perm.filter _, ?_, rfl, h.own, ?_,
    ?_, ?_, ?_, ?_, h.ready_append_nodup (h.queue.nodup.filter _), ?_⟩
  · have hc := h.queue.chain
    rw [← takeWhile_append_filter h.queue.sorted now] at hc
    refine hc.drop.congr fun b hb => ?_
    exact if_neg (hleft b hb)
  · intro w
    show (L.filter _).filter (fun a => s.tm.twake a = w) =
      (pending.filter _).filter (fun a => s.tm.twake a = w)
    rw [List.filter_comm, h.stable w, List.filter_comm]
  · intro b hb
    obtain ⟨u, hu⟩ := h.queued b ((hrest b).mp hb).1
    refine ⟨u, ?_⟩
    rw [hwl, if_neg (hleft b hb)]
    exact hu
  · intro u b pie hu hb
    exact h.fresh u b pie hu ((hrest b).mp hb).1
  · intro b u hu
    rw [hwl] at hu
    split at hu
    · cases hu
    · exact h.waits b u hu
  · intro u b hu
    show _ ∧ u ∉ s.tm.readyList ++ _ ∨ _ ∧ u ∈ s.tm.readyList ++ _
    rw [hwl, List.mem_append, List.mem_flatMap]
    have hold := h.waiting u b hu
    by_cases hb : b ∈ L.filter (fun a => s.tm.twake a ≤ now)
    · rw [if_pos hb]
      refine .inr ⟨rfl, ?_⟩
      rcases hold with ⟨hw, -⟩ | ⟨-, hr⟩
      · exact .inr ⟨b, hb, by rw [hw]; exact List.mem_singleton_self u⟩
      · exact .inl hr
    · rw [if_neg hb]
      rcases hold with ⟨hw, hnot⟩ | ⟨hw, hr⟩
      · refine .inl ⟨hw, ?_⟩
        rintro (hr | ⟨c, hc, huc⟩)
        · exact hnot hr
        · have heq := hu.symm.trans (h.waits c u huc)
          cases heq
          exact hb hc
      · exact .inr ⟨hw, .inl hr⟩
  · intro u hu
    rcases List.mem_append.mp hu with hr | hw
    · obtain ⟨b, hb, hle⟩ := h.ready u hr
      exact ⟨b, hb, BitVec.le_trans hle hnow⟩
    · obtain ⟨b, hb, hub⟩ := List.mem_flatMap.mp hw
      exact ⟨b, h.waits b u hub, ((hdue b).mp hb).2⟩
  · intro u b hu
    exact BitVec.le_trans (h.late u b hu) hnow

end Inv

/-! ## Runs -/

section Fuel

variable {tm tm' : Timer A T} {fuel : Nat}

theorem findPlace_mono {w : Ticks} {p r : Option A} (n : Nat) (h : tm.findPlace w fuel p = some r) :
    tm.findPlace w (fuel + n) p = some r := by
  induction fuel generalizing p with
  | zero => cases h
  | succ fuel ih =>
    rw [Nat.add_right_comm]
    rw [Timer.findPlace] at h ⊢
    cases hl : linkAt tm.next tm.sleepList p with
    | none =>
      rw [hl] at h
      exact h
    | some b =>
      simp only [hl] at h ⊢
      split at h
      case isTrue hb =>
        rw [if_pos hb]
        exact ih h
      case isFalse hb =>
        rw [if_neg hb]
        exact h

variable [DecidableEq A]

theorem drainDue_mono (n : Nat) (h : Timer.drainDue now fuel tm = some tm') :
    Timer.drainDue now (fuel + n) tm = some tm' := by
  induction fuel generalizing tm with
  | zero => cases h
  | succ fuel ih =>
    rw [Nat.add_right_comm]
    rw [Timer.drainDue] at h ⊢
    cases hl : tm.sleepList with
    | none =>
      rw [hl] at h
      exact h
    | some b =>
      simp only [hl] at h ⊢
      split at h
      case isTrue hb =>
        rw [if_pos hb]
        exact ih h
      case isFalse hb =>
        rw [if_neg hb]
        exact h

end Fuel

variable [DecidableEq A] [DecidableEq T] {s' : Sleepers A T} {fuel : Nat} {lbl : SleepLabel A T}

/-- More fuel gives the same result. -/
theorem step_mono (n : Nat) (h : s.step fuel lbl = some s') : s.step (fuel + n) lbl = some s' := by
  cases lbl with
  | insert t =>
    rw [step] at h ⊢
    cases hp : s.phase t with
    | inserting al pie =>
      simp only [hp, Timer.insertAlarm, Option.map_map, Option.map_eq_some_iff] at h ⊢
      obtain ⟨place, hplace, heq⟩ := h
      exact ⟨place, findPlace_mono n hplace, heq⟩
    | out | late | inserted | waiting =>
      rw [hp] at h
      cases h
  | interrupt now =>
    simp only [step, Timer.handleTimerInterrupt, Option.map_map, Option.map_eq_some_iff] at h ⊢
    obtain ⟨tm, htm, heq⟩ := h
    exact ⟨tm, drainDue_mono n htm, heq⟩
  | alarmInit | alarmReset | call | wait | ret => exact h

/-- Every update keeps the invariant. -/
theorem Inv.step (h : Inv s pending L) (hen : s.Enabled lbl) (hst : s.step fuel lbl = some s') :
    ∃ L', Inv s' (s.pendingAfter pending lbl) L' := by
  cases lbl with
  | alarmInit al now =>
    cases hst
    have hnil : Function.update s.tm.waitList al [] = s.tm.waitList := by
      rw [Function.update_eq_self_iff]
      refine (h.waitList_eq_nil fun t ht => hen.2 t ?_).symm
      rw [ht]
      rfl
    refine ⟨L, ?_⟩
    have hnext : ∀ b, b ≠ al → Function.update s.tm.next al none b = s.tm.next b :=
      fun b hb => update_of_ne hb _ _
    have hre := h.retime hen.2 hen.1 now hnext
    rw [Timer.alarmInit, hnil]
    exact hre
  | alarmReset al now =>
    cases hst
    exact ⟨L, h.retime hen.2 hen.1 now fun _ _ => rfl⟩
  | call t al tcnt now pie =>
    cases hst
    obtain ⟨hclock, hout, hfree⟩ := hen
    have hre := h.retime hfree hclock (Timer.wakeTime (s.tm.twake al) tcnt) (fun _ _ => rfl)
    refine ⟨L, hre.enter hout hfree ?_⟩
    split
    case isTrue hlt => exact .inl ⟨rfl, BitVec.le_of_lt hlt⟩
    case isFalse => exact .inr ⟨pie, rfl⟩
  | insert t =>
    obtain ⟨al, pie, hp⟩ := hen
    have hf : L.length < fuel + (L.length + 1) := by omega
    obtain ⟨s1, hst1, hinv⟩ := h.insert hp hf
    rw [step_mono (L.length + 1) hst] at hst1
    cases hst1
    refine ⟨insertSorted s.tm.twake al L, ?_⟩
    rw [pendingAfter, hp]
    exact hinv
  | wait t =>
    obtain ⟨al, pie, hp⟩ := hen
    simp only [Sleepers.step, hp] at hst
    cases hst
    exact ⟨L, h.wait hp⟩
  | interrupt now =>
    have hst' := step_mono (L.length + 1) hst
    rw [Sleepers.step, h.interrupt_eq (by omega)] at hst'
    cases hst'
    exact ⟨_, h.interrupt hen.1⟩
  | ret t now =>
    cases hst
    exact ⟨L, h.ret hen.1 hen.2⟩

theorem Reach.inv (h : Reach pending s) : ∃ L, Inv s pending L := by
  induction h with
  | init next twake stcmp clock =>
    refine ⟨[], ⟨rfl, List.nodup_nil, .nil⟩, .nil, fun _ => rfl, rfl, ?_, ?_, ?_, ?_, ?_, ?_,
      List.nodup_nil, ?_⟩ <;> intros <;> simp_all [SleepPhase.alarm, Timer.timerInit]
  | step fuel lbl _ hen hst ih =>
    obtain ⟨L, hinv⟩ := ih
    exact hinv.step hen hst

omit [DecidableEq A] [DecidableEq T] in
/-- The updates that set the wake time of an alarm. -/
def Sets (al : A) : SleepLabel A T → Prop
  | .alarmInit b _ | .alarmReset b _ | .call _ b _ _ _ => b = al
  | _ => False

/-- No other update changes a wake time. -/
theorem Inv.step_twake_of_not_sets (h : Inv s pending L) (hen : s.Enabled lbl)
    (hst : s.step fuel lbl = some s') (hsets : ¬ Sets al lbl) : s'.tm.twake al = s.tm.twake al := by
  cases lbl with
  | alarmInit b now =>
    cases hst
    exact update_of_ne (Ne.symm hsets) _ _
  | alarmReset b now =>
    cases hst
    exact update_of_ne (Ne.symm hsets) _ _
  | call u b tcnt now pie =>
    cases hst
    exact update_of_ne (Ne.symm hsets) _ _
  | insert u =>
    obtain ⟨b, pie, hp⟩ := hen
    simp only [Sleepers.step, hp, Timer.insertAlarm, Option.map_map, Option.map_eq_some_iff] at hst
    obtain ⟨place, -, rfl⟩ := hst
    rfl
  | wait u =>
    obtain ⟨b, pie, hp⟩ := hen
    simp only [Sleepers.step, hp] at hst
    cases hst
    rfl
  | interrupt now =>
    have hst' := step_mono (L.length + 1) hst
    rw [Sleepers.step, h.interrupt_eq (by omega)] at hst'
    cases hst'
    rfl
  | ret u now =>
    cases hst
    rfl

/-- The wake time of an alarm stays as it is while a call with it is under way. -/
theorem Inv.step_twake (h : Inv s pending L) (hen : s.Enabled lbl) (hst : s.step fuel lbl = some s')
    (hal : (s.phase t).alarm = some al) : s'.tm.twake al = s.tm.twake al := by
  refine h.step_twake_of_not_sets hen hst fun hsets => ?_
  have hfree : ¬ s.Free al := fun hf => hf t hal
  cases lbl with
  | alarmInit b now => exact hfree (hsets ▸ hen.2)
  | alarmReset b now => exact hfree (hsets ▸ hen.2)
  | call u b tcnt now pie => exact hfree (hsets ▸ hen.2.2)
  | insert | wait | interrupt | ret => exact hsets

omit [DecidableEq A] [DecidableEq T] in
/-- A call that can return has an alarm whose wake time has come. -/
theorem Inv.twake_le_of_ret (h : Inv s pending L) (hen : s.Enabled (.ret t now)) :
    ∃ al, (s.phase t).alarm = some al ∧ s.tm.twake al ≤ now := by
  obtain ⟨hclock, ⟨al, hp⟩ | ⟨-, hr⟩⟩ := hen
  · exact ⟨al, by rw [hp]; rfl, BitVec.le_trans (h.late t al hp) hclock⟩
  · obtain ⟨al, hp, hle⟩ := h.ready t hr
    exact ⟨al, by rw [hp]; rfl, BitVec.le_trans hle hclock⟩

/-! ## The alarm queue -/

/-- The sleep list holds each pending alarm once, sorted by wake time and in the order of
insertion among equal times, and the comparator is that of its head. -/
structure SleepListOk (tm : Timer A T) (pending L : List A) : Prop where
  chain : Chain tm.next tm.sleepList L
  nodup : L.Nodup
  perm : L.Perm pending
  sorted : L.Pairwise fun a b => tm.twake a ≤ tm.twake b
  stable : ∀ w, L.filter (fun a => tm.twake a = w) = pending.filter (fun a => tm.twake a = w)
  stcmp : tm.stcmp = match L.head? with
    | some head => tm.twake head
    | none => uint64Max

omit [DecidableEq A] [DecidableEq T] in
theorem Inv.sleepListOk (h : Inv s pending L) : SleepListOk s.tm pending L := by
  refine ⟨h.queue.chain, h.queue.nodup, h.perm, h.queue.sorted, h.stable, ?_⟩
  rw [h.stcmp]
  cases L.head? <;> rfl

/-- The wake time is the sum, or the greatest time when the sum is greater. -/
theorem toNat_wakeTime (w tcnt : Ticks) :
    (Timer.wakeTime w tcnt).toNat = min (w.toNat + tcnt.toNat) (2 ^ 64 - 1) := by
  have hmax : uint64Max.toNat = 2 ^ 64 - 1 := by decide
  have hw := w.isLt
  have hsub : (uint64Max - w).toNat = 2 ^ 64 - 1 - w.toNat := by
    rw [BitVec.toNat_sub_of_le, hmax]
    rw [BitVec.le_def, hmax]
    omega
  rw [Timer.wakeTime]
  split
  case isTrue hlt =>
    rw [BitVec.lt_def, hsub] at hlt
    rw [hmax]
    omega
  case isFalse hlt =>
    rw [BitVec.lt_def, hsub] at hlt
    rw [BitVec.toNat_add]
    omega

/-- The alarm queue.  In every state a run reaches the sleep list is in order and the
comparator is that of its head.  A timer interrupt takes off exactly the alarms that are due and
makes their sleepers ready in the order of the list; a sleeper that interrupts can find is on
its alarm's wait list unless it runs with interrupts enabled between the insertion and the wait.
A call sets the wake time to the saturated sum, no update changes it before the call returns,
and the call does not return earlier. -/
theorem alarm_queue_correct (h : Reach pending s) :
    ∃ L, SleepListOk s.tm pending L ∧
      (∀ now, s.Enabled (.interrupt now) →
        (∃ n, ∀ fuel, n ≤ fuel → s.step fuel (.interrupt now) =
          some { s with tm := s.tm.afterInterrupt L now, clock := now }) ∧
        SleepListOk (s.tm.afterInterrupt L now) (pending.filter fun a => now < s.tm.twake a)
          (L.filter fun a => now < s.tm.twake a) ∧
        ∀ al ∈ L, ∃ t, s.phase t = .waiting al ∧ s.tm.waitList al = [t] ∨
          s.phase t = .inserted al true ∧ s.tm.waitList al = []) ∧
      (∀ t, s.Enabled (.insert t) → ∃ n, ∀ fuel, n ≤ fuel → ∃ s', s.step fuel (.insert t) = some s') ∧
      (∀ t al tcnt now pie fuel s', s.step fuel (.call t al tcnt now pie) = some s' →
        (s'.phase t).alarm = some al ∧
        (s'.tm.twake al).toNat = min ((s.tm.twake al).toNat + tcnt.toNat) (2 ^ 64 - 1)) ∧
      (∀ fuel lbl s', s.Enabled lbl → s.step fuel lbl = some s' → ∀ t al,
        (s.phase t).alarm = some al → s'.tm.twake al = s.tm.twake al) ∧
      ∀ t now, s.Enabled (.ret t now) → ∃ al, (s.phase t).alarm = some al ∧ s.tm.twake al ≤ now := by
  obtain ⟨L, hinv⟩ := h.inv
  refine ⟨L, hinv.sleepListOk, fun now hen => ⟨⟨L.length + 1, fun fuel hf => ?_⟩,
    (hinv.interrupt hen.1).sleepListOk, fun al hal => ?_⟩, ?_, ?_,
    fun fuel lbl s' hen hst t al => hinv.step_twake hen hst, fun t now => hinv.twake_le_of_ret⟩
  · rw [Sleepers.step, hinv.interrupt_eq hf]
    rfl
  · obtain ⟨t, ⟨pie, hp⟩ | hp⟩ := hinv.queued al hal
    · refine ⟨t, .inr ⟨?_, ?_⟩⟩
      · have hmask := hen.2 t
        rw [hp, SleepPhase.masked, Bool.not_eq_false'] at hmask
        rw [hp, hmask]
      · refine hinv.waitList_eq_nil fun u hu => ?_
        have hut := hinv.own u t al (by rw [hu]; rfl) (by rw [hp]; rfl)
        rw [hut, hp] at hu
        cases hu
    · exact ⟨t, .inl hp⟩
  · rintro t ⟨al, pie, hp⟩
    refine ⟨L.length + 1, fun fuel hf => ?_⟩
    obtain ⟨s', hst, -⟩ := hinv.insert hp hf
    exact ⟨s', hst⟩
  · intro t al tcnt now pie fuel s' hst
    cases hst
    refine ⟨?_, ?_⟩
    · show (Function.update s.phase t _ t).alarm = _
      rw [update_self]
      split <;> rfl
    · show (Function.update s.tm.twake al _ al).toNat = _
      rw [update_self, toNat_wakeTime]

/-- Two threads sleep, the second one for a shorter time. -/
theorem alarm_queue_correct_two : ∃ s : Sleepers Bool Bool, Reach [false, true] s ∧
    s.tm.stcmp = 3 ∧ ∃ L, SleepListOk s.tm [false, true] L := by
  have h0 : Reach [] _ := .init (A := Bool) (T := Bool) (fun _ => none) (fun _ => 0) 0 0
  have h1 : Reach _ _ := h0.step 1 (.call false false 5 1 false)
    ⟨by decide, rfl, fun t => by cases t <;> decide⟩ rfl
  have h2 : Reach _ _ := h1.step 1 (.insert false) ⟨false, false, by decide⟩ rfl
  have h3 : Reach _ _ := h2.step 1 (.wait false) ⟨false, false, by decide⟩ rfl
  have h4 : Reach _ _ := h3.step 1 (.call true true 3 2 false)
    ⟨by decide, rfl, fun t => by cases t <;> decide⟩ rfl
  have h5 : Reach _ _ := h4.step 2 (.insert true) ⟨true, false, by decide⟩ rfl
  obtain ⟨L, hL, -⟩ := alarm_queue_correct h5
  exact ⟨_, h5, by decide, L, hL⟩

end Sleepers

end MiniOs
