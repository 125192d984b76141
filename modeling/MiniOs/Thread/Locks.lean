import MiniOs.Thread.Machine

/-!
# Recursive locks over whole runs

A run is watched by a count of unmatched acquires: for each thread and lock, how many of the
thread's returned `lock_acquire` calls have no `lock_release` call of that thread after
them.  The lock itself knows this number only through its owner and its `count`, and the two
agree in every state a run reaches.
-/

namespace MiniOs.Machine

open Kernel (Running Held released)

variable {nl : Nat} {m m' : Machine nl}
  {l : Fin nl} {lbl : Label nl}

/-- How many acquires of a lock by a thread are not matched by a release. -/
abbrev Depth (nl : Nat) := Tid → Fin nl → Nat

/-- The depth of lock `l` for thread `t` becomes `n`. -/
def Depth.set (d : Depth nl) (t : Tid) (l : Fin nl) (n : Nat) : Depth nl :=
  Function.update d t (Function.update (d t) l n)

/-- The depths after a segment from `m` to `m'`.  An acquire counts when it returns, which is
when the thread is back in its own code.  A release without an acquire to match is not
counted, and the acquires of a thread end with it. -/
def audit (m : Machine nl) (lbl : Label nl) (m' : Machine nl) (d : Depth nl) : Depth nl :=
  match lbl with
  | .call (.acquire l) => if m'.pc m.k.tp = .user then d.set m.k.tp l (d m.k.tp l + 1) else d
  | .call (.release l) => d.set m.k.tp l (d m.k.tp l - 1)
  | .call (.exit _) => Function.update d m.k.tp fun _ => 0
  | .resume _ _ =>
      match m.pc m.k.tp with
      | .acquire l => if m'.pc m.k.tp = .user then d.set m.k.tp l (d m.k.tp l + 1) else d
      | _ => d
  | _ => d

/-- The states reached by any run, with the depths. -/
inductive Audited : Machine nl → Depth nl → Prop where
  | init : Audited init fun _ _ => 0
  | step {m m' : Machine nl} {d : Depth nl} {lbl : Label nl} : Audited m d → m.Enabled lbl →
      m.step lbl = some m' → Audited m' (audit m lbl m' d)

theorem Audited.reachable {d : Depth nl} (h : Audited m d) : Reachable m := by
  induction h with
  | init => exact .init
  | step _ hen hst ih => exact ih.step hen trivial hst

/-- The state and the depths after a given run, if each of its segments can come next. -/
def watch (m : Machine nl) (d : Depth nl) : List (Label nl) → Option (Machine nl × Depth nl)
  | [] => some (m, d)
  | lbl :: lbls =>
      if m.Enabled lbl then (m.step lbl).bind fun m' => watch m' (audit m lbl m' d) lbls else none

theorem Audited.watch {d d' : Depth nl} {lbls : List (Label nl)} (h : Audited m d)
    (heq : Machine.watch m d lbls = some (m', d')) : Audited m' d' :=
  keeps_of_run (f := fun x => Machine.watch x.1 x.2) (s := (m, d))
    (g := fun x lbl m' => (m', audit x.1 lbl m' x.2)) (P := fun x => Audited x.1 x.2)
    (fun _ => rfl) (fun _ _ _ => rfl) (fun h => h.step) h heq

/-! ## The count of a lock -/

/-- Owner and count of every lock say how deep each thread is. -/
def DepthOk (lock : Fin nl → Lock) (d : Depth nl) : Prop :=
  ∀ l t, (d t l : Int) = if (lock l).owner = some t then (lock l).count else 0

namespace DepthOk

variable {lock : Fin nl → Lock} {d : Depth nl}

section

variable (h : DepthOk lock d)

include h

/-- One lock changes, and one thread's depth of it. -/
theorem set {t : Tid} {lk : Lock} {n : Nat}
    (ht : (n : Int) = if lk.owner = some t then lk.count else 0)
    (hothers : ∀ u, u ≠ t → (if lk.owner = some u then lk.count else 0) = (d u l : Int)) :
    DepthOk (Function.update lock l lk) (d.set t l n) := by
  intro l' u
  by_cases hl : l' = l
  · subst hl
    by_cases hu : u = t
    · subst hu
      simpa [Depth.set] using ht
    · simpa [Depth.set, hu] using (hothers u hu).symm
  · by_cases hu : u = t
    · subst hu
      simpa [Depth.set, hl] using h l' u
    · simpa [Depth.set, hl, hu] using h l' u

/-- A free lock is taken. -/
theorem take (t : Tid) (ho : (lock l).owner = none) :
    DepthOk (Function.update lock l { owner := some t, count := 1 }) (d.set t l (d t l + 1)) := by
  have hz : ∀ u, (d u l : Int) = 0 := by
    intro u
    rw [h l u, ho]
    simp
  refine h.set ?_ fun u hu => ?_
  · have := hz t
    simp
    omega
  · rw [hz u]
    simp [Ne.symm hu]

/-- The owner acquires once more. -/
theorem bump {t : Tid} (ho : (lock l).owner = some t) :
    DepthOk (Function.update lock l { lock l with count := (lock l).count + 1 })
      (d.set t l (d t l + 1)) := by
  refine h.set ?_ fun u hu => ?_
  · have := h l t
    simp only [ho, if_true] at this ⊢
    omega
  · have := h l u
    simp only [ho, Option.some.injEq, Ne.symm hu, if_false] at this ⊢
    exact this.symm

/-- A release by the owner or by another thread. -/
theorem release (l : Fin nl) (t : Tid) (hown : (lock l).owner = some t → 1 ≤ (lock l).count) :
    DepthOk (Function.update lock l (released (lock l) t)) (d.set t l (d t l - 1)) := by
  by_cases ho : (lock l).owner = some t
  · have hd := h l t
    have hc := hown ho
    rw [if_pos ho] at hd
    rw [released, if_pos ho]
    refine h.set ?_ fun u hu => ?_
    · by_cases hlt : 1 < (lock l).count
      · simp only [hlt, if_true, ho]
        omega
      · simp only [hlt, if_false]
        simp
        omega
    · have hu' := h l u
      simp only [ho, Option.some.injEq, Ne.symm hu, if_false] at hu'
      by_cases hlt : 1 < (lock l).count
      · simp only [hlt, if_true, ho, Option.some.injEq, Ne.symm hu, if_false]
        exact hu'.symm
      · simp only [hlt, if_false]
        simpa using hu'.symm
  · have hd := h l t
    rw [if_neg ho] at hd
    rw [released, if_neg ho]
    refine h.set ?_ fun u _ => (h l u).symm
    rw [if_neg ho]
    omega

/-- The locks of one thread are released for good. -/
theorem drain (t : Tid) {lock' : Fin nl → Lock}
    (hl : ∀ l, lock' l = if (lock l).owner = some t then { owner := none, count := 0 } else lock l) :
    DepthOk lock' (Function.update d t fun _ => 0) := by
  intro l u
  rw [hl]
  by_cases hu : u = t
  · subst hu
    by_cases ho : (lock l).owner = some u
    · simp [ho]
    · simp [ho]
  · rw [Function.update_of_ne hu, h l u]
    by_cases ho : (lock l).owner = some t
    · simp [ho, Ne.symm hu]
    · rw [if_neg ho]

end

end DepthOk

/-- An acquire counts when it returns. -/
theorem audit_acquires (h : Acquires m l lbl) (k : Kernel nl) (p : Pc nl)
    (d : Depth nl) : audit m lbl (m.goto k m.k.tp p) d =
      if p = .user then d.set m.k.tp l (d m.k.tp l + 1) else d := by
  cases lbl with
  | call c =>
    obtain ⟨rfl, -, -⟩ := h
    simp [audit, goto]
  | resume isr1 isr2 =>
    have hp : m.pc m.k.tp = .acquire l := h
    simp [audit, goto, hp]
  | isr c => cases h

theorem audit_calm (h : Calm m lbl) (d : Depth nl) : audit m lbl m' d = d := by
  cases lbl with
  | call c => cases c <;> first | rfl | cases h
  | resume isr1 isr2 =>
    cases hp : m.pc m.k.tp with
    | user => simp [audit, hp]
    | acquire l => exact absurd hp (h l)
    | join tid => simp [audit, hp]
  | isr c => cases h

/-- A segment keeps owner and count in step with the depths. -/
theorem Outcome.depthOk {L : ListRef nl → List Tid} {H : Tid → List (Fin nl)}
    (h : Outcome m L lbl m') (hh : Held m.k H) {d : Depth nl} (hd : DepthOk m.k.lock d) :
    DepthOk m'.k.lock (audit m lbl m' d) := by
  cases h with
  | calm hcalm hlock =>
    rw [audit_calm hcalm, hlock]
    exact hd
  | isr hlock =>
    simp only [audit, hlock]
    exact hd
  | bump hpu ho =>
    simp only [audit, if_pos hpu]
    exact hd.bump ho
  | take hacq ho =>
    rw [audit_acquires hacq]
    exact hd.take m.k.tp ho
  | wait hacq _ hlock =>
    rw [audit_acquires hacq]
    show DepthOk _ d
    rw [goto, hlock]
    exact hd
  | release _ _ hlock =>
    simp only [audit, hlock]
    exact hd.release _ m.k.tp fun ho => hh.owned _ _ ho
  | exit _ hdrain =>
    obtain ⟨k1, -, -, hdr, -, -, -, hlock⟩ := hdrain (fun _ _ => True) (fun _ _ _ _ => trivial) trivial
    simp only [audit, hlock]
    exact hd.drain m.k.tp hdr.lock

theorem Audited.depthOk {d : Depth nl} (h : Audited m d) : DepthOk m.k.lock d := by
  induction h with
  | init =>
    intro l t
    exact (if_neg (nomatch ·)).symm
  | step hrun hen hst ih =>
    obtain ⟨⟨L, hr⟩, ⟨H, hh⟩, hpc⟩ := hrun.reachable.inv
    obtain ⟨m1, hst1, hout, -⟩ := segment hr hh hpc hen
    rw [hst] at hst1
    cases hst1
    exact hout.depthOk hh ih

/-! ## Lock correctness -/

/-- The locks, their owners and the lock lists of the threads agree. -/
structure LocksOk (k : Kernel nl) (d : Depth nl) : Prop where
  owned_iff : ∀ l, (k.lock l).owner ≠ none ↔ 1 ≤ (k.lock l).count
  count_eq : ∀ l t, (k.lock l).owner = some t → (k.lock l).count = d t l
  /-- A thread that does not own a lock has no acquire of it to undo. -/
  others : ∀ l t, (k.lock l).owner ≠ some t → d t l = 0
  /-- A thread's lock list is the set of locks it owns, each once. -/
  lists : ∀ t, ∃ ls, Chain k.lockNext (k.thr t).lockList ls ∧ ls.Nodup ∧
    ∀ l, l ∈ ls ↔ (k.lock l).owner = some t

/-- The locks of a thread that exits end up with no owner or another one. -/
theorem Audited.exit_free {d : Depth nl} (h : Audited m d) {isr : List (Cond nl)}
    (hen : m.Enabled (.call (.exit isr))) (hst : m.step (.call (.exit isr)) = some m') (l : Fin nl) :
    (m'.k.lock l).owner ≠ some m.k.tp := by
  intro ho
  have h' := h.step hen hst
  obtain ⟨-, ⟨H, hh⟩, -⟩ := h'.reachable.inv
  have hcount := h'.depthOk l m.k.tp
  have hpos := hh.owned l _ ho
  simp only [if_pos ho, audit, Function.update_self] at hcount
  omega

/-- Recursive locks are correct in every state a run reaches: owners, counts and lock lists
agree with the unmatched acquires, a release by a thread that is not the owner changes
nothing, and the loop with which `thread_exit` releases the thread's locks ends and leaves
the thread without a lock. -/
theorem lock_correct {d : Depth nl} (h : Audited m d) :
    LocksOk m.k d ∧
    (∀ l, (m.k.lock l).owner ≠ some m.k.tp → m.step (.call (.release l)) = some m) ∧
    (∃ k', Kernel.drainLocks m.k.lockDepth m.k = some k' ∧ (k'.thr m.k.tp).lockList = none ∧
      ∀ l, (k'.lock l).owner ≠ some m.k.tp) ∧
    ∀ isr m', m.Enabled (.call (.exit isr)) → m.step (.call (.exit isr)) = some m' →
      ∀ l, (m'.k.lock l).owner ≠ some m.k.tp := by
  obtain ⟨⟨L, hr⟩, ⟨H, hh⟩, -⟩ := h.reachable.inv
  have hd := h.depthOk
  refine ⟨⟨fun l => ?_, fun l t ho => ?_, fun l t ho => ?_, fun t => ?_⟩, fun l ho => ?_, ?_,
    fun isr m' hen hst => h.exit_free hen hst⟩
  · cases ho : (m.k.lock l).owner with
    | none => simp [hh.free l ho]
    | some t => simp [hh.owned l t ho]
  · have hcount := hd l t
    rw [if_pos ho] at hcount
    exact hcount.symm
  · have hcount := hd l t
    rw [if_neg ho] at hcount
    exact Int.ofNat_eq_zero.mp hcount
  · exact ⟨H t, hh.chain t, hh.nodup t, hh.mem_iff t⟩
  · show (m.k.lockRelease l).map _ = _
    rw [Kernel.lockRelease, if_pos ho]
    rfl
  · obtain ⟨k', L', H', heq, -, -, hdr, -⟩ := Running.drainLocks (p := fun _ _ => True)
      (fun _ _ _ _ => trivial) hr hh trivial (Nat.le_refl _)
    refine ⟨k', heq, hdr.empty, fun l => ?_⟩
    rw [hdr.lock]
    by_cases ho : (m.k.lock l).owner = some m.k.tp
    · simp [ho]
    · rw [if_neg ho]
      exact ho

/-- The main thread acquires a lock twice, and a thread it spawned waits for it. -/
theorem lock_correct_contended : ∃ (m : Machine 1) (d : Depth 1), Audited m d ∧
    (m.k.lock 0).owner = some mainTid ∧ m.pc 1 = .acquire 0 ∧ d mainTid 0 = 2 ∧
      LocksOk m.k d := by
  have heval : (watch (init : Machine 1) (fun _ _ => 0) [.call (.acquire 0), .call (.acquire 0),
      .call .spawn, .call .yield, .call .yield, .call (.acquire 0)]).map (fun (m, d) =>
        ((m.k.lock 0).owner, m.pc 1, d mainTid 0)) = some (some mainTid, .acquire 0, 2) := by
    decide +kernel
  obtain ⟨⟨m, d⟩, hm, hval⟩ := Option.map_eq_some_iff.mp heval
  simp only [Prod.mk.injEq] at hval
  have haud : Audited m d := Audited.init.watch hm
  exact ⟨m, d, haud, hval.1, hval.2.1, hval.2.2, (lock_correct haud).1⟩

end MiniOs.Machine
