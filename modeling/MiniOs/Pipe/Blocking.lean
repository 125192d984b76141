import MiniOs.Pipe.Stream

/-!
# Blocking on a pipe

`condition_wait` takes no lock, and the pipe functions call it with the lock of the pipe held.
A thread that is suspended on `not_empty` or `not_full` therefore owns the lock, and no other
thread can make the change it waits for.  It is only in runs in which no call has to block that
no owner of the lock waits.

No segment of a pipe function fails: the assertions of the thread manager hold in every state
a run reaches, and the loop of `pipe_write` ends.
-/

namespace MiniOs

namespace Kernel

variable {nl : Nat} {k : Kernel nl} {L : ListRef nl → List Tid}
  {k' : Kernel nl} {g : Segment nl} {pc : PipePc}

/-- The broadcasts of interrupts leave the running thread running. -/
theorem Running.interrupts (h : Running k L) (isr : List (Cond nl)) :
    ∃ k', k.interrupts isr = some k' ∧ k'.tp = k.tp ∧ Running k' (isr.foldl wokenLists L) ∧
      Reshuffled k k' := by
  induction isr generalizing k L with
  | nil => exact ⟨k, rfl, rfl, h, Reshuffled.refl k⟩
  | cons c isr ih =>
    obtain ⟨k1, heq1, htp1, h1, hsame1⟩ := h.conditionBroadcast c
    obtain ⟨k2, heq2, htp2, h2, hsame2⟩ := ih h1
    refine ⟨k2, ?_, htp2.trans htp1, h2, hsame1.trans hsame2⟩
    rw [Kernel.interrupts, List.foldlM_cons, heq1]
    exact heq2

end Kernel

namespace PipeState

variable {s : PipeState}

/-- The loop of `pipe_write` writes a byte if there is one and the buffer is not full. -/
theorem writeLoop_lt (b : UInt8) (data : List UInt8) (h : s.pipeCount < pipeBufSize) :
    (s.writeLoop (b :: data)).1.length < (b :: data).length := by
  have hle : ∀ (data : List UInt8) (s : PipeState), (s.writeLoop data).1.length ≤ data.length := by
    intro data
    induction data with
    | nil => exact fun s => Nat.le_refl _
    | cons b data ih =>
      intro s
      rw [writeLoop]
      split
      · exact Nat.le_succ_of_le (ih _)
      · exact Nat.le_refl _
  rw [writeLoop, if_pos h]
  exact Nat.lt_succ_of_le (hle _ _)

end PipeState

namespace Pipe

open Kernel (Running Held Reshuffled)

variable {nl : Nat} {p : Pipe nl} {k : Kernel nl} {L L' : ListRef nl → List Tid}
  {H : Tid → List (Fin nl)} {s : PipeState} {isr : Windows nl}

/-! ## Segments -/

/-- Nobody waits on a condition of the pipe or for its lock. -/
def Quiet (p : Pipe nl) (L : ListRef nl → List Tid) : Prop :=
  ∀ c, System.Inside p c → L (.wait c) = []

theorem Quiet.woken (h : Quiet p L) (c : Cond nl) : Quiet p (Kernel.wokenLists L c) := by
  intro c' hc'
  by_cases hcc : c' = c <;> simp [Kernel.wokenLists, hcc, h c' hc']

theorem Quiet.foldl_woken (h : Quiet p L) (isr : List (Cond nl)) :
    Quiet p (isr.foldl Kernel.wokenLists L) := by
  induction isr generalizing L with
  | nil => exact h
  | cons c isr ih => exact ih (h.woken c)

theorem Quiet.released (h : Quiet p L) (k : Kernel nl) (l : Fin nl) :
    Quiet p (Kernel.releasedLists k L l) := by
  rw [Kernel.releasedLists]
  split
  · exact h.woken _
  · exact h

/-- Other conditions do not matter. -/
theorem Quiet.moved {conds : List (Cond nl)} {t t' : Tid} (h : Quiet p L)
    (hconds : ∀ c, System.Inside p c → ¬ Machine.Named conds c)
    (hm : Machine.Moved conds t t' L L') : Quiet p L' := by
  obtain ⟨L1, hf, hcase⟩ := hm
  have h1 : Quiet p L1 := fun c hin => (hf.wait c (hconds c hin)).trans (h c hin)
  rcases hcase with ⟨-, rfl⟩ | ⟨ts, -, rfl⟩
  · exact h1
  · intro c hin
    rw [Function.update_of_ne (by simp)]
    exact h1 c hin

/-- A segment in which the call returns. -/
structure Returned (p : Pipe nl) (k : Kernel nl) (L : ListRef nl → List Tid) (g : Segment nl) :
    Prop where
  pc : g.pc = .user
  running : ∃ L', Running g.k L' ∧ (Quiet p L → Quiet p L')
  held : ∃ H', Held g.k H'
  tp : g.k.tp = k.tp
  lock : g.k.lock = Function.update k.lock p.lock (Kernel.released (k.lock p.lock) k.tp)

/-- A segment in which the thread waits on condition `c`. -/
structure Suspended (k : Kernel nl) (c : Cond nl) (g : Segment nl) : Prop where
  running : ∃ L', Running g.k L' ∧ k.tp ∈ L' (.wait c)
  held : ∃ H', Held g.k H'
  lock : g.k.lock = k.lock

/-- The segment started with changes of the schedule only. -/
theorem Returned.after (h : Returned p k' L' g) (hsame : Reshuffled k k') (htp : k'.tp = k.tp)
    (hq : Quiet p L → Quiet p L') : Returned p k L g := by
  obtain ⟨L1, hr1, hq1⟩ := h.running
  refine ⟨h.pc, ⟨L1, hr1, fun hL => hq1 (hq hL)⟩, h.held, h.tp.trans htp, ?_⟩
  rw [h.lock, hsame.lock, htp]

theorem Suspended.after {c : Cond nl} (h : Suspended k' c g)
    (hsame : Reshuffled k k') (htp : k'.tp = k.tp) : Suspended k c g := by
  obtain ⟨L', hr, hmem⟩ := h.running
  exact ⟨⟨L', hr, htp ▸ hmem⟩, h.held, h.lock.trans hsame.lock⟩

theorem leave_returned (hr : Running k L) (hh : Held k H) (ret : PipeRet) (took put : List UInt8) :
    ∃ g, p.leave isr k s ret took put = some g ∧ Returned p k L g := by
  obtain ⟨k1, heq1, htp1, hr1, hsame1⟩ := hr.interrupts (isr.window 0)
  obtain ⟨k2, H2, heq2, hr2, hh2, hlock2, hre2⟩ := hr1.lockRelease (hh.reshuffled hsame1) p.lock
  have hret : Returned p k1 ((isr.window 0).foldl Kernel.wokenLists L)
      { k := k2, s := s, pc := .user, ret := some ret, took := took, put := put } :=
    ⟨rfl, ⟨_, hr2, fun hq => hq.released k1 p.lock⟩, ⟨_, hh2⟩, hre2.tp, hlock2⟩
  refine ⟨_, ?_, hret.after hsame1 htp1 fun hq => hq.foldl_woken _⟩
  simp only [leave, heq1, heq2, Option.bind_eq_bind, Option.bind_some, Option.pure_def]

/-- A thread that waits on a condition that is not broadcast before the switch. -/
theorem wait_suspended (hr : Running k L) (hh : Held k H) (hidle : k.tp ≠ idleTid) {n : Nat}
    (isr1 : List (Cond nl)) {isr2 : List (Cond nl)} (hisr : Cond.other n ∉ isr2) :
    ∃ k', k.conditionWait (.other n) isr1 isr2 = some k' ∧
      ∀ g : Segment nl, g.k = k' → Suspended k (.other n) g := by
  have hown : ∀ t, (Cond.other n : Cond nl) = .childExit t → t = k.tp := fun t ht => nomatch ht
  obtain ⟨k', ts, heq, -, hrun, hsame⟩ := hr.conditionWait hidle hown isr1 isr2
  have hkeep : Kernel.waitLists L (.other n) k.tp isr1 isr2 (.wait (.other n)) =
      Kernel.appended (isr1.foldl Kernel.wokenLists L) (.wait (.other n)) k.tp (.wait (.other n)) := by
    refine (Machine.Follows.foldl_woken fun c hc => .inl hc).wait _ ?_
    rintro (hmem | ⟨t, ht⟩)
    · exact hisr hmem
    · cases ht
  refine ⟨k', heq, ?_⟩
  rintro g rfl
  refine ⟨⟨_, hrun, ?_⟩, ⟨H, hh.reshuffled hsame⟩, hsame.lock⟩
  rw [Function.update_of_ne (by simp), hkeep]
  simp [Kernel.appended]

/-- Interrupts broadcast no condition of the pipe. -/
theorem not_mem_window (h : ∀ w ∈ isr, ∀ c ∈ w, ¬ System.Inside p c) {c : Cond nl}
    (hc : System.Inside p c) (i : Nat) : c ∉ isr.window i := by
  intro hmem
  rw [Windows.window, List.getD_eq_getElem?_getD] at hmem
  cases hw : isr[i]? with
  | none =>
    rw [hw] at hmem
    cases hmem
  | some w =>
    rw [hw] at hmem
    exact h w (List.mem_of_getElem? hw) c hmem hc

/-- The call cannot go on when it has the lock: a reader finds nothing to read, or a writer
has more bytes than there is room. -/
def Blocks (s : PipeState) : PipePc → Prop
  | .readLock _ | .readWait _ => s.pipeCount = 0 ∧ s.writeOpen = true
  | .writeLock data | .writeWait data _ =>
      s.readOpen = true ∧ pipeBufSize < s.pipeCount + data.length
  | _ => False

/-- How a segment ends that has the lock and goes on at `pc`. -/
def Ends (p : Pipe nl) (k : Kernel nl) (L : ListRef nl → List Tid) (s : PipeState) (pc : PipePc)
    (g : Segment nl) : Prop :=
  Blocks s pc ∧ (Suspended k (.other p.notEmpty) g ∨ Suspended k (.other p.notFull) g) ∨
    ¬ Blocks s pc ∧ Returned p k L g

instance (s : PipeState) : (pc : PipePc) → Decidable (Blocks s pc)
  | .readLock _ | .readWait _ =>
      inferInstanceAs (Decidable (s.pipeCount = 0 ∧ s.writeOpen = true))
  | .writeLock data | .writeWait data _ => inferInstanceAs
      (Decidable (s.readOpen = true ∧ pipeBufSize < s.pipeCount + data.length))
  | .user | .closeLock _ => isFalse id

/-- The same of an earlier state, from which the schedule alone has changed. -/
theorem Ends.after {s' : PipeState} {pc' : PipePc}
    (h : Ends p k' L' s' pc' g) (hb : Blocks s' pc' ↔ Blocks s pc) (hsame : Reshuffled k k')
    (htp : k'.tp = k.tp) (hq : Quiet p L → Quiet p L') : Ends p k L s pc g := by
  rw [Ends, hb] at h
  rcases h with ⟨hb, hsus | hsus⟩ | ⟨hb, hret⟩
  · exact .inl ⟨hb, .inl (hsus.after hsame htp)⟩
  · exact .inl ⟨hb, .inr (hsus.after hsame htp)⟩
  · exact .inr ⟨hb, hret.after hsame htp hq⟩

theorem closeBody_ends (hr : Running k L) (hh : Held k H) (isWriter : Bool) :
    ∃ g, p.closeBody isr isWriter k s = some g ∧ Ends p k L s (.closeLock isWriter) g := by
  obtain ⟨k1, heq1, htp1, hr1, hsame1⟩ :=
    hr.conditionBroadcast (.other (if isWriter then p.notEmpty else p.notFull))
  obtain ⟨g, heq, hg⟩ := leave_returned hr1 (hh.reshuffled hsame1) .close [] []
  refine ⟨g, ?_, .inr ⟨id, hg.after hsame1 htp1 fun hq => hq.woken _⟩⟩
  rw [closeBody, heq1]
  exact heq

section Body

variable (hr : Running k L) (hh : Held k H) (hidle : k.tp ≠ idleTid)
  (hisr : ∀ w ∈ isr, ∀ c ∈ w, ¬ System.Inside p c)

include hr hh hidle hisr

theorem readBody_ends (bufsz : Nat) :
    ∃ g, p.readBody isr bufsz k s = some g ∧ Ends p k L s (.readLock bufsz) g := by
  rw [readBody]
  by_cases hwait : s.pipeCount = 0 ∧ s.writeOpen = true
  · rw [if_pos hwait]
    obtain ⟨k', heq, hsus⟩ := wait_suspended hr hh hidle (isr.window 1)
      (not_mem_window hisr (.inl rfl) 2)
    exact ⟨_, by rw [heq]; rfl, .inl ⟨hwait, .inl (hsus _ rfl)⟩⟩
  · rw [if_neg hwait]
    generalize s.readLoop bufsz = q
    obtain ⟨bytes, s'⟩ := q
    by_cases hnil : bytes = []
    · obtain ⟨g, heq, hg⟩ := leave_returned hr hh (.read bufsz bytes.length) bytes []
      refine ⟨g, ?_, .inr ⟨hwait, hg⟩⟩
      simp only [hnil, ne_eq, not_true_eq_false, if_false, Option.bind_some] at heq ⊢
      exact heq
    · obtain ⟨k1, heq1, htp1, hr1, hsame1⟩ := hr.conditionBroadcast (.other p.notFull)
      obtain ⟨g, heq, hg⟩ := leave_returned hr1 (hh.reshuffled hsame1) (.read bufsz bytes.length)
        bytes []
      refine ⟨g, ?_, .inr ⟨hwait, hg.after hsame1 htp1 fun hq => hq.woken _⟩⟩
      simp only [ne_eq, hnil, not_false_eq_true, if_true, heq1, Option.bind_some]
      exact heq

theorem writeBody_ends {fuel : Nat} {rest : List UInt8}
    (hs : s.Fits) (hf : rest.length < fuel) (written : Nat) (put : List UInt8) :
    ∃ g, p.writeBody isr fuel rest written put k s = some g ∧ Ends p k L s (.writeLock rest) g := by
  induction fuel generalizing k L rest written put s with
  | zero => cases hf
  | succ fuel ih =>
    rw [writeBody]
    cases rest with
    | nil =>
      have hfree : ¬ Blocks s (.writeLock []) := fun hb => Nat.not_le_of_lt hb.2 hs
      obtain ⟨g, heq, hg⟩ := leave_returned hr hh (.write written) [] put
      exact ⟨g, heq, .inr ⟨hfree, hg⟩⟩
    | cons b rest =>
      rw [if_neg (List.cons_ne_nil b rest)]
      by_cases hwait : s.pipeCount = pipeBufSize ∧ s.readOpen = true
      · rw [if_pos hwait]
        obtain ⟨k', heq, hsus⟩ := wait_suspended hr hh hidle (isr.window 1)
          (not_mem_window hisr (.inr (.inl rfl)) 2)
        have hb : Blocks s (.writeLock (b :: rest)) := by
          refine ⟨hwait.2, ?_⟩
          rw [hwait.1, List.length_cons]
          omega
        exact ⟨_, by rw [heq]; rfl, .inl ⟨hb, .inr (hsus _ rfl)⟩⟩
      · rw [if_neg hwait]
        by_cases hclosed : s.readOpen = false
        · rw [if_pos hclosed]
          have hfree : ¬ Blocks s (.writeLock (b :: rest)) := fun hb => by
            rw [hb.1] at hclosed
            cases hclosed
          obtain ⟨g, heq, hg⟩ := leave_returned hr hh
            (.write (if 0 < written then written else -EPIPE)) [] put
          exact ⟨g, heq, .inr ⟨hfree, hg⟩⟩
        · rw [if_neg hclosed]
          -- bytes are written, and the loop goes on with the others
          have hopen : s.readOpen = true := by simpa using hclosed
          have hroom : s.pipeCount < pipeBufSize :=
            Nat.lt_of_le_of_ne hs fun hfull => hwait ⟨hfull, hopen⟩
          have hlt := PipeState.writeLoop_lt b rest hroom
          obtain ⟨now, hdata, hbytes, hfits, -, hro⟩ := PipeState.writeLoop_spec (b :: rest) hs
          generalize s.writeLoop (b :: rest) = q at hlt hdata hbytes hfits hro
          obtain ⟨rest', s'⟩ := q
          obtain ⟨k1, heq1, htp1, hr1, hsame1⟩ := hr.conditionBroadcast (.other p.notEmpty)
          obtain ⟨k2, heq2, htp2, hr2, hsame2⟩ := hr1.interrupts (isr.window (fuel + 3))
          have hsame := hsame1.trans hsame2
          have htp := htp2.trans htp1
          have hfuel : rest'.length < fuel := by
            simp only [List.length_cons] at hf hlt
            omega
          obtain ⟨g, heq, hg⟩ := ih hr2 (hh.reshuffled hsame) (by rw [htp]; exact hidle) hfits hfuel
            (written + ((b :: rest).take ((b :: rest).length - rest'.length)).length)
            (put ++ (b :: rest).take ((b :: rest).length - rest'.length))
          have hsum : s'.pipeCount + rest'.length = s.pipeCount + (b :: rest).length := by
            have h1 := congrArg List.length hbytes
            have h2 := congrArg List.length hdata
            simp only [List.length_append, PipeState.length_bytes] at h1 h2
            omega
          have hiff : Blocks s' (.writeLock rest') ↔ Blocks s (.writeLock (b :: rest)) := by
            simp only [Blocks, hsum, show s'.readOpen = s.readOpen from hro]
          refine ⟨g, ?_, ?_⟩
          · simp only [heq1, heq2, Option.bind_some]
            exact heq
          · exact hg.after hiff hsame htp fun hq => (hq.woken _).foldl_woken _

/-- The rest of a call, with the lock held. -/
theorem body_ends (hs : s.Fits) (hpc : pc ≠ .user) : ∃ g, p.body isr pc k s = some g ∧ Ends p k L s pc g := by
  cases pc with
  | user => exact absurd rfl hpc
  | readLock bufsz => exact readBody_ends hr hh hidle hisr bufsz
  | readWait bufsz => exact readBody_ends hr hh hidle hisr bufsz
  | writeLock data => exact writeBody_ends hr hh hidle hisr hs (Nat.lt_succ_self _) 0 []
  | writeWait data written =>
    exact writeBody_ends hr hh hidle hisr hs (Nat.lt_succ_self _) written []
  | closeLock isWriter => exact closeBody_ends hr hh isWriter

/-- The rest of a call after `lock_acquire` has returned. -/
theorem locked_ends (hs : s.Fits) (hpc : pc ≠ .user) :
    ∃ g, p.locked isr pc s (some (true, k)) = some g ∧ Ends p k L s pc g := by
  obtain ⟨k1, heq1, htp1, hr1, hsame1⟩ := hr.interrupts (isr.window 3)
  obtain ⟨g, heq, hg⟩ :=
    body_ends hr1 (hh.reshuffled hsame1) (by rw [htp1]; exact hidle) hisr hs hpc
  refine ⟨g, ?_, hg.after Iff.rfl hsame1 htp1 fun hq => hq.foldl_woken _⟩
  simp only [locked, Option.bind_eq_bind, Option.bind_some, if_true, heq1]
  exact heq

end Body

namespace System

variable {c c' : System nl} {a : Action nl} {r : Option PipeRet} {pc : PipePc} {g : Segment nl}
  {lbl : Label nl}

/-! ## No segment fails -/

/-- What holds between segments. -/
structure Sound (c : System nl) : Prop where
  running : ∃ L, Running c.m.k L
  held : ∃ H, Held c.m.k H
  idle : c.m.pc idleTid = .user ∧ c.pc idleTid = .user

section

variable (h : Sound c)

include h

section

variable (hidle : c.m.k.tp ≠ idleTid)

include hidle

theorem Sound.after (hr : ∃ L, Running g.k L) (hh : ∃ H, Held g.k H) : Sound (c.after g) := by
  refine ⟨hr, hh, h.idle.1, ?_⟩
  rw [← h.idle.2]
  exact Function.update_of_ne (Ne.symm hidle) _ _

theorem Sound.ends {k : Kernel nl} {s : PipeState}
    (hg : Ends p k L s pc g) : Sound (c.after g) := by
  rcases hg with ⟨-, hsus | hsus⟩ | ⟨-, hret⟩
  · obtain ⟨L', hr, -⟩ := hsus.running
    exact h.after hidle ⟨L', hr⟩ hsus.held
  · obtain ⟨L', hr, -⟩ := hsus.running
    exact h.after hidle ⟨L', hr⟩ hsus.held
  · obtain ⟨L', hr, -⟩ := hret.running
    exact h.after hidle ⟨L', hr⟩ hret.held

/-- The segment after `lock_acquire` has taken the lock, or has found it owned. -/
theorem Sound.locked (hs : c.s.Fits)
    (hisr : ∀ w ∈ isr, ∀ c ∈ w, ¬ Inside p c) (hpc : pc ≠ .user) {done : Bool}
    {k : Kernel nl} (hr : Running k L) (hh : Held k H) (htp : done = true → k.tp = c.m.k.tp) :
    ∃ g, p.locked isr pc c.s (some (done, k)) = some g ∧ Sound (c.after g) := by
  cases done with
  | true =>
    obtain ⟨g, heq, hg⟩ := locked_ends hr hh (by rw [htp rfl]; exact hidle) hisr hs hpc
    exact ⟨g, heq, h.ends hidle hg⟩
  | false => exact ⟨_, rfl, h.after hidle ⟨L, hr⟩ ⟨H, hh⟩⟩

theorem Sound.lockAcquireLoop (hs : c.s.Fits)
    (hisr : ∀ w ∈ isr, ∀ c ∈ w, ¬ Inside p c) (hpc : pc ≠ .user) :
    ∃ g, p.locked isr pc c.s (c.m.k.lockAcquireLoop p.lock) = some g ∧ Sound (c.after g) := by
  obtain ⟨L, hr⟩ := h.running
  obtain ⟨H, hh⟩ := h.held
  by_cases ho : (c.m.k.lock p.lock).owner = none
  · rw [Kernel.lockAcquireLoop_free ho]
    exact h.locked hidle hs hisr hpc (hr.taken p.lock) (hh.taken hr ho) fun _ => rfl
  · have hown : ∀ t, (Cond.lockCv p.lock : Cond nl) = .childExit t → t = c.m.k.tp :=
      fun t ht => nomatch ht
    obtain ⟨k', ts, heq, -, hrun, hsame⟩ := hr.conditionWait hidle hown [] []
    rw [Kernel.lockAcquireLoop_owned ho, heq]
    exact h.locked hidle hs hisr hpc hrun (hh.reshuffled hsame) nofun

theorem Sound.lockAcquire (hs : c.s.Fits)
    (hisr : ∀ w ∈ isr, ∀ c ∈ w, ¬ Inside p c) (hpc : pc ≠ .user) :
    ∃ g, p.locked isr pc c.s (c.m.k.lockAcquire p.lock) = some g ∧ Sound (c.after g) := by
  by_cases ho : (c.m.k.lock p.lock).owner = some c.m.k.tp
  · obtain ⟨L, hr⟩ := h.running
    obtain ⟨H, hh⟩ := h.held
    have hcount := hh.owned _ _ ho
    rw [Kernel.lockAcquire, if_pos ho]
    exact h.locked hidle hs hisr hpc (hr.congr rfl rfl rfl rfl fun _ => ⟨rfl, rfl⟩)
      (hh.setCount ho (by omega)) fun _ => rfl
  · rw [Kernel.lockAcquire, if_neg ho]
    exact h.lockAcquireLoop hidle hs hisr hpc

end

theorem Sound.machine (hen : c.m.Enabled lbl) :
    ∃ c' r, c.step p (.other lbl) = some (c', r) ∧ Sound c' := by
  obtain ⟨m', hst, hinv⟩ := Machine.Inv.step ⟨h.running, h.held, h.idle.1⟩ hen
  refine ⟨{ c with m := m' }, none, ?_, hinv.running, hinv.held, hinv.idle, h.idle.2⟩
  rw [step, hst]
  rfl

/-- No segment that can come next fails. -/
theorem Sound.step (hs : c.s.Fits) (hen : c.Enabled p a) :
    ∃ c' r, c.step p a = some (c', r) ∧ Sound c' := by
  have hmap : ∀ {o : Option (Segment nl)}, (∃ g, o = some g ∧ Sound (c.after g)) →
      ∃ c' r, (o.map fun g => (c.after g, g.ret)) = some (c', r) ∧ Sound c' := by
    rintro _ ⟨g, rfl, hg⟩
    exact ⟨_, _, rfl, hg⟩
  cases a with
  | other lbl =>
    cases lbl with
    | isr cond => exact h.machine trivial
    | call op => exact h.machine hen.2.1
    | resume isr1 isr2 => exact h.machine hen.2.1
  | start op isr =>
    obtain ⟨-, -, hidle, hisr⟩ := hen
    have hfail : ∀ ret, ∃ g, some (fail c.m.k c.s ret) = some g ∧ Sound (c.after g) :=
      fun ret => ⟨_, rfl, h.after hidle h.running h.held⟩
    refine hmap ?_
    cases op with
    | read isWriter bufsz =>
      rw [start]
      split_ifs
      · exact hfail _
      · exact hfail _
      · exact h.lockAcquire hidle hs hisr (by simp)
    | write isWriter data =>
      rw [start]
      split_ifs
      · exact hfail _
      · exact hfail _
      · exact h.lockAcquire hidle hs hisr (by simp)
    | close isWriter => exact h.lockAcquire hidle hs hisr (by simp)
  | resume isr =>
    obtain ⟨hpc, hisr⟩ := hen
    have hidle : c.m.k.tp ≠ idleTid := by
      intro htp
      rw [htp] at hpc
      exact hpc h.idle.2
    obtain ⟨L, hr⟩ := h.running
    obtain ⟨H, hh⟩ := h.held
    have hbody : ∃ g, p.body isr (c.pc c.m.k.tp) c.m.k c.s = some g ∧ Sound (c.after g) := by
      obtain ⟨g, heq, hg⟩ := body_ends hr hh hidle hisr hs hpc
      exact ⟨g, heq, h.ends hidle hg⟩
    refine hmap ?_
    cases hp : c.pc c.m.k.tp with
    | user => exact absurd hp hpc
    | readLock bufsz => exact h.lockAcquireLoop hidle hs hisr (by simp)
    | writeLock data => exact h.lockAcquireLoop hidle hs hisr (by simp)
    | closeLock isWriter => exact h.lockAcquireLoop hidle hs hisr (by simp)
    | readWait bufsz =>
      rw [hp] at hbody
      exact hbody
    | writeWait data written =>
      rw [hp] at hbody
      exact hbody

end

theorem Run.sound {ok : System nl → Action nl → Prop} (h : Run p ok c) : Sound c := by
  induction h with
  | init => exact ⟨⟨_, Kernel.init_running⟩, ⟨_, Kernel.init_held⟩, rfl, rfl⟩
  | step hrun hen _ hst ih =>
    obtain ⟨c1, r1, hst1, hs1⟩ := ih.step hrun.whole.fits hen
    rw [hst] at hst1
    cases hst1
    exact hs1

/-! ## Runs in which no call blocks -/

/-- No thread that is suspended on a condition of the pipe owns its lock. -/
def NoHolderWaits (p : Pipe nl) (k : Kernel nl) : Prop :=
  ∀ t cond, k.thrtab t = true → (k.thr t).state = .waiting → (k.thr t).waitCond = some cond →
    cond = .other p.notEmpty ∨ cond = .other p.notFull → (k.lock p.lock).owner ≠ some t

/-- The segment does not have to block: no `pipe_read` finds the pipe empty while the write end
is open, and no `pipe_write` has more bytes than fit while the read end is open. -/
def Flows (c : System nl) : Action nl → Prop
  | .start (.read false bufsz) _ => 0 < bufsz → ¬ Blocks c.s (.readLock bufsz.toNat)
  | .start (.write true data) _ => ¬ Blocks c.s (.writeLock data)
  | .resume _ => ¬ Blocks c.s (c.pc c.m.k.tp)
  | _ => True

instance (c : System nl) : (a : Action nl) → Decidable (Flows c a)
  | .start (.read false bufsz) _ => inferInstanceAs
      (Decidable (0 < bufsz → ¬ Blocks c.s (.readLock bufsz.toNat)))
  | .start (.write true data) _ => inferInstanceAs (Decidable (¬ Blocks c.s (.writeLock data)))
  | .resume _ => inferInstanceAs (Decidable (¬ Blocks c.s (c.pc c.m.k.tp)))
  | .start (.read true _) _ | .start (.write false _) _ | .start (.close _) _ | .other _ =>
      isTrue trivial

/-- What holds between segments while no call blocks: the lock is free, nobody waits for it or
on a condition of the pipe, and no call of a pipe function is under way. -/
structure Flowing (p : Pipe nl) (c : System nl) : Prop where
  quiet : ∃ L, Running c.m.k L ∧ Quiet p L
  free : (c.m.k.lock p.lock).owner = none
  pc : ∀ t, c.pc t = .user
  machine : ∀ t, c.m.pc t ≠ .acquire p.lock

theorem Flowing.noHolderWaits (h : Flowing p c) : NoHolderWaits p c.m.k := by
  intro t cond _ _ _ _ ho
  rw [h.free] at ho
  cases ho

/-- A thread is suspended on a condition of the pipe and has the lock. -/
theorem Suspended.holderWaits {n : Nat} (h : Suspended k (.other n) g)
    (ho : (k.lock p.lock).owner = some k.tp) (hn : n = p.notEmpty ∨ n = p.notFull) :
    ¬ NoHolderWaits p g.k := by
  intro hno
  obtain ⟨L', hr, hmem⟩ := h.running
  obtain ⟨hlive, hst, hwc⟩ := hr.wait_of_mem _ _ hmem
  refine hno k.tp (.other n) hlive hst hwc ?_ ?_
  · rcases hn with rfl | rfl
    · exact .inl rfl
    · exact .inr rfl
  · rw [h.lock]
    exact ho

/-- A segment of other code leaves the pipe as it is. -/
theorem Flowing.other (h : Flowing p c) (hs : Sound c) (hen : c.m.Enabled lbl)
    (hout : Outside p lbl) {m' : Machine nl} (hst : c.m.step lbl = some m') :
    Flowing p { c with m := m' } := by
  obtain ⟨L, hr, hq⟩ := h.quiet
  obtain ⟨H, hh⟩ := hs.held
  obtain ⟨m1, hst1, ho, -⟩ := Machine.segment hr hh hs.idle.1 hen
  rw [hst] at hst1
  cases hst1
  have hacq : ¬ Machine.Acquires c.m p.lock lbl := by
    cases lbl with
    | call op =>
      rintro ⟨rfl, -, -⟩
      exact hout.2.1 rfl
    | resume isr1 isr2 => exact h.machine _
    | isr cond => exact id
  have hnamed : ∀ cond, Inside p cond → ¬ Machine.Named (Machine.conds lbl) cond := by
    rintro cond hin (hmem | ⟨t, rfl⟩)
    · exact hout.1 cond hmem hin
    · rcases hin with hin | hin | hin <;> cases hin
  refine ⟨?_, ?_, h.pc, ?_⟩
  · -- nobody starts to wait inside
    cases ho with
    | calm _ _ hrun hmoved => exact ⟨_, hrun, hq.moved hnamed hmoved⟩
    | isr _ _ hrun => exact ⟨_, hrun, hq.woken _⟩
    | bump => exact ⟨L, hr.congr rfl rfl rfl rfl fun _ => ⟨rfl, rfl⟩, hq⟩
    | take => exact ⟨L, hr.taken _, hq⟩
    | @wait _ l _ _ hacq' _ _ _ hrun =>
      refine ⟨_, hrun, fun cond hin => ?_⟩
      have hne : cond ≠ .lockCv l := by
        rintro rfl
        rcases hin with hin | hin | hin
        · cases hin
        · cases hin
        · cases hin
          exact hacq hacq'
      simpa [Kernel.appended, hne] using hq cond hin
    | release _ hrun => exact ⟨_, hrun, hq.released _ _⟩
    | exit _ hdrain =>
      obtain ⟨k1, L1, L', -, hq1, hmoved, hrun, -⟩ := hdrain (fun _ L => Quiet p L)
        (fun _ _ _ hq => hq.released _ _) hq
      exact ⟨L', hrun, hq1.moved hnamed hmoved⟩
  · cases howner : (m'.k.lock p.lock).owner with
    | none => rfl
    | some t =>
      have hne : (c.m.k.lock p.lock).owner ≠ some t := by
        rw [h.free]
        simp
      exact absurd (ho.granted hne howner).2.1 hacq
  · intro t ht
    cases ho with
    | calm _ _ _ _ hpc => exact h.machine t (hpc t _ ht)
    | isr => exact h.machine t ht
    | bump => exact h.machine t ht
    | take =>
      by_cases htp : t = c.m.k.tp
      · subst htp
        simp [Machine.goto] at ht
      · exact h.machine t (by simpa [Machine.goto, htp] using ht)
    | @wait _ l _ _ hacq' =>
      by_cases htp : t = c.m.k.tp
      · subst htp
        have hl : l = p.lock := by simpa [Machine.goto] using ht
        subst hl
        exact hacq hacq'
      · exact h.machine t (by simpa [Machine.goto, htp] using ht)
    | release => exact h.machine t ht
    | exit => exact h.machine t ht

theorem Flowing.pc_after (h : Flowing p c) (hg : g.pc = .user) (t : Tid) : (c.after g).pc t = .user := by
  show Function.update c.pc c.m.k.tp g.pc t = .user
  rw [hg]
  by_cases ht : t = c.m.k.tp
  · subst ht
    simp
  · rw [Function.update_of_ne ht]
    exact h.pc t

/-- A call that finds the lock free returns in its first segment, or blocks with the lock
held. -/
theorem Flowing.locked (h : Flowing p c) (hs : Sound c) (hfits : c.s.Fits)
    (hidle : c.m.k.tp ≠ idleTid) (hisr : ∀ w ∈ isr, ∀ cond ∈ w, ¬ Inside p cond) (hpc : pc ≠ .user)
    (hg : p.locked isr pc c.s (c.m.k.lockAcquire p.lock) = some g) :
    (¬ Blocks c.s pc → Flowing p (c.after g)) ∧
      (Blocks c.s pc → ¬ NoHolderWaits p (c.after g).m.k) := by
  obtain ⟨L, hr, hq⟩ := h.quiet
  obtain ⟨H, hh⟩ := hs.held
  have hnot : (c.m.k.lock p.lock).owner ≠ some c.m.k.tp := by
    rw [h.free]
    simp
  rw [Kernel.lockAcquire, if_neg hnot, Kernel.lockAcquireLoop_free h.free] at hg
  obtain ⟨g1, heq, hends⟩ := locked_ends (hr.taken p.lock) (hh.taken hr h.free) hidle hisr hfits hpc
  rw [hg] at heq
  cases heq
  have hown : ((c.m.k.taken p.lock).lock p.lock).owner = some (c.m.k.taken p.lock).tp := by
    simp [Kernel.taken]
  rcases hends with ⟨hb, hsus⟩ | ⟨hb, hret⟩
  · refine ⟨fun hnb => absurd hb hnb, fun _ => ?_⟩
    rcases hsus with hsus | hsus
    · exact Suspended.holderWaits hsus hown (.inl rfl)
    · exact Suspended.holderWaits hsus hown (.inr rfl)
  · refine ⟨fun _ => ?_, fun hb' => absurd hb' hb⟩
    obtain ⟨L', hr', hq'⟩ := hret.running
    refine ⟨⟨L', hr', hq' hq⟩, ?_, h.pc_after hret.pc, h.machine⟩
    show (g.k.lock p.lock).owner = none
    rw [hret.lock, Function.update_self, Kernel.released, if_pos hown]
    simp [Kernel.taken]

theorem Flowing.fail (h : Flowing p c) (ret : PipeRet) : Flowing p (c.after (fail c.m.k c.s ret)) :=
  ⟨h.quiet, h.free, h.pc_after rfl, h.machine⟩

/-- As long as no call blocks, the next segment either blocks and leaves an owner of the lock
waiting, or keeps things flowing. -/
theorem Flowing.step (h : Flowing p c) (hs : Sound c) (hfits : c.s.Fits) (hen : c.Enabled p a)
    (hst : c.step p a = some (c', r)) :
    (Flows c a → Flowing p c') ∧ (¬ Flows c a → ¬ NoHolderWaits p c'.m.k) := by
  cases a with
  | other lbl =>
    obtain ⟨m', hm, heq⟩ := Option.map_eq_some_iff.mp hst
    cases heq
    refine ⟨fun _ => ?_, fun hno => absurd trivial hno⟩
    cases lbl with
    | isr cond =>
      have hout : Outside p (.isr cond) := by
        refine ⟨fun cond' hmem => ?_, by simp, by simp⟩
        rw [List.mem_singleton.mp hmem]
        exact hen
      have hen' : c.m.Enabled (.isr cond) := trivial
      exact h.other hs hen' hout hm
    | call op => exact h.other hs hen.2.1 hen.2.2 hm
    | resume isr1 isr2 => exact h.other hs hen.2.1 hen.2.2 hm
  | start op isr =>
    obtain ⟨-, -, hidle, hisr⟩ := hen
    obtain ⟨g, hg, heq⟩ := Option.map_eq_some_iff.mp hst
    cases heq
    cases op with
    | read isWriter bufsz =>
      cases isWriter with
      | true =>
        cases hg
        exact ⟨fun _ => h.fail _, fun hno => absurd trivial hno⟩
      | false =>
        rw [start, if_neg Bool.false_ne_true] at hg
        by_cases hb : bufsz ≤ 0
        · rw [if_pos hb] at hg
          cases hg
          exact ⟨fun _ => h.fail _, fun hno => absurd (fun hpos => by omega) hno⟩
        · rw [if_neg hb] at hg
          have hpos : 0 < bufsz := by omega
          obtain ⟨hflow, hblock⟩ := h.locked hs hfits hidle hisr (by simp) hg
          refine ⟨fun hf => hflow (hf hpos), fun hno => hblock ?_⟩
          by_contra hnb
          exact hno fun _ => hnb
    | write isWriter data =>
      cases isWriter with
      | false =>
        cases hg
        exact ⟨fun _ => h.fail _, fun hno => absurd trivial hno⟩
      | true =>
        rw [start, if_neg (by simp)] at hg
        by_cases hd : data = []
        · subst hd
          rw [if_pos rfl] at hg
          cases hg
          exact ⟨fun _ => h.fail _, fun hno => absurd (fun hb => Nat.not_le_of_lt hb.2 hfits) hno⟩
        · rw [if_neg hd] at hg
          obtain ⟨hflow, hblock⟩ := h.locked hs hfits hidle hisr (by simp) hg
          exact ⟨hflow, fun hno => hblock (not_not.mp hno)⟩
    | close isWriter =>
      rw [start] at hg
      obtain ⟨hflow, -⟩ := h.locked hs hfits hidle hisr (by simp) hg
      exact ⟨fun _ => hflow id, fun hno => absurd trivial hno⟩
  | resume isr => exact absurd (h.pc _) hen.1

theorem Run.flowing (h : Run p Flows c) : Flowing p c := by
  induction h with
  | init =>
    refine ⟨⟨_, Kernel.init_running, fun cond _ => ?_⟩, rfl, fun t => rfl, fun t => nofun⟩
    rw [if_neg (by simp)]
  | step hrun hen hok hst ih => exact (ih.step hrun.sound hrun.whole.fits hen hst).1 hok

/-- As long as no call has to block, no thread that is suspended on a condition of the pipe
owns the lock, and the first call that blocks ends this: its thread waits and owns the lock. -/
theorem pipe_wait_unlocked (h : Run p Flows c) :
    NoHolderWaits p c.m.k ∧
    ∀ a c' r, c.Enabled p a → c.step p a = some (c', r) → (NoHolderWaits p c'.m.k ↔ Flows c a) := by
  have hf := h.flowing
  refine ⟨hf.noHolderWaits, fun a c' r hen hst => ?_⟩
  obtain ⟨hkeep, hbreak⟩ := hf.step h.sound h.whole.fits hen hst
  constructor
  · intro hno
    by_contra hnf
    exact hbreak hnf hno
  · intro hflow
    exact (hkeep hflow).noHolderWaits

/-- The main thread writes three bytes and reads two of them, and blocks in neither call. -/
theorem pipe_wait_unlocked_partial_read : ∃ c : System 1,
    Run { lock := 0, notEmpty := 0, notFull := 1, ne := by decide } Flows c ∧
      c.delivered = [1, 2] ∧
      NoHolderWaits { lock := 0, notEmpty := 0, notFull := 1, ne := by decide } c.m.k := by
  have heval : (exec { lock := 0, notEmpty := 0, notFull := 1, ne := by decide } Flows
      (init : System 1) [.start (.write true [1, 2, 3]) [], .start (.read false 2) []]).map
        (fun c => c.delivered) = some [1, 2] := by
    decide +kernel
  obtain ⟨c, hc, hval⟩ := Option.map_eq_some_iff.mp heval
  have hrun := Run.init.exec hc
  exact ⟨c, hrun, hval, (pipe_wait_unlocked hrun).1⟩

/-- The main thread reads from an empty pipe and waits with the lock held, and the thread that
comes to write waits for the lock. -/
theorem pipe_reader_holds_lock : ∃ c : System 1,
    Run { lock := 0, notEmpty := 0, notFull := 1, ne := by decide } (fun _ _ => True) c ∧
      c.pc mainTid = .readWait 1 ∧ (c.m.k.thr mainTid).state = .waiting ∧
      (c.m.k.thr mainTid).waitCond = some (.other 0) ∧ (c.m.k.lock 0).owner = some mainTid ∧
      c.pc 1 = .writeLock [7] ∧ (c.m.k.thr 1).waitCond = some (.lockCv 0) ∧
      ¬ NoHolderWaits { lock := 0, notEmpty := 0, notFull := 1, ne := by decide } c.m.k := by
  have heval : (exec { lock := 0, notEmpty := 0, notFull := 1, ne := by decide } (fun _ _ => True)
      (init : System 1) [.other (.call .spawn), .start (.read false 1) [], .other (.call .yield),
        .start (.write true [7]) []]).map (fun c => decide (c.pc mainTid = .readWait 1 ∧
          c.m.k.thrtab mainTid = true ∧ (c.m.k.thr mainTid).state = .waiting ∧
          (c.m.k.thr mainTid).waitCond = some (.other 0) ∧ (c.m.k.lock 0).owner = some mainTid ∧
          c.pc 1 = .writeLock [7] ∧ (c.m.k.thr 1).waitCond = some (.lockCv 0))) = some true := by
    decide +kernel
  obtain ⟨c, hc, hval⟩ := Option.map_eq_some_iff.mp heval
  obtain ⟨hpc, hlive, hst, hwc, hown, hpc1, hwc1⟩ := of_decide_eq_true hval
  refine ⟨c, Run.init.exec hc, hpc, hst, hwc, hown, hpc1, hwc1, fun hno => ?_⟩
  exact hno mainTid (.other 0) hlive hst hwc (.inl rfl) hown

end System

end Pipe

end MiniOs
