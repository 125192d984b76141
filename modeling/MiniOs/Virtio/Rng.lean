import MiniOs.Base.Runs
import MiniOs.Virtio.Queue
import Mathlib.Data.Fintype.Basic

/-!
# The entropy driver (`viorng.c`)

`RngPhase` says before which statement of `viorng_read` a thread is; the writes of the
descriptor and of the one ring entry are one step, since nothing reads them before the index of
the available ring is advanced.  The device serves a published buffer at any time, so also
between two statements of the thread that runs.

`published`, `served` and `consumed` count the buffers handed to the device, those it has
filled, and those whose completion some call has taken note of (`last_used_idx`).  `filled`
holds, for each byte of the buffer, what the device wrote there, and `handed` what the calls
handed out.  Where a call waits, `req` is the number of its own request.
-/

namespace MiniOs

/-- `VIORNG_BUFSZ`. -/
abbrev viorngBufsz : Nat := 256

/-- `struct viorng_device`, the device's position in the available ring, and the history. -/
structure Viorng where
  lastUsedIdx : BitVec 16
  availIdx : BitVec 16
  /-- `avail.ring[0]`. -/
  availRing : BitVec 16
  usedIdx : BitVec 16
  /-- `used.ring[0].len`. -/
  usedLen : BitVec 32
  desc : VirtqDesc (BitVec 64)
  bufcnt : BitVec 32
  buf : Nat → UInt8
  /-- Where `buf` is. -/
  bufAddr : BitVec 64
  devIdx : BitVec 16
  published : Nat
  served : Nat
  consumed : Nat
  filled : Nat → List UInt8
  handed : List (Nat × UInt8)

namespace Viorng

/-- The device after `viorng_attach`, which clears it. -/
def attached (bufAddr : BitVec 64) : Viorng where
  lastUsedIdx := 0
  availIdx := 0
  availRing := 0
  usedIdx := 0
  usedLen := 0
  desc := ⟨0, 0, 0, 0⟩
  bufcnt := 0
  buf := fun _ => 0
  bufAddr := bufAddr
  devIdx := 0
  published := 0
  served := 0
  consumed := 0
  filled := fun _ => []
  handed := []

/-- The descriptor of a refill. -/
def refill (d : Viorng) : VirtqDesc (BitVec 64) :=
  ⟨d.bufAddr, BitVec.ofNat 32 viorngBufsz, virtqDescFWrite, 0⟩

/-- The device fills a published buffer with `data`.  There is no result when none is published,
or the descriptor does not describe room for the data in `buf`. -/
def serve (d : Viorng) (data : List UInt8) : Option Viorng :=
  if d.devIdx ≠ d.availIdx ∧ d.desc.addr = d.bufAddr ∧ d.desc.flags = virtqDescFWrite ∧
      data.length ≤ d.desc.len.toNat then
    some { d with
      buf := fun i => data[i]?.getD (d.buf i)
      filled := fun i => d.filled i ++ data[i]?.toList
      usedLen := BitVec.ofNat 32 data.length
      usedIdx := d.usedIdx + 1
      devIdx := d.devIdx + 1
      served := d.served + 1 }
  else none

end Viorng

/-- Before which statement of `viorng_read` a thread is.  `got` is what it has copied. -/
inductive RngPhase where
  | out
  /-- At the test of the outer loop, and at that of `bufcnt`. -/
  | test (bufsz : Int) (got : List UInt8)
  | check (bufsz : Int) (got : List UInt8)
  /-- Before the descriptor is written, and before the index is advanced. -/
  | fill (bufsz : Int) (got : List UInt8)
  | publish (bufsz : Int) (got : List UInt8)
  /-- At the test of the inner loop, and in its `thread_yield`. -/
  | wait (bufsz : Int) (got : List UInt8) (req : Nat)
  | yield (bufsz : Int) (got : List UInt8) (req : Nat)
  /-- Before `bufcnt` is set, and before `last_used_idx` is. -/
  | harvest (bufsz : Int) (got : List UInt8) (req : Nat)
  | ack (bufsz : Int) (got : List UInt8) (req : Nat)
  | take (bufsz : Int) (got : List UInt8)
  | ret (got : List UInt8)
deriving DecidableEq

namespace RngPhase

/-- Outside the call, or in its `thread_yield`. -/
def suspended : RngPhase → Bool
  | .out | .yield .. => true
  | _ => false

/-- At the test of `bufcnt`. -/
def checks : RngPhase → Bool
  | .check .. => true
  | _ => false

/-- Waiting for the completion of request `req`. -/
def waitsFor : RngPhase → Option Nat
  | .wait _ _ req | .yield _ _ req => some req
  | _ => none

/-- Between the test that found the buffer empty and the note of the completion. -/
def refilling : RngPhase → Bool
  | .fill .. | .publish .. | .wait .. | .yield .. | .harvest .. | .ack .. => true
  | _ => false

end RngPhase

/-- One statement of `viorng_read`. -/
def Viorng.statement (d : Viorng) : RngPhase → Option (Viorng × RngPhase)
  | .test bufsz got => some (d, if got.length < bufsz then .check bufsz got else .ret got)
  | .check bufsz got => some (d, if d.bufcnt = 0 then .fill bufsz got else .take bufsz got)
  | .fill bufsz got => some ({ d with desc := d.refill, availRing := 0 }, .publish bufsz got)
  | .publish bufsz got =>
      some ({ d with availIdx := d.availIdx + 1, published := d.published + 1 },
        .wait bufsz got d.published)
  | .wait bufsz got req =>
      some (d, if d.usedIdx = d.lastUsedIdx then .yield bufsz got req else .harvest bufsz got req)
  | .yield bufsz got req => some (d, .wait bufsz got req)
  | .harvest bufsz got req => some ({ d with bufcnt := d.usedLen }, .ack bufsz got req)
  | .ack bufsz got _ =>
      some ({ d with lastUsedIdx := d.usedIdx, consumed := d.served }, .take bufsz got)
  | .take bufsz got =>
      let bufcnt := d.bufcnt - 1
      let c := d.buf bufcnt.toNat
      some ({ d with bufcnt := bufcnt, handed := d.handed ++ [(bufcnt.toNat, c)] },
        .test bufsz (got ++ [c]))
  | .out | .ret _ => none

/-- The device, and where each thread is. -/
structure RngPort (T : Type) where
  dev : Viorng
  phase : T → RngPhase

/-- What can happen next. -/
inductive RngLabel (T : Type) where
  | read (t : T) (bufsz : Int)
  | run (t : T)
  | ret (t : T)
  | serve (data : List UInt8)

namespace RngPort

variable {T : Type} [DecidableEq T]

/-- The port with thread `t` at `ph`. -/
def goto (p : RngPort T) (t : T) (ph : RngPhase) : RngPort T :=
  { p with phase := Function.update p.phase t ph }

@[simp]
theorem phase_goto_self (p : RngPort T) (t : T) (ph : RngPhase) : (p.goto t ph).phase t = ph :=
  Function.update_self ..

theorem phase_goto_of_ne (p : RngPort T) {t u : T} (h : u ≠ t) (ph : RngPhase) :
    (p.goto t ph).phase u = p.phase u :=
  Function.update_of_ne h _ _

/-- One step.  There is no result when the thread is not where the step begins, or the device
has nothing to serve. -/
def step (p : RngPort T) : RngLabel T → Option (RngPort T)
  | .read t bufsz =>
      match p.phase t with
      | .out => some (p.goto t (if bufsz ≤ 0 then .ret [] else .test bufsz []))
      | _ => none
  | .run t => (p.dev.statement (p.phase t)).map fun (d, ph) => { p.goto t ph with dev := d }
  | .ret t =>
      match p.phase t with
      | .ret _ => some (p.goto t .out)
      | _ => none
  | .serve data => (p.dev.serve data).map fun d => { p with dev := d }

omit [DecidableEq T] in
/-- Kernel code is not preempted: a thread goes on only while all others are suspended.  The
device reports a length between 1 and 256. -/
def Enabled (p : RngPort T) : RngLabel T → Prop
  | .read t _ | .run t | .ret t => ∀ u, u ≠ t → (p.phase u).suspended = true
  | .serve data => 1 ≤ data.length ∧ data.length ≤ viorngBufsz

/-- The states that runs reach from `viorng_attach` by steps that satisfy `ok`. -/
inductive Run (ok : RngPort T → RngLabel T → Prop) : RngPort T → Prop where
  | attached (bufAddr : BitVec 64) : Run ok ⟨.attached bufAddr, fun _ => .out⟩
  | step {p p' : RngPort T} (lbl : RngLabel T) : Run ok p → p.Enabled lbl → ok p lbl →
      p.step lbl = some p' → Run ok p'

end RngPort

/-! ## One request at a time -/

namespace Viorng

variable {d d' : Viorng}

/-- The indices are those of the numbers, at most one request is under way, and the bytes that
are there were written by the device. -/
structure Counted (d : Viorng) : Prop where
  availIdx : d.availIdx = ringIdx d.published
  devIdx : d.devIdx = ringIdx d.served
  usedIdx : d.usedIdx = ringIdx d.served
  lastUsedIdx : d.lastUsedIdx = ringIdx d.consumed
  consumed : d.consumed ≤ d.served
  served : d.served ≤ d.published
  published : d.published ≤ d.consumed + 1
  bufcnt : d.bufcnt.toNat ≤ viorngBufsz ∧ ∀ i < d.bufcnt.toNat, d.filled i ≠ []
  usedLen : 0 < d.served → 0 < d.usedLen.toNat ∧ d.usedLen.toNat ≤ viorngBufsz ∧
    ∀ i < d.usedLen.toNat, d.filled i ≠ []
  buf : ∀ i, d.filled i ≠ [] → d.buf i ∈ d.filled i
  handed : ∀ x ∈ d.handed, x.1 < viorngBufsz ∧ x.2 ∈ d.filled x.1

/-- What a thread has seen of the device still holds. -/
def PhaseOk (d : Viorng) : RngPhase → Prop
  | .fill .. => d.published = d.consumed ∧ d.bufcnt = 0
  | .publish .. => d.published = d.consumed ∧ d.bufcnt = 0 ∧ d.desc = d.refill
  | .wait _ _ req | .yield _ _ req =>
      d.published = req + 1 ∧ d.consumed = req ∧ d.bufcnt = 0 ∧ d.desc = d.refill
  | .harvest _ _ req => d.published = req + 1 ∧ d.consumed = req ∧ d.served = req + 1
  | .ack _ _ req =>
      d.published = req + 1 ∧ d.consumed = req ∧ d.served = req + 1 ∧ d.bufcnt ≠ 0
  | .take .. => d.bufcnt ≠ 0
  | _ => True

/-- The device fills the buffer of the one request that is under way. -/
theorem Counted.serve (h : Counted d) {data : List UInt8} (hpos : 1 ≤ data.length)
    (hle : data.length ≤ viorngBufsz) (hd : d.serve data = some d') :
    Counted d' ∧ d.served = d.consumed ∧ d.published = d.consumed + 1 ∧
      ∀ ph, d.PhaseOk ph → d'.PhaseOk ph := by
  rw [Viorng.serve] at hd
  split at hd
  case isFalse => cases hd
  case isTrue hc =>
    cases hd
    have hcons := h.consumed
    have hserv := h.served
    have hpub := h.published
    have hne : d.served ≠ d.published := by
      intro heq
      exact hc.1 (by rw [h.devIdx, h.availIdx, heq])
    have hlen : (BitVec.ofNat 32 data.length).toNat = data.length :=
      Nat.mod_eq_of_lt (Nat.lt_of_le_of_lt hle (by decide))
    have hkeep : ∀ i, d.filled i ≠ [] → d.filled i ++ data[i]?.toList ≠ [] := by
      intro i hi heq
      exact hi (List.append_eq_nil_iff.mp heq).1
    refine ⟨?_, by omega, by omega, ?_⟩
    · refine ⟨h.availIdx, ?_, ?_, h.lastUsedIdx, by simp only; omega, by simp only; omega, hpub,
        ⟨h.bufcnt.1, fun i hi => hkeep i (h.bufcnt.2 i hi)⟩, fun _ => ?_, ?_, ?_⟩
      · show d.devIdx + 1 = ringIdx (d.served + 1)
        rw [h.devIdx, ringIdx_succ]
      · show d.usedIdx + 1 = ringIdx (d.served + 1)
        rw [h.usedIdx, ringIdx_succ]
      · show 0 < (BitVec.ofNat 32 data.length).toNat ∧ (BitVec.ofNat 32 data.length).toNat ≤ _ ∧
          ∀ i < (BitVec.ofNat 32 data.length).toNat, d.filled i ++ data[i]?.toList ≠ []
        rw [hlen]
        refine ⟨hpos, hle, fun i hi heq => ?_⟩
        rw [List.getElem?_eq_getElem hi] at heq
        simp at heq
      · intro i hi
        show data[i]?.getD (d.buf i) ∈ d.filled i ++ data[i]?.toList
        cases hdata : data[i]? with
        | none =>
          have hold : d.filled i ≠ [] := by
            intro heq
            apply hi
            show d.filled i ++ data[i]?.toList = []
            rw [hdata, heq]
            rfl
          rw [Option.getD_none]
          exact List.mem_append_left _ (h.buf i hold)
        | some c => exact List.mem_append_right _ (List.mem_singleton_self c)
      · intro x hx
        exact ⟨(h.handed x hx).1, List.mem_append_left _ (h.handed x hx).2⟩
    · intro ph hph
      cases ph with
      | harvest bufsz got req | ack bufsz got req =>
        have hp1 := hph.1
        have hp2 := hph.2.2
        simp only [PhaseOk] at hph ⊢
        omega
      | fill | publish | wait | yield | take => exact hph
      | out | test | check | ret => trivial

/-- A statement of a thread that starts a refill only when no request is under way. -/
theorem Counted.statement (h : Counted d) {ph ph' : RngPhase} (hph : d.PhaseOk ph)
    (hidle : ph.refilling = false → ph'.refilling = true → d.published = d.consumed)
    (hst : d.statement ph = some (d', ph')) : Counted d' ∧ d'.PhaseOk ph' := by
  have hcons := h.consumed
  have hserv := h.served
  cases ph with
  | out | ret => cases hst
  | test bufsz got =>
    cases hst
    refine ⟨h, ?_⟩
    split <;> trivial
  | check bufsz got =>
    cases hst
    refine ⟨h, ?_⟩
    by_cases hb : d.bufcnt = 0
    · rw [if_pos hb] at hidle ⊢
      exact ⟨hidle rfl rfl, hb⟩
    · rw [if_neg hb]
      exact hb
  | fill bufsz got =>
    cases hst
    exact ⟨{ h with }, hph.1, hph.2, rfl⟩
  | publish bufsz got =>
    cases hst
    obtain ⟨heq, hb, hd⟩ := hph
    refine ⟨{ h with availIdx := ?_, served := Nat.le_succ_of_le hserv, published := ?_ }, rfl,
      heq.symm, hb, hd⟩
    · show d.availIdx + 1 = ringIdx (d.published + 1)
      rw [h.availIdx, ringIdx_succ]
    · exact Nat.succ_le_succ (Nat.le_of_eq heq)
  | wait bufsz got req =>
    cases hst
    obtain ⟨hp, hc, hb, hd⟩ := hph
    have hdone : d.usedIdx = d.lastUsedIdx ↔ d.served = d.consumed := by
      rw [h.usedIdx, h.lastUsedIdx]
      exact ringIdx_eq_iff hcons (by omega)
    refine ⟨h, ?_⟩
    by_cases hu : d.usedIdx = d.lastUsedIdx
    · rw [if_pos hu]
      exact ⟨hp, hc, hb, hd⟩
    · rw [if_neg hu]
      have hne : d.served ≠ d.consumed := fun heq => hu (hdone.mpr heq)
      exact ⟨hp, hc, by omega⟩
  | yield bufsz got req =>
    cases hst
    exact ⟨h, hph⟩
  | harvest bufsz got req =>
    cases hst
    obtain ⟨hp, hc, hs⟩ := hph
    obtain ⟨hpos, hle, hfill⟩ := h.usedLen (by omega)
    refine ⟨{ h with bufcnt := ⟨hle, hfill⟩ }, hp, hc, hs, ?_⟩
    show d.usedLen ≠ 0
    intro hz
    rw [hz] at hpos
    cases hpos
  | ack bufsz got req =>
    cases hst
    obtain ⟨hp, hc, hs, hb⟩ := hph
    exact ⟨{ h with
      lastUsedIdx := h.usedIdx
      consumed := Nat.le_refl _
      published := by simp only; omega }, hb⟩
  | take bufsz got =>
    cases hst
    have hb : d.bufcnt ≠ 0 := hph
    have hcnt : (d.bufcnt - 1).toNat + 1 = d.bufcnt.toNat := by bv_omega
    obtain ⟨hle, hfill⟩ := h.bufcnt
    have hlast := hfill (d.bufcnt - 1).toNat (by omega)
    refine ⟨{ h with
      bufcnt := ⟨by simp only; omega, fun i hi => hfill i (by simp only at hi; omega)⟩
      handed := fun x hx => ?_ }, trivial⟩
    rcases List.mem_append.mp hx with hx | hx
    · exact h.handed x hx
    · rw [List.mem_singleton.mp hx]
      refine ⟨?_, h.buf _ hlast⟩
      omega

/-- When a refill ends, no request is under way. -/
theorem statement_refilled {ph ph' : RngPhase} (hph : d.PhaseOk ph)
    (hst : d.statement ph = some (d', ph')) (hold : ph.refilling = true)
    (hnew : ph'.refilling = false) : d'.published = d'.consumed := by
  cases ph with
  | out | test | check | take | ret => cases hold
  | fill | publish | yield | harvest =>
    cases hst
    cases hnew
  | wait =>
    cases hst
    split at hnew <;> cases hnew
  | ack =>
    cases hst
    obtain ⟨hp, -, hs, -⟩ := hph
    exact hp.trans hs.symm

/-- Outside a refill nothing that a waiting call relies on changes. -/
theorem statement_outside {ph ph' : RngPhase} (hph : d.PhaseOk ph)
    (hst : d.statement ph = some (d', ph')) (hold : ph.refilling = false) :
    d'.published = d.published ∧ d'.consumed = d.consumed ∧ d'.desc = d.desc ∧
      d'.bufAddr = d.bufAddr ∧ (d.bufcnt = 0 → d'.bufcnt = 0) := by
  cases ph with
  | out | ret => cases hst
  | test | check =>
    cases hst
    exact ⟨rfl, rfl, rfl, rfl, id⟩
  | take =>
    cases hst
    exact ⟨rfl, rfl, rfl, rfl, fun hz => absurd hz hph⟩
  | fill | publish | wait | yield | harvest | ack => cases hold

end Viorng

namespace RngPort

variable {T : Type} {p p' : RngPort T}

/-- What holds between steps when no two calls wait at the same time. -/
structure Single (p : RngPort T) : Prop where
  counted : p.dev.Counted
  phase : ∀ t, p.dev.PhaseOk (p.phase t)
  one : ∀ t u, (p.phase t).refilling = true → (p.phase u).refilling = true → t = u
  idle : (∀ t, (p.phase t).refilling = false) → p.dev.published = p.dev.consumed

theorem single_attached (bufAddr : BitVec 64) :
    Single (⟨.attached bufAddr, fun _ => .out⟩ : RngPort T) := by
  refine ⟨⟨rfl, rfl, rfl, rfl, Nat.le_refl _, Nat.le_refl _, Nat.zero_le _, ⟨Nat.zero_le _, ?_⟩, ?_, ?_,
    ?_⟩, fun _ => trivial, fun t u ht => (by cases ht), fun _ => rfl⟩
  · intro i hi
    exact absurd hi (Nat.not_lt_zero i)
  · intro h
    cases h
  · intro i hi
    exact absurd rfl hi
  · intro x hx
    cases hx

/-- A call finds the buffer empty only while no other call waits. -/
def Alone (p : RngPort T) : RngLabel T → Prop
  | .run t => (p.phase t).checks = true → p.dev.bufcnt = 0 →
      ∀ u, u ≠ t → (p.phase u).waitsFor = none
  | .read .. | .ret _ | .serve _ => True

variable [DecidableEq T]

/-- Thread `t` starts or ends a call. -/
theorem Single.goto (h : Single p) {t : T} {ph : RngPhase} (hold : (p.phase t).refilling = false)
    (hnew : ph.refilling = false) (hok : p.dev.PhaseOk ph) : Single (p.goto t ph) := by
  have hsame : ∀ u, ((p.goto t ph).phase u).refilling = (p.phase u).refilling := by
    intro u
    by_cases hu : u = t
    · rw [hu, phase_goto_self, hold, hnew]
    · rw [phase_goto_of_ne p hu]
  refine ⟨h.counted, fun u => ?_, fun u v hu hv => ?_, fun hall => h.idle fun u => ?_⟩
  · show p.dev.PhaseOk ((p.goto t ph).phase u)
    by_cases hu : u = t
    · rw [hu, phase_goto_self]
      exact hok
    · rw [phase_goto_of_ne p hu]
      exact h.phase u
  · rw [hsame] at hu hv
    exact h.one u v hu hv
  · rw [← hsame]
    exact hall u

/-- A statement of thread `t`. -/
theorem Single.run (h : Single p) {t : T} (hen : p.Enabled (.run t)) (halone : p.Alone (.run t))
    (hst : p.step (.run t) = some p') : Single p' := by
  obtain ⟨⟨d, ph⟩, heq, rfl⟩ := Option.map_eq_some_iff.mp hst
  -- The others are outside or yield, and none of them yields when `t` starts a refill.
  have hothers : (p.phase t).refilling = true ∨ ph.refilling = true →
      ∀ u, u ≠ t → (p.phase u).refilling = false := by
    intro hrefill u hu
    cases hr : (p.phase u).refilling with
    | false => rfl
    | true =>
      exfalso
      rcases hrefill with ht | ht
      · exact hu (h.one u t hr ht)
      · cases hp : p.phase t with
        | check bufsz got =>
          rw [hp] at heq
          cases heq
          by_cases hb : p.dev.bufcnt = 0
          · have hw := halone (by rw [hp]; rfl) hb u hu
            have hsusp := hen u hu
            cases hpu : p.phase u <;> rw [hpu] at hr hw hsusp <;>
              simp_all [RngPhase.refilling, RngPhase.suspended, RngPhase.waitsFor]
          · rw [if_neg hb] at ht
            cases ht
        | test bufsz got =>
          rw [hp] at heq
          cases heq
          split at ht <;> cases ht
        | take bufsz got =>
          rw [hp] at heq
          cases heq
          cases ht
        | out | ret =>
          rw [hp] at heq
          cases heq
        | fill | publish | wait | yield | harvest | ack => exact hu (h.one u t hr (by rw [hp]; rfl))
  have hidle : (p.phase t).refilling = false → ph.refilling = true →
      p.dev.published = p.dev.consumed := by
    intro hold hnew
    refine h.idle fun u => ?_
    by_cases hu : u = t
    · rw [hu]
      exact hold
    · exact hothers (.inr hnew) u hu
  obtain ⟨hcount, hok⟩ := h.counted.statement (h.phase t) hidle heq
  have hkeep := Viorng.statement_outside (h.phase t) heq
  have hnew : ∀ w, ((p.goto t ph).phase w).refilling = true →
      w = t ∧ ph.refilling = true ∨ w ≠ t ∧ (p.phase w).refilling = true := by
    intro w hw
    by_cases hwt : w = t
    · rw [hwt, phase_goto_self] at hw
      exact .inl ⟨hwt, hw⟩
    · rw [phase_goto_of_ne p hwt] at hw
      exact .inr ⟨hwt, hw⟩
  refine ⟨hcount, fun u => ?_, fun u v hu hv => ?_, fun hall => ?_⟩
  · show d.PhaseOk ((p.goto t ph).phase u)
    by_cases hu : u = t
    · rw [hu, phase_goto_self]
      exact hok
    · rw [phase_goto_of_ne p hu]
      have hsusp := hen u hu
      have hold := h.phase u
      cases hpu : p.phase u with
      | out => trivial
      | yield bufsz got req =>
        rw [hpu] at hold
        have hnot : (p.phase t).refilling = false := by
          cases ht : (p.phase t).refilling with
          | false => rfl
          | true =>
            have := hothers (.inl ht) u hu
            rw [hpu] at this
            cases this
        obtain ⟨hp, hc, hd, ha, hb⟩ := hkeep hnot
        obtain ⟨h1, h2, h3, h4⟩ := hold
        refine ⟨hp.trans h1, hc.trans h2, hb h3, ?_⟩
        rw [hd, h4, Viorng.refill, Viorng.refill, ha]
      | test | check | fill | publish | wait | harvest | ack | take | ret =>
        rw [hpu] at hsusp
        cases hsusp
  · rcases hnew u hu with ⟨rfl, hu'⟩ | ⟨hut, hu'⟩ <;> rcases hnew v hv with ⟨rfl, hv'⟩ | ⟨hvt, hv'⟩
    · rfl
    · rw [hothers (.inr hu') v hvt] at hv'
      cases hv'
    · rw [hothers (.inr hv') u hut] at hu'
      cases hu'
    · exact h.one u v hu' hv'
  · show d.published = d.consumed
    have hall' : ∀ u, ((p.goto t ph).phase u).refilling = false := hall
    have hph := hall' t
    rw [phase_goto_self] at hph
    cases ht : (p.phase t).refilling with
    | true => exact Viorng.statement_refilled (h.phase t) heq ht hph
    | false =>
      obtain ⟨hp, hc, -⟩ := hkeep ht
      rw [hp, hc]
      refine h.idle fun u => ?_
      by_cases hu : u = t
      · rw [hu]
        exact ht
      · rw [← phase_goto_of_ne p hu ph]
        exact hall' u

theorem Single.step (h : Single p) {lbl : RngLabel T} (hen : p.Enabled lbl) (halone : p.Alone lbl)
    (hst : p.step lbl = some p') : Single p' := by
  cases lbl with
  | run t => exact h.run hen halone hst
  | read t bufsz =>
    cases hp : p.phase t with
    | out =>
      simp only [RngPort.step, hp] at hst
      cases hst
      refine h.goto (by rw [hp]; rfl) ?_ ?_ <;> split <;> trivial
    | _ =>
      simp only [RngPort.step, hp] at hst
      cases hst
  | ret t =>
    cases hp : p.phase t with
    | ret got =>
      simp only [RngPort.step, hp] at hst
      cases hst
      exact h.goto (by rw [hp]; rfl) rfl trivial
    | _ =>
      simp only [RngPort.step, hp] at hst
      cases hst
  | serve data =>
    obtain ⟨d, heq, rfl⟩ := Option.map_eq_some_iff.mp hst
    obtain ⟨hcount, -, hpub, hkeep⟩ := h.counted.serve hen.1 hen.2 heq
    refine ⟨hcount, fun t => hkeep _ (h.phase t), h.one, fun hall => ?_⟩
    have := h.idle hall
    omega

/-- In every run in which a call finds the buffer empty only while no other call waits: at most
one buffer is published and unserved, no call waits for a completion that was consumed, and
every byte handed out was written by the device to its place in the buffer. -/
theorem viorng_single_request (h : Run Alone p) :
    p.dev.published ≤ p.dev.served + 1 ∧
      (∀ t req, (p.phase t).waitsFor = some req → p.dev.consumed ≤ req) ∧
      ∀ x ∈ p.dev.handed, x.1 < viorngBufsz ∧ x.2 ∈ p.dev.filled x.1 := by
  have hs : Single p := by
    induction h with
    | attached bufAddr => exact single_attached bufAddr
    | step lbl _ hen hok hst ih => exact ih.step hen hok hst
  have hcons := hs.counted.consumed
  have hpub := hs.counted.published
  refine ⟨by omega, fun t req ht => ?_, hs.counted.handed⟩
  have hph := hs.phase t
  cases hp : p.phase t with
  | wait bufsz got req' | yield bufsz got req' =>
    rw [hp] at ht hph
    cases ht
    exact Nat.le_of_eq hph.2.1
  | out | test | check | fill | publish | harvest | ack | take | ret =>
    rw [hp] at ht
    cases ht

section Exec

variable [Fintype T]

instance (p : RngPort T) : (lbl : RngLabel T) → Decidable (p.Enabled lbl)
  | .read t _ | .run t | .ret t =>
      inferInstanceAs (Decidable (∀ u, u ≠ t → (p.phase u).suspended = true))
  | .serve data => inferInstanceAs (Decidable (1 ≤ data.length ∧ data.length ≤ viorngBufsz))

instance (p : RngPort T) : (lbl : RngLabel T) → Decidable (p.Alone lbl)
  | .run t => inferInstanceAs (Decidable ((p.phase t).checks = true → p.dev.bufcnt = 0 →
      ∀ u, u ≠ t → (p.phase u).waitsFor = none))
  | .read .. | .ret _ | .serve _ => isTrue trivial

/-- The state after a given run, if each of its steps can come next and satisfies `ok`. -/
def exec (ok : RngPort T → RngLabel T → Prop) [∀ p lbl, Decidable (ok p lbl)] (p : RngPort T) :
    List (RngLabel T) → Option (RngPort T)
  | [] => some p
  | lbl :: lbls =>
      if p.Enabled lbl ∧ ok p lbl then (p.step lbl).bind fun p' => exec ok p' lbls else none

theorem Run.exec {ok : RngPort T → RngLabel T → Prop} [∀ p lbl, Decidable (ok p lbl)]
    {lbls : List (RngLabel T)} (h : Run ok p) (heq : RngPort.exec ok p lbls = some p') : Run ok p' :=
  keeps_of_run (fun _ => rfl) (fun _ _ _ => rfl) (fun h hen => h.step _ hen.1 hen.2) h heq

end Exec

/-- One call reads two bytes. -/
theorem viorng_single_request_read : ∃ p : RngPort Unit, Run Alone p ∧
    p.dev.handed = [(1, 8), (0, 7)] ∧ ∀ x ∈ p.dev.handed, x.1 < viorngBufsz ∧ x.2 ∈ p.dev.filled x.1 := by
  have heval : (exec Alone (⟨.attached 0, fun _ => .out⟩ : RngPort Unit)
      ([.read () 2, .run (), .run (), .run (), .run (), .run (), .serve [7, 8]] ++
        List.replicate 8 (.run ()))).map (fun p => p.dev.handed) = some [(1, 8), (0, 7)] := by
    decide +kernel
  obtain ⟨p, hp, hd⟩ := Option.map_eq_some_iff.mp heval
  have hrun : Run Alone p := (Run.attached 0).exec hp
  exact ⟨p, hrun, hd, (viorng_single_request hrun).2.2⟩

/-- Two calls find the buffer empty, the second one while the first waits.  Both publish the
buffer, and when both requests are served the first call consumes both completions: the second
call then waits for one that is gone. -/
theorem viorng_two_readers :
    (∃ p : RngPort Bool, Run (fun _ _ => True) p ∧ ¬ p.dev.published ≤ p.dev.served + 1) ∧
      ∃ p : RngPort Bool, Run (fun _ _ => True) p ∧
        ∃ req, (p.phase true).waitsFor = some req ∧ ¬ p.dev.consumed ≤ req := by
  have heval : (exec (fun _ _ => True) (⟨.attached 0, fun _ => .out⟩ : RngPort Bool)
      (.read false 1 :: List.replicate 5 (.run false) ++ .read true 1 ::
        List.replicate 4 (.run true))).map (fun p => (p.dev.published, p.dev.served)) = some (2, 0) := by
    decide +kernel
  have heval' : (exec (fun _ _ => True) (⟨.attached 0, fun _ => .out⟩ : RngPort Bool)
      (.read false 1 :: List.replicate 5 (.run false) ++ .read true 1 ::
        List.replicate 5 (.run true) ++ [.serve [7], .serve [9]] ++
        List.replicate 4 (.run false))).map (fun p => ((p.phase true).waitsFor, p.dev.consumed)) =
      some (some 1, 2) := by
    decide +kernel
  obtain ⟨p, hp, hd⟩ := Option.map_eq_some_iff.mp heval
  obtain ⟨p', hp', hd'⟩ := Option.map_eq_some_iff.mp heval'
  rw [Prod.mk.injEq] at hd hd'
  refine ⟨⟨p, (Run.attached 0).exec hp, ?_⟩, p', (Run.attached 0).exec hp', 1, hd'.1, ?_⟩
  · rw [hd.1, hd.2]
    decide
  · rw [hd'.2]
    decide

end RngPort

end MiniOs
