import MiniOs.Base.Runs
import MiniOs.Virtio.Blk

/-!
# One block request at a time

A thread between `lock_acquire` and `lock_release` owns the lock, so at most one thread is there,
and all that is shared by the requests belongs to it.  `PhaseOk` says for each statement what
the owner has prepared, and what has become of its request.  The facts about a call that
is about to return are about the history only, and the history only grows.
-/

namespace MiniOs

variable {st : UInt8}

namespace Vioblk

variable {T : Type} {d d' : Vioblk T} {t u : T} {f f' : BlkFrame} {pc pc' : BlkPc}

/-- The indices are those of the numbers, and at most one request is under way. -/
structure Counted (d : Vioblk T) : Prop where
  availIdx : d.availIdx = ringIdx d.requests.length
  devIdx : d.devIdx = ringIdx d.served.length
  usedIdx : d.usedIdx = ringIdx d.served.length
  lastUsedIdx : d.lastUsedIdx = ringIdx d.consumed
  consumed : d.consumed ≤ d.served.length
  served : d.served.length ≤ d.requests.length
  requests : d.requests.length ≤ d.consumed + 1

/-- No request is under way. -/
def Idle (d : Vioblk T) : Prop := d.requests.length = d.consumed

/-- The header and the descriptors are those of the call. -/
structure Prepared (d : Vioblk T) (c : BlkCall) : Prop where
  hdr : d.hdr = c.hdr
  desc0 : d.desc 0 = BlkCall.desc0
  desc1 : d.desc 1 = c.desc1
  desc2 : d.desc 2 = BlkCall.desc2

/-- The call has published request `k`, and since its start it published no other. -/
structure Issued (d : Vioblk T) (t : T) (f : BlkFrame) (k : Nat) : Prop where
  req : f.req = some k
  start : f.start ≤ k
  request : d.requests[k]? = some (t, f.call.transfer)

/-- Request `k` was served as the call asked, with status `st`. -/
def Served (d : Vioblk T) (f : BlkFrame) (k : Nat) (st : UInt8) : Prop :=
  d.served[k]? = some (f.call.transfer, st)

/-- What holds before each statement. -/
def PhaseOk (d : Vioblk T) (t : T) (f : BlkFrame) : BlkPc → Prop
  | .acquire | .blocked => f.req = none
  | .setHdr => f.req = none ∧ d.Idle
  | .setStatus | .setDesc0 => f.req = none ∧ d.Idle ∧ d.hdr = f.call.hdr
  | .setDesc1 => f.req = none ∧ d.Idle ∧ d.hdr = f.call.hdr ∧ d.desc 0 = BlkCall.desc0
  | .setDesc2 => f.req = none ∧ d.Idle ∧ d.hdr = f.call.hdr ∧ d.desc 0 = BlkCall.desc0 ∧
      d.desc 1 = f.call.desc1
  | .setRing => f.req = none ∧ d.Idle ∧ d.Prepared f.call
  | .publish => f.req = none ∧ d.Idle ∧ d.Prepared f.call ∧ d.availRing (d.availIdx.toNat % 3) = 0
  | .wait | .yield => ∃ k, d.Issued t f k ∧ d.requests.length = k + 1 ∧ d.consumed = k ∧
      d.Prepared f.call ∧ d.availRing ((ringIdx k).toNat % 3) = 0 ∧
      (d.served.length = k + 1 → d.Served f k d.status)
  | .ack => ∃ k, d.Issued t f k ∧ d.requests.length = k + 1 ∧ d.consumed = k ∧
      d.served.length = k + 1 ∧ d.Served f k d.status
  | .readStatus => ∃ k, d.Issued t f k ∧ d.Idle ∧ d.Served f k d.status
  | .release ok => ∃ k st, d.Issued t f k ∧ d.Idle ∧ d.Served f k st ∧ ok = (st == virtioBlkSOk)
  | .ret res => f.req = none ∧ res = - EINVAL ∨ ∃ k st, d.Issued t f k ∧ d.Served f k st ∧
      res = if st = virtioBlkSOk then f.call.len else - EIO

/-- Since its start the call has published no request but its own. -/
structure Mine (d : Vioblk T) (t : T) (f : BlkFrame) : Prop where
  start : f.start ≤ d.requests.length
  only : ∀ k x, f.start ≤ k → d.requests[k]? = some (t, x) → f.req = some k

/-- The length is in the range of the descriptor's. -/
def Small (c : BlkCall) : Prop := 0 < c.len ∧ c.len < 2 ^ 32

/-- The chain of a request describes the transfer of its call. -/
theorem Prepared.chain {c : BlkCall} (h : d.Prepared c) (hs : Small c) :
    d.chain 0 = some c.transfer := by
  have hlen : (BitVec.ofInt 32 c.len).toNat = c.len.toNat := by
    obtain ⟨hpos, hlt⟩ := hs
    rw [BitVec.toNat_ofInt]
    congr 1
    exact Int.emod_eq_of_lt (by omega) (by simpa using hlt)
  have hwrite : (c.desc1.flags &&& virtqDescFWrite ≠ 0 ↔ c.type = virtioBlkTIn) ∧
      c.desc1.flags &&& virtqDescFNext ≠ 0 := by
    rw [BlkCall.desc1]
    by_cases ht : c.type = virtioBlkTIn
    · simp only [ht, if_true]
      decide
    · simp only [ht, if_false]
      decide
  have h₀ : (0 : BitVec 16).toNat = 0 := by decide
  have h₁ : BlkCall.desc0.next.toNat = 1 := by decide
  have h2 : c.desc1.next.toNat = 2 := by
    show (2 : BitVec 16).toNat = 2
    decide
  rw [Vioblk.chain]
  simp only [h₀, h.desc0, h₁, h.desc1, h2, h.desc2, h.hdr]
  rw [if_pos ⟨rfl, rfl, hwrite.2, hwrite.1, rfl, rfl⟩]
  simp only [BlkCall.desc1, BlkCall.transfer, BlkCall.hdr, hlen]

/-! ## What others do to a call -/

/-- The history grows, by requests of other threads than `u` only. -/
structure Grows (u : T) (d d' : Vioblk T) : Prop where
  requests : ∃ rs, d'.requests = d.requests ++ rs ∧ ∀ x ∈ rs, x.1 ≠ u
  served : d.served <+: d'.served

theorem Grows.issued (h : Grows u d d') {k : Nat} (hi : d.Issued u f k) : d'.Issued u f k := by
  obtain ⟨rs, hrs, -⟩ := h.requests
  refine ⟨hi.req, hi.start, ?_⟩
  have hk := (List.getElem?_eq_some_iff.mp hi.request).1
  rw [hrs, List.getElem?_append_left hk]
  exact hi.request

theorem Grows.served_of_served (h : Grows u d d') {k : Nat} (hs : d.Served f k st) :
    d'.Served f k st := by
  obtain ⟨ss, hss⟩ := h.served
  have hk := (List.getElem?_eq_some_iff.mp hs).1
  rw [Served, ← hss, List.getElem?_append_left hk]
  exact hs

theorem Grows.mine (h : Grows u d d') (hm : d.Mine u f) : d'.Mine u f := by
  obtain ⟨rs, hrs, hne⟩ := h.requests
  refine ⟨?_, fun k x hk hx => ?_⟩
  · rw [hrs, List.length_append]
    exact Nat.le_add_right_of_le hm.start
  rw [hrs] at hx
  rcases Nat.lt_or_ge k d.requests.length with hlt | hge
  · rw [List.getElem?_append_left hlt] at hx
    exact hm.only k x hk hx
  · rw [List.getElem?_append_right hge] at hx
    exact absurd rfl (hne _ (List.mem_of_getElem? hx))

/-- A call that is not between the lock operations does not notice. -/
theorem Grows.phaseOk (h : Grows u d d') (hcrit : pc.critical = false) (hph : d.PhaseOk u f pc) :
    d'.PhaseOk u f pc := by
  cases pc with
  | acquire | blocked => exact hph
  | ret res =>
    rcases hph with hph | ⟨k, st, hi, hs, hres⟩
    · exact .inl hph
    · exact .inr ⟨k, st, h.issued hi, h.served_of_served hs, hres⟩
  | setHdr | setStatus | setDesc0 | setDesc1 | setDesc2 | setRing | publish | wait | yield | ack
  | readStatus | release => cases hcrit

/-! ## The statements -/

/-- Who owns the lock after a statement of `t`. -/
structure Held (d d' : Vioblk T) (t : T) (pc' : BlkPc) : Prop where
  mine : pc'.critical = true ↔ d'.owner = some t
  others : ∀ u, u ≠ t → (d'.owner = some u ↔ d.owner = some u)
  count : d'.owner ≠ none → d'.count = 1
  idle : d'.owner = none → d'.Idle

/-- A statement between the lock operations that leaves the lock alone. -/
theorem Held.keep (ho : d'.owner = d.owner) (hn : d'.count = d.count)
    (hlock : d.owner = some t) (hcount : d.count = 1) (hcrit : pc'.critical = true) :
    Held d d' t pc' := by
  refine ⟨?_, fun u _ => by rw [ho], fun _ => hn.trans hcount, fun hn' => ?_⟩
  · rw [hcrit, ho, hlock]
    simp
  · rw [ho, hlock] at hn'
    cases hn'

/-- A thread takes the free lock. -/
theorem Held.take (ho : d.owner = none) :
    Held d { d with owner := some t, count := 1 } t .setHdr := by
  refine ⟨⟨fun _ => rfl, fun _ => rfl⟩, fun u hu => ?_, fun _ => rfl, fun hn => (by cases hn)⟩
  rw [ho]
  exact ⟨fun h => absurd (Option.some.inj h).symm hu, fun h => (by cases h)⟩

/-- What a statement of `t` leaves. -/
structure Next (d d' : Vioblk T) (t : T) (f f' : BlkFrame) (pc' : BlkPc) : Prop where
  counted : d'.Counted
  phase : d'.PhaseOk t f' pc'
  mine : d'.Mine t f'
  held : Held d d' t pc'
  call : f'.call = f.call
  requests : ∃ rs, d'.requests = d.requests ++ rs ∧ ∀ x ∈ rs, x.1 = t
  served : d'.served = d.served

/-- A statement that changes neither the numbers nor the history nor who owns the lock. -/
theorem Next.keep (hm : d.Mine t f) (hcount' : d'.Counted) (hph : d'.PhaseOk t f pc')
    (hheld : Held d d' t pc') (hr : d'.requests = d.requests) (hs : d'.served = d.served) :
    Next d d' t f f pc' := by
  refine ⟨hcount', hph, ⟨?_, fun k x hk hx => ?_⟩, hheld, rfl,
    ⟨[], by rw [hr, List.append_nil], fun x hx => (by cases hx)⟩, hs⟩
  · rw [hr]
    exact hm.start
  · rw [hr] at hx
    exact hm.only k x hk hx

/-- A statement of the owner between the lock operations. -/
theorem Next.stay (ho : d.owner = some t) (hcount : d.count = 1) (hm : d.Mine t f)
    (hcount' : d'.Counted) (hph : d'.PhaseOk t f pc') (hcrit : pc'.critical = true)
    (hsame : (d'.owner, d'.count, d'.requests, d'.served) = (d.owner, d.count, d.requests, d.served)) :
    Next d d' t f f pc' := by
  obtain ⟨howner, hn, hr, hs⟩ := by simpa only [Prod.mk.injEq] using hsame
  exact .keep hm hcount' hph (.keep howner hn ho hcount hcrit) hr hs

variable [DecidableEq T]

/-- The lock operations. -/
theorem statement_lock (hc : Counted d) (hph : d.PhaseOk t f pc) (hm : d.Mine t f)
    (hlock : pc.critical = true ↔ d.owner = some t) (hcount : d.owner ≠ none → d.count = 1)
    (hidle : d.owner = none → d.Idle) (hpc : pc = .acquire ∨ pc = .blocked ∨ ∃ ok, pc = .release ok)
    (hst : d.statement t f pc = some (d', pc', f')) : Next d d' t f f' pc' := by
  -- a thread that is not the owner takes the lock when it is free
  have htake : pc.critical = false → f.req = none →
      (if d.owner = none then some ({ d with owner := some t, count := 1 }, .setHdr, f)
        else some (d, .blocked, f)) = some (d', pc', f') → Next d d' t f f' pc' := by
    intro hcrit hreq hst
    split at hst
    case isTrue ho =>
      cases hst
      exact .keep hm { hc with } ⟨hreq, hidle ho⟩ (.take ho) rfl rfl
    case isFalse ho =>
      cases hst
      refine .keep hm hc hreq ⟨⟨fun h => (by cases h), fun h => ?_⟩, fun _ _ => Iff.rfl, hcount, hidle⟩
        rfl rfl
      rw [hlock.mpr h] at hcrit
      cases hcrit
  rcases hpc with rfl | rfl | ⟨ok, rfl⟩
  · have hnot : d.owner ≠ some t := fun h => absurd (hlock.mpr h) (by decide)
    rw [statement, if_neg hnot] at hst
    exact htake rfl hph hst
  · exact htake rfl hph hst
  · have ho : d.owner = some t := hlock.mp rfl
    have hone : d.count = 1 := hcount (by rw [ho]; simp)
    simp only [statement, ho, ne_eq, not_true_eq_false, if_false, hone, Nat.sub_self, Nat.lt_irrefl] at hst
    cases hst
    obtain ⟨k, st, hi, hid, hs, hok⟩ := hph
    refine .keep hm { hc with } (.inr ⟨k, st, { hi with }, hs, ?_⟩) ?_ rfl rfl
    · rw [hok]
      by_cases h0 : st = virtioBlkSOk
      · simp [h0]
      · simp [h0]
    · refine ⟨⟨fun h => (by cases h), fun h => (by cases h)⟩, fun u hu => ?_, fun hn => absurd rfl hn,
        fun _ => hid⟩
      rw [ho]
      exact ⟨fun h => (by cases h), fun h => absurd (Option.some.inj h).symm hu⟩

/-- The statements between the lock operations. -/
theorem statement_critical (hc : Counted d) (hph : d.PhaseOk t f pc) (hm : d.Mine t f)
    (ho : d.owner = some t) (hcount : d.count = 1) (hcrit : pc.critical = true)
    (hpc : ∀ ok, pc ≠ .release ok) (hst : d.statement t f pc = some (d', pc', f')) :
    Next d d' t f f' pc' := by
  have hcons := hc.consumed
  have hserv := hc.served
  have hreq := hc.requests
  cases pc with
  | acquire | blocked | ret => cases hcrit
  | release ok => exact absurd rfl (hpc ok)
  | setHdr =>
    cases hst
    exact .stay ho hcount hm { hc with } ⟨hph.1, hph.2, rfl⟩ rfl rfl
  | setStatus =>
    cases hst
    exact .stay ho hcount hm { hc with } hph rfl rfl
  | setDesc0 =>
    cases hst
    obtain ⟨hn, hid, hh⟩ := hph
    exact .stay ho hcount hm { hc with } ⟨hn, hid, hh, by simp⟩ rfl rfl
  | setDesc1 =>
    cases hst
    obtain ⟨hn, hid, hh, h0⟩ := hph
    exact .stay ho hcount hm { hc with } ⟨hn, hid, hh, by simp [h0], by simp⟩ rfl rfl
  | setDesc2 =>
    cases hst
    obtain ⟨hn, hid, hh, h0, h1⟩ := hph
    exact .stay ho hcount hm { hc with } ⟨hn, hid, hh, by simp [h0], by simp [h1], by simp⟩ rfl rfl
  | setRing =>
    cases hst
    obtain ⟨hn, hid, hp⟩ := hph
    exact .stay ho hcount hm { hc with } ⟨hn, hid, { hp with }, by simp⟩ rfl rfl
  | publish =>
    cases hst
    obtain ⟨hn, hid, hp, hring⟩ := hph
    have hid' : d.requests.length = d.consumed := hid
    have hlen : (d.requests ++ [(t, f.call.transfer)]).length = d.requests.length + 1 := by simp
    have hnew : (d.requests ++ [(t, f.call.transfer)])[d.requests.length]? = some (t, f.call.transfer) := by
      simp
    refine ⟨⟨?_, hc.devIdx, hc.usedIdx, hc.lastUsedIdx, hcons, ?_, ?_⟩,
      ⟨d.requests.length, ⟨rfl, hm.start, hnew⟩, hlen, hid'.symm, { hp with }, ?_, fun hs => ?_⟩, ?_,
      .keep rfl rfl ho hcount rfl, rfl, ⟨_, rfl, ?_⟩, rfl⟩
    · show d.availIdx + 1 = ringIdx (d.requests ++ _).length
      rw [hlen, hc.availIdx, ringIdx_succ]
    · show d.served.length ≤ (d.requests ++ _).length
      omega
    · show (d.requests ++ _).length ≤ d.consumed + 1
      omega
    · rw [← hc.availIdx]
      exact hring
    · have hs' : d.served.length = d.requests.length + 1 := hs
      omega
    · refine ⟨?_, fun k x hk hx => ?_⟩
      · show f.start ≤ (d.requests ++ _).length
        rw [hlen]
        exact Nat.le_succ_of_le hm.start
      show some d.requests.length = some k
      rcases Nat.lt_or_ge k d.requests.length with hlt | hge
      · have hx' : (d.requests ++ [(t, f.call.transfer)])[k]? = some (t, x) := hx
        rw [List.getElem?_append_left hlt] at hx'
        have := hm.only k x hk hx'
        rw [hn] at this
        cases this
      · have hlt := (List.getElem?_eq_some_iff.mp hx).1
        have hlt' : k < (d.requests ++ [(t, f.call.transfer)]).length := hlt
        rw [hlen] at hlt'
        congr 1
        omega
    · intro x hx
      rw [List.mem_singleton.mp hx]
  | wait =>
    cases hst
    obtain ⟨k, hi, hr, hcm, hp, hring, hdone⟩ := hph
    have heq : d.usedIdx = d.lastUsedIdx ↔ d.served.length = d.consumed := by
      rw [hc.usedIdx, hc.lastUsedIdx]
      exact ringIdx_eq_iff hcons (by omega)
    by_cases hu : d.usedIdx = d.lastUsedIdx
    · rw [if_pos hu]
      exact .stay ho hcount hm hc ⟨k, hi, hr, hcm, hp, hring, hdone⟩ rfl rfl
    · rw [if_neg hu]
      have hne : d.served.length ≠ d.consumed := fun h => hu (heq.mpr h)
      have hs : d.served.length = k + 1 := by omega
      exact .stay ho hcount hm hc ⟨k, hi, hr, hcm, hs, hdone hs⟩ rfl rfl
  | yield =>
    cases hst
    exact .stay ho hcount hm hc hph rfl rfl
  | ack =>
    cases hst
    obtain ⟨k, hi, hr, hcm, hs, hdone⟩ := hph
    have hid : d.requests.length = d.served.length := by omega
    refine .stay ho hcount hm ?_ ⟨k, { hi with }, hid, hdone⟩ rfl rfl
    exact ⟨hc.availIdx, hc.devIdx, hc.usedIdx, hc.usedIdx, Nat.le_refl _, hserv, by simp only; omega⟩
  | readStatus =>
    cases hst
    obtain ⟨k, hi, hid, hdone⟩ := hph
    exact .stay ho hcount hm hc ⟨k, d.status, hi, hid, hdone, rfl⟩ rfl rfl

omit [DecidableEq T] in
/-- A request that is not served belongs to a call that waits for it. -/
theorem PhaseOk.waits (hc : Counted d) (hph : d.PhaseOk t f pc) (hcrit : pc.critical = true)
    (hne : d.served.length ≠ d.requests.length) : pc = .wait ∨ pc = .yield := by
  have hcons := hc.consumed
  have hserv := hc.served
  cases pc with
  | wait => exact .inl rfl
  | yield => exact .inr rfl
  | acquire | blocked | ret => cases hcrit
  | setHdr =>
    have hid : d.requests.length = d.consumed := hph.2
    omega
  | setStatus | setDesc0 | setDesc1 | setDesc2 | setRing | publish =>
    have hid : d.requests.length = d.consumed := hph.2.1
    omega
  | ack =>
    obtain ⟨k, -, hr, -, hs, -⟩ := hph
    omega
  | readStatus =>
    obtain ⟨k, -, hid, -⟩ := hph
    have hid' : d.requests.length = d.consumed := hid
    omega
  | release ok =>
    obtain ⟨k, st, -, hid, -⟩ := hph
    have hid' : d.requests.length = d.consumed := hid
    omega

omit [DecidableEq T] in
/-- The device serves the request of the call that waits. -/
theorem serve_waiting (hc : Counted d) (hph : d.PhaseOk t f pc) (hs : Small f.call)
    (hpc : pc = .wait ∨ pc = .yield) (hne : d.served.length ≠ d.requests.length) (st : UInt8) :
    ∃ d', d.serve st = some d' ∧ d' = { d with
      status := st
      served := d.served ++ [(f.call.transfer, st)]
      usedIdx := d.usedIdx + 1
      devIdx := d.devIdx + 1 } ∧ Counted d' ∧ d'.PhaseOk t f pc := by
  have hcons := hc.consumed
  have hserv := hc.served
  have hreq := hc.requests
  have hwait : d.PhaseOk t f .wait := by rcases hpc with rfl | rfl <;> exact hph
  obtain ⟨k, hi, hr, hcm, hp, hring, -⟩ := hwait
  have hk : d.served.length = k := by omega
  have hav : d.devIdx ≠ d.availIdx := by
    rw [hc.devIdx, hc.availIdx]
    intro heq
    exact hne ((ringIdx_eq_iff hserv (by omega)).mp heq.symm).symm
  have hchain : d.chain (d.availRing (d.devIdx.toNat % 3)) = some f.call.transfer := by
    rw [hc.devIdx, hk, hring]
    exact hp.chain hs
  refine ⟨_, ?_, rfl, ?_, ?_⟩
  · rw [Vioblk.serve, if_neg hav, hchain]
    rfl
  · constructor
    · exact hc.availIdx
    · show d.devIdx + 1 = ringIdx (d.served ++ [_]).length
      rw [List.length_append, List.length_singleton, ringIdx_succ, hc.devIdx]
    · show d.usedIdx + 1 = ringIdx (d.served ++ [_]).length
      rw [List.length_append, List.length_singleton, ringIdx_succ, hc.usedIdx]
    · exact hc.lastUsedIdx
    · show d.consumed ≤ (d.served ++ [_]).length
      rw [List.length_append]
      omega
    · show (d.served ++ [_]).length ≤ d.requests.length
      rw [List.length_append, List.length_singleton]
      omega
    · exact hreq
  · have hwaits : ∀ e : Vioblk T, e.PhaseOk t f .wait → e.PhaseOk t f pc := by
      intro e he
      rcases hpc with rfl | rfl <;> exact he
    refine hwaits _ ⟨k, { hi with }, hr, hcm, { hp with }, hring, fun _ => ?_⟩
    rw [Served, ← hk]
    simp

end Vioblk

namespace BlkPort

open Vioblk (Counted Idle PhaseOk Mine Small Grows Issued)

variable {T : Type} {p p' : BlkPort T} {lbl : BlkLabel T}

/-- What holds between steps. -/
structure Serial (p : BlkPort T) : Prop where
  counted : p.dev.Counted
  /-- The owner of the lock is the thread between the lock operations. -/
  lock : ∀ t, p.dev.owner = some t ↔ ∃ pc f, p.phase t = some (pc, f) ∧ pc.critical = true
  count : p.dev.owner ≠ none → p.dev.count = 1
  idle : p.dev.owner = none → p.dev.Idle
  phase : ∀ t pc f, p.phase t = some (pc, f) → p.dev.PhaseOk t f pc ∧ p.dev.Mine t f ∧
    ((∀ res, pc = .ret res → f.req ≠ none) → Small f.call)

theorem serial_attached : Serial (⟨.attached, fun _ => none⟩ : BlkPort T) := by
  refine ⟨⟨rfl, rfl, rfl, rfl, Nat.le_refl _, Nat.le_refl _, Nat.zero_le _⟩, fun t => ?_, fun h => ?_,
    fun _ => rfl, fun t pc f h => ?_⟩
  · constructor
    · intro h
      cases h
    · rintro ⟨pc, f, h, -⟩
      cases h
  · exact absurd rfl h
  · cases h

/-- Every length is in the range of the descriptor's. -/
def SmallCalls : BlkLabel T → Prop
  | .io _ c => c.len < 2 ^ 32
  | .run _ | .ret _ | .serve _ => True

section

variable [DecidableEq T] {t : T}

theorem step_run (hst : p.step (.run t) = some p') : ∃ pc f d pc' f', p.phase t = some (pc, f) ∧
    p.dev.statement t f pc = some (d, pc', f') ∧
      p' = { p.goto t (some (pc', f')) with dev := d } := by
  rw [step] at hst
  split at hst
  case h_1 pc f hp =>
    obtain ⟨⟨d, pc', f'⟩, heq, rfl⟩ := Option.map_eq_some_iff.mp hst
    exact ⟨pc, f, d, pc', f', hp, heq, rfl⟩
  case h_2 => cases hst

theorem step_ret (hst : p.step (.ret t) = some p') :
    (∃ res f, p.phase t = some (.ret res, f)) ∧ p' = p.goto t none := by
  rw [step] at hst
  split at hst
  case h_1 res f hp => exact ⟨⟨res, f, hp⟩, (Option.some.inj hst).symm⟩
  case h_2 => cases hst

end

namespace Serial

/-- A request that is not served belongs to a call that owns the lock and waits. -/
theorem waiting (h : Serial p) (hne : p.dev.served.length ≠ p.dev.requests.length) :
    ∃ t pc f, p.dev.owner = some t ∧ p.phase t = some (pc, f) ∧ (pc = .wait ∨ pc = .yield) := by
  have hcons := h.counted.consumed
  have hserv := h.counted.served
  cases ho : p.dev.owner with
  | none =>
    have hid : p.dev.requests.length = p.dev.consumed := h.idle ho
    omega
  | some t =>
    obtain ⟨pc, f, hp, hcrit⟩ := (h.lock t).mp ho
    exact ⟨t, pc, f, rfl, hp, (h.phase t pc f hp).1.waits h.counted hcrit hne⟩

/-- The thread between the lock operations is the owner. -/
theorem owner_phase (h : Serial p) {t u : T} {pc pc' : BlkPc} {f f' : BlkFrame}
    (ho : p.dev.owner = some t) (hp : p.phase t = some (pc, f)) (hu : p.phase u = some (pc', f'))
    (hcrit : pc'.critical = true) : t = u ∧ pc = pc' ∧ f = f' := by
  have hou := (h.lock u).mpr ⟨pc', f', hu, hcrit⟩
  rw [ho] at hou
  cases hou
  rw [hp] at hu
  cases hu
  exact ⟨rfl, rfl, rfl⟩

variable [DecidableEq T]

/-- A thread starts or ends a call. -/
theorem goto (h : Serial p) {t : T} {ph : Option (BlkPc × BlkFrame)}
    (hold : ∀ pc f, p.phase t = some (pc, f) → pc.critical = false)
    (hnew : ∀ pc f, ph = some (pc, f) → pc.critical = false ∧ p.dev.PhaseOk t f pc ∧ p.dev.Mine t f ∧
      ((∀ res, pc = .ret res → f.req ≠ none) → Small f.call)) : Serial (p.goto t ph) := by
  refine ⟨h.counted, fun u => ?_, h.count, h.idle, fun u pc f hu => ?_⟩
  · show p.dev.owner = some u ↔ _
    rw [h.lock u]
    by_cases hut : u = t
    · subst hut
      rw [phase_goto_self]
      constructor
      · rintro ⟨pc, f, hp, hcrit⟩
        rw [hold pc f hp] at hcrit
        cases hcrit
      · rintro ⟨pc, f, hp, hcrit⟩
        rw [(hnew pc f hp).1] at hcrit
        cases hcrit
    · rw [phase_goto_of_ne p hut]
  · by_cases hut : u = t
    · subst hut
      rw [phase_goto_self] at hu
      exact (hnew pc f hu).2
    · rw [phase_goto_of_ne p hut] at hu
      exact h.phase u pc f hu

/-- A statement of thread `t`. -/
theorem run (h : Serial p) {t : T} (hst : p.step (.run t) = some p') : Serial p' := by
  obtain ⟨pc, f, d, pc', f', hp, heq, rfl⟩ := step_run hst
  obtain ⟨hph, hm, hsmall⟩ := h.phase t pc f hp
  have hlock : pc.critical = true ↔ p.dev.owner = some t := by
    rw [h.lock t]
    constructor
    · intro hcrit
      exact ⟨pc, f, hp, hcrit⟩
    · rintro ⟨pc1, f1, hp1, hcrit⟩
      rw [hp] at hp1
      cases hp1
      exact hcrit
  have hnret : ∀ res, pc ≠ .ret res := by
    rintro res rfl
    cases heq
  have hnext : Vioblk.Next p.dev d t f f' pc' := by
    cases hcrit : pc.critical with
    | false =>
      refine Vioblk.statement_lock h.counted hph hm hlock h.count h.idle ?_ heq
      cases pc with
      | acquire => exact .inl rfl
      | blocked => exact .inr (.inl rfl)
      | ret res => exact absurd rfl (hnret res)
      | _ => cases hcrit
    | true =>
      have ho := hlock.mp hcrit
      have hone := h.count (by rw [ho]; simp)
      by_cases hrel : ∃ ok, pc = .release ok
      · exact Vioblk.statement_lock h.counted hph hm hlock h.count h.idle (.inr (.inr hrel)) heq
      · exact Vioblk.statement_critical h.counted hph hm ho hone hcrit
          (fun ok hok => hrel ⟨ok, hok⟩) heq
  refine ⟨hnext.counted, fun u => ?_, hnext.held.count, hnext.held.idle, fun u pc1 f1 hu => ?_⟩
  · show d.owner = some u ↔ ∃ pc f, (p.goto t (some (pc', f'))).phase u = some (pc, f) ∧ _
    by_cases hut : u = t
    · subst hut
      rw [phase_goto_self, ← hnext.held.mine]
      constructor
      · intro hcrit
        exact ⟨pc', f', rfl, hcrit⟩
      · rintro ⟨pc1, f1, hp1, hcrit⟩
        cases hp1
        exact hcrit
    · rw [phase_goto_of_ne p hut, hnext.held.others u hut]
      exact h.lock u
  · show d.PhaseOk u f1 pc1 ∧ d.Mine u f1 ∧ _
    have hu' : (p.goto t (some (pc', f'))).phase u = some (pc1, f1) := hu
    by_cases hut : u = t
    · subst hut
      rw [phase_goto_self] at hu'
      cases hu'
      refine ⟨hnext.phase, hnext.mine, fun _ => ?_⟩
      rw [hnext.call]
      exact hsmall fun res hr => absurd hr (hnret res)
    · rw [phase_goto_of_ne p hut] at hu'
      obtain ⟨hph1, hm1, hsmall1⟩ := h.phase u pc1 f1 hu'
      obtain ⟨rs, hrs, hmine⟩ := hnext.requests
      have hgrow : Grows u p.dev d := by
        refine ⟨⟨rs, hrs, fun x hx hxu => hut ?_⟩, ?_⟩
        · rw [← hxu, hmine x hx]
        · rw [hnext.served]
      -- Another thread between the lock operations owns the lock, and then `t` touches nothing.
      cases hcrit : pc1.critical with
      | false => exact ⟨hgrow.phaseOk hcrit hph1, hgrow.mine hm1, hsmall1⟩
      | true =>
        have hou : p.dev.owner = some u := (h.lock u).mpr ⟨pc1, f1, hu', hcrit⟩
        have hpc : pc.critical = false := by
          cases hc : pc.critical with
          | false => rfl
          | true =>
            have := hlock.mp hc
            rw [hou] at this
            exact absurd (Option.some.inj this) hut
        have hsame : d = p.dev := by
          cases pc with
          | acquire | blocked =>
            simp only [Vioblk.statement, hou, Option.some.injEq, hut, if_false, reduceCtorEq] at heq
            cases heq
            rfl
          | ret res => exact absurd rfl (hnret res)
          | _ => cases hpc
        rw [hsame]
        exact ⟨hph1, hm1, hsmall1⟩

omit [DecidableEq T] in
/-- The device serves a request. -/
theorem serve (h : Serial p) {d : Vioblk T} (hd : p.dev.serve st = some d) :
    Serial { p with dev := d } := by
  have hne : p.dev.served.length ≠ p.dev.requests.length := by
    intro heq
    rw [Vioblk.serve, h.counted.devIdx, h.counted.availIdx, heq, if_pos rfl] at hd
    cases hd
  obtain ⟨t, pc, f, ho, hp, hpc⟩ := h.waiting hne
  obtain ⟨hph, hm, hsmall⟩ := h.phase t pc f hp
  have hs : Small f.call := hsmall (by rcases hpc with rfl | rfl <;> simp)
  obtain ⟨d', hd', hdef, hcount, hph'⟩ := Vioblk.serve_waiting h.counted hph hs hpc hne st
  rw [hd] at hd'
  cases hd'
  have hgrow : ∀ u, Grows u p.dev d := by
    intro u
    rw [hdef]
    exact ⟨⟨[], (List.append_nil _).symm, fun x hx => (by cases hx)⟩, List.prefix_append _ _⟩
  have hown : d.owner = p.dev.owner := by rw [hdef]
  refine ⟨hcount, fun u => ?_, fun hn => ?_, fun hn => ?_, fun u pc1 f1 hu => ?_⟩
  · show d.owner = some u ↔ _
    rw [hown]
    exact h.lock u
  · show d.count = 1
    rw [hdef]
    exact h.count (by rw [ho]; simp)
  · have hn' : d.owner = none := hn
    rw [hown, ho] at hn'
    cases hn'
  · obtain ⟨hph1, hm1, hsmall1⟩ := h.phase u pc1 f1 hu
    refine ⟨?_, (hgrow u).mine hm1, hsmall1⟩
    cases hcrit : pc1.critical with
    | false => exact (hgrow u).phaseOk hcrit hph1
    | true =>
      obtain ⟨rfl, rfl, rfl⟩ := h.owner_phase ho hp hu hcrit
      exact hph'

theorem step (h : Serial p) (hok : SmallCalls lbl) (hst : p.step lbl = some p') :
    Serial p' := by
  cases lbl with
  | run t => exact h.run hst
  | io t c =>
    rw [BlkPort.step] at hst
    split at hst
    case h_2 => cases hst
    case h_1 hp =>
      cases hst
      have hmine : p.dev.Mine t ⟨c, p.dev.requests.length, none⟩ := by
        refine ⟨Nat.le_refl _, fun k x hk hx => ?_⟩
        have hlt := (List.getElem?_eq_some_iff.mp hx).1
        have hk' : p.dev.requests.length ≤ k := hk
        omega
      refine h.goto (fun pc f hpf => ?_) fun pc f hpf => ?_
      · rw [hp] at hpf
        cases hpf
      · cases hpf
        split
        case isTrue => exact ⟨rfl, .inl ⟨rfl, rfl⟩, hmine, fun hr => absurd rfl (hr _ rfl)⟩
        case isFalse hvalid =>
          rw [not_or, not_or] at hvalid
          exact ⟨rfl, rfl, hmine, fun _ => ⟨Int.not_le.mp hvalid.2.1, hok⟩⟩
  | ret t =>
    obtain ⟨⟨res, f, hp⟩, rfl⟩ := step_ret hst
    refine h.goto (fun pc f' hpf => ?_) fun pc f' hpf => ?_
    · rw [hp] at hpf
      cases hpf
      rfl
    · cases hpf
  | serve st =>
    obtain ⟨d, hd, rfl⟩ := Option.map_eq_some_iff.mp hst
    exact h.serve hd

end Serial

variable [DecidableEq T]

/-- While a request is not served, nobody writes what the device reads. -/
theorem Serial.undisturbed (h : Serial p) (hne : p.dev.served.length ≠ p.dev.requests.length)
    (hst : p.step lbl = some p') :
    p'.dev.hdr = p.dev.hdr ∧ p'.dev.desc = p.dev.desc ∧ p'.dev.availRing = p.dev.availRing := by
  obtain ⟨t, pc, f, ho, hp, hpc⟩ := h.waiting hne
  cases lbl with
  | io u c =>
    cases hu : p.phase u <;> simp only [BlkPort.step, hu] at hst <;> cases hst
    exact ⟨rfl, rfl, rfl⟩
  | ret u =>
    obtain ⟨-, rfl⟩ := step_ret hst
    exact ⟨rfl, rfl, rfl⟩
  | serve st =>
    obtain ⟨d, hd, rfl⟩ := Option.map_eq_some_iff.mp hst
    rw [Vioblk.serve] at hd
    split at hd
    · cases hd
    · obtain ⟨x, -, rfl⟩ := Option.map_eq_some_iff.mp hd
      exact ⟨rfl, rfl, rfl⟩
  | run u =>
    obtain ⟨pc1, f1, d, pc', f', hu, heq, rfl⟩ := step_run hst
    -- Only the owner is between the lock operations, and the owner waits.
    have hout : pc1.critical = false ∨ pc1 = .wait ∨ pc1 = .yield := by
      cases hcrit : pc1.critical with
      | false => exact .inl rfl
      | true =>
        obtain ⟨-, rfl, -⟩ := h.owner_phase ho hp hu hcrit
        exact .inr hpc
    rcases hout with hcrit | rfl | rfl
    · cases pc1 with
      | acquire | blocked =>
        rw [Vioblk.statement] at heq
        split_ifs at heq <;> cases heq <;> exact ⟨rfl, rfl, rfl⟩
      | ret res => cases heq
      | _ => cases hcrit
    · cases heq
      exact ⟨rfl, rfl, rfl⟩
    · cases heq
      exact ⟨rfl, rfl, rfl⟩

theorem Run.serial (h : Run SmallCalls p) : Serial p := by
  induction h with
  | attached => exact serial_attached
  | step lbl _ hok hst ih => exact ih.step hok hst

/-- The call in `f`, of thread `t`, published one request since it began, and the device served
it with status `st` by the transfer that the call asked for. -/
def OwnRequest (d : Vioblk T) (t : T) (f : BlkFrame) (st : UInt8) : Prop :=
  ∃ k, f.start ≤ k ∧ d.requests[k]? = some (t, f.call.transfer) ∧
    d.served[k]? = some (f.call.transfer, st) ∧
    ∀ j x, f.start ≤ j → d.requests[j]? = some (t, x) → j = k

theorem vioblk_serialized (h : Run SmallCalls p) :
    p.dev.served.length ≤ p.dev.requests.length ∧
      p.dev.requests.length ≤ p.dev.served.length + 1 ∧
      (p.dev.served.length ≠ p.dev.requests.length → ∀ lbl p', p.step lbl = some p' →
        p'.dev.hdr = p.dev.hdr ∧ p'.dev.desc = p.dev.desc ∧ p'.dev.availRing = p.dev.availRing) ∧
      ∀ t res f, p.phase t = some (.ret res, f) →
        (0 < res → res = f.call.len ∧ OwnRequest p.dev t f virtioBlkSOk) ∧
        (res = - EIO → ∃ st, st ≠ virtioBlkSOk ∧ OwnRequest p.dev t f st) := by
  have hs := h.serial
  have hcons := hs.counted.consumed
  have hreq := hs.counted.requests
  refine ⟨hs.counted.served, by omega, fun hne lbl p' hst => hs.undisturbed hne hst,
    fun t res f hp => ?_⟩
  obtain ⟨hph, hm, hsmall⟩ := hs.phase t _ f hp
  rcases hph with ⟨-, hres⟩ | ⟨k, st, hi, hserved, hres⟩
  · rw [hres]
    constructor
    · intro hpos
      cases hpos
    · intro heq
      cases heq
  · have hown : OwnRequest p.dev t f st := by
      refine ⟨k, hi.start, hi.request, hserved, fun j x hj hx => ?_⟩
      have hreq := hm.only j x hj hx
      rw [hi.req] at hreq
      exact (Option.some.inj hreq).symm
    split at hres
    case isTrue hst =>
      subst hst
      refine ⟨fun _ => ⟨hres, hown⟩, fun heq => ?_⟩
      have hpos : 0 < f.call.len := (hsmall fun _ _ hn => by rw [hi.req] at hn; cases hn).1
      rw [← hres, heq] at hpos
      cases hpos
    case isFalse hst =>
      rw [hres]
      constructor
      · intro hpos
        cases hpos
      · exact fun _ => ⟨st, hst, hown⟩

section Exec

instance : (lbl : BlkLabel T) → Decidable (SmallCalls lbl)
  | .io _ c => inferInstanceAs (Decidable (c.len < 2 ^ 32))
  | .run _ | .ret _ | .serve _ => isTrue trivial

/-- The state after a given run, if each of its steps can come next and satisfies `ok`. -/
def exec (ok : BlkLabel T → Prop) [DecidablePred ok] (p : BlkPort T) :
    List (BlkLabel T) → Option (BlkPort T)
  | [] => some p
  | lbl :: lbls => if ok lbl then (p.step lbl).bind fun p' => exec ok p' lbls else none

theorem Run.exec {ok : BlkLabel T → Prop} [DecidablePred ok] {lbls : List (BlkLabel T)} (h : Run ok p)
    (heq : BlkPort.exec ok p lbls = some p') : Run ok p' :=
  keeps_of_run (fun _ => rfl) (fun _ _ _ => rfl) (fun h => h.step _) h heq

end Exec

/-- One call reads the third sector. -/
theorem vioblk_serialized_read : ∃ (p : BlkPort Unit) (f : BlkFrame), Run SmallCalls p ∧
    p.phase () = some (.ret 512, f) ∧ f.call.len = 512 ∧ OwnRequest p.dev () f virtioBlkSOk := by
  have heval : (exec SmallCalls (⟨.attached, fun _ => none⟩ : BlkPort Unit)
      (.io () ⟨virtioBlkTIn, 1024, 4096, 512⟩ :: List.replicate 10 (.run ()) ++ .serve 0 ::
        List.replicate 4 (.run ()))).map (fun p => p.phase ()) =
      some (some (.ret 512, ⟨⟨virtioBlkTIn, 1024, 4096, 512⟩, 0, some 0⟩)) := by
    decide +kernel
  obtain ⟨p, hp, hph⟩ := Option.map_eq_some_iff.mp heval
  have hrun : Run SmallCalls p := Run.attached.exec hp
  have hret := ((vioblk_serialized hrun).2.2.2 () 512 _ hph).1 (by decide)
  exact ⟨p, _, hrun, hph, rfl, hret.2⟩

/-- The length of the descriptor has 32 bits: a call for `2 ^ 32` bytes has no byte transferred,
and returns `2 ^ 32`. -/
theorem vioblk_length_truncated : ∃ (p : BlkPort Unit) (f : BlkFrame), Run (fun _ => True) p ∧
    p.phase () = some (.ret (2 ^ 32), f) ∧ f.call.len = 2 ^ 32 ∧
    p.dev.served = [(⟨virtioBlkTIn, 0, 4096, 0⟩, virtioBlkSOk)] ∧
    ¬ OwnRequest p.dev () f virtioBlkSOk := by
  have heval : (exec (fun _ => True) (⟨.attached, fun _ => none⟩ : BlkPort Unit)
      (.io () ⟨virtioBlkTIn, 0, 4096, 2 ^ 32⟩ :: List.replicate 10 (.run ()) ++ .serve 0 ::
        List.replicate 4 (.run ()))).map (fun p => (p.phase (), p.dev.served)) =
      some (some (.ret (2 ^ 32), ⟨⟨virtioBlkTIn, 0, 4096, 2 ^ 32⟩, 0, some 0⟩),
        [(⟨virtioBlkTIn, 0, 4096, 0⟩, virtioBlkSOk)]) := by
    decide +kernel
  obtain ⟨p, hp, hd⟩ := Option.map_eq_some_iff.mp heval
  rw [Prod.mk.injEq] at hd
  refine ⟨p, _, Run.attached.exec hp, hd.1, rfl, hd.2, ?_⟩
  rintro ⟨k, -, -, hk, -⟩
  rw [hd.2] at hk
  cases k with
  | zero =>
    have hlen := congrArg (fun x => x.1.len) (Option.some.inj hk)
    have hzero : (0 : Nat) = (2 ^ 32 : Int).toNat := hlen
    revert hzero
    decide
  | succ k => cases hk

/-- The device transfers data only for a call that owns the lock and waits, and transfers what this
call asked for. -/
theorem vioblk_transfers (h : Run SmallCalls p) {st : UInt8} (hst : p.step (.serve st) = some p') :
    ∃ t pc f, p.dev.owner = some t ∧ p.phase t = some (pc, f) ∧ (pc = .wait ∨ pc = .yield) ∧
      p'.phase = p.phase ∧ p'.dev.served = p.dev.served ++ [(f.call.transfer, st)] := by
  have hs := h.serial
  obtain ⟨d, hd, rfl⟩ := Option.map_eq_some_iff.mp hst
  have hne : p.dev.served.length ≠ p.dev.requests.length := by
    intro heq
    rw [Vioblk.serve, hs.counted.devIdx, hs.counted.availIdx, heq, if_pos rfl] at hd
    cases hd
  obtain ⟨t, pc, f, ho, hp, hpc⟩ := hs.waiting hne
  obtain ⟨hph, -, hsmall⟩ := hs.phase t pc f hp
  obtain ⟨d', hd', hdef, -⟩ := Vioblk.serve_waiting hs.counted hph
    (hsmall (by rcases hpc with rfl | rfl <;> simp)) hpc hne st
  rw [hd] at hd'
  cases hd'
  exact ⟨t, pc, f, ho, hp, hpc, rfl, by rw [hdef]⟩

/-- A call reads the third sector. -/
theorem vioblk_transfers_read : ∃ p p' : BlkPort Unit, Run SmallCalls p ∧
    p.step (.serve 0) = some p' ∧ p'.dev.served.length = p.dev.served.length + 1 := by
  have heval : ((exec SmallCalls (⟨.attached, fun _ => none⟩ : BlkPort Unit)
      (.io () ⟨virtioBlkTIn, 1024, 4096, 512⟩ :: List.replicate 10 (.run ()))).map
      fun p => (p.step (.serve 0)).isSome) = some true := by
    decide +kernel
  obtain ⟨p, hp, hsome⟩ := Option.map_eq_some_iff.mp heval
  obtain ⟨p', hp'⟩ := Option.isSome_iff_exists.mp hsome
  obtain ⟨t, pc, f, -, -, -, -, heq⟩ := vioblk_transfers (Run.attached.exec hp) hp'
  exact ⟨p, p', Run.attached.exec hp, hp', by rw [heq, List.length_append]; rfl⟩

end BlkPort

end MiniOs
