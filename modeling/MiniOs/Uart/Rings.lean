import MiniOs.Uart.Model

/-!
# The bytes in the ring buffers

Kernel code is not preempted, so a thread stands in the middle of `uart_read` or `uart_write`
only while every other thread is outside or in a `thread_yield` of theirs.  In such runs each
buffer has one producer and one consumer: the threads on one side and the service routine,
which comes between any two statements, on the other.

What went into a buffer is what went out of it followed by its contents.  A thread that has
read a position, or a byte, finds it unchanged when it goes on (`PhaseOk`).
-/

namespace MiniOs

namespace Ringbuf

variable {r : Ringbuf}

theorem six_lt : 6 < 32 := by decide

theorem rbufEmpty_iff : r.rbufEmpty = true ↔ r.count = 0 := by
  rw [rbufEmpty, beq_iff_eq, Ring.count]
  constructor
  · intro h
    rw [h, BitVec.sub_self]
    rfl
  · intro h
    have : r.tail - r.head = 0 := BitVec.eq_of_toNat_eq h
    exact (sub_eq_zero.mp this).symm

/-- The truncation to 16 bits does not matter while the fill level is in range. -/
theorem rbufFull_iff (h : r.count ≤ uartRbufsz) : r.rbufFull = true ↔ r.count = uartRbufsz := by
  rw [rbufFull, beq_iff_eq, ← BitVec.toNat_inj, BitVec.toNat_setWidth]
  show r.count % 2 ^ 16 = 64 ↔ _
  rw [Nat.mod_eq_of_lt (Nat.lt_of_le_of_lt h (by decide))]

theorem lt_of_rbufFull_eq_false (h : r.count ≤ uartRbufsz) (hf : r.rbufFull = false) :
    r.count < uartRbufsz := by
  refine lt_of_le_of_ne h fun heq => ?_
  rw [(rbufFull_iff h).mpr heq] at hf
  cases hf

theorem pos_of_rbufEmpty_eq_false (h : r.rbufEmpty = false) : 0 < r.count := by
  refine Nat.pos_of_ne_zero fun heq => ?_
  rw [rbufEmpty_iff.mpr heq] at h
  cases h

/-- A new byte leaves the oldest one where it is. -/
theorem front_rbufPutc (hlt : r.count < uartRbufsz) (hpos : 0 < r.count) (c : UInt8) :
    (r.rbufPutc c).front = r.front :=
  Function.update_of_ne (Ring.cell_tail_ne six_lt hlt hpos) _ _

end Ringbuf

namespace Uart

variable {u u' : Uart}

/-- What a thread has seen of the buffers still holds. -/
def PhaseOk (u : Uart) : UartPhase → Prop
  | .readHead _ _ => 0 < u.rxbuf.count
  | .readData _ _ hpos => 0 < u.rxbuf.count ∧ hpos = u.rxbuf.head
  | .readPublish _ _ hpos c => 0 < u.rxbuf.count ∧ hpos = u.rxbuf.head ∧ c = u.rxbuf.front
  | .writeTail .. => u.txbuf.count < uartRbufsz
  | .writeData _ _ _ _ tpos => u.txbuf.count < uartRbufsz ∧ tpos = u.txbuf.tail
  | .writePublish buf _ n _ tpos => u.txbuf.count < uartRbufsz ∧ tpos = u.txbuf.tail ∧
      u.txbuf.buf (u.txbuf.tail.toNat % uartRbufsz) = buf n
  | _ => True

/-- The buffers hold what went in and did not come out, in order. -/
structure Ordered (u : Uart) : Prop where
  rx_fits : u.rxbuf.count ≤ uartRbufsz
  tx_fits : u.txbuf.count ≤ uartRbufsz
  rx : u.received = u.delivered ++ u.rxbuf.contents
  tx : u.written = u.sent ++ u.txbuf.contents
  taken : u.taken = u.received

/-- What the service routine leaves alone: the oldest byte and the read position of the receive
buffer, the free cells and the write position of the transmit buffer. -/
structure Undisturbed (u u' : Uart) : Prop where
  rx_count : 0 < u.rxbuf.count → u.rxbuf.count ≤ u'.rxbuf.count
  rx_head : u'.rxbuf.head = u.rxbuf.head
  rx_front : 0 < u.rxbuf.count → u'.rxbuf.front = u.rxbuf.front
  tx_count : u'.txbuf.count ≤ u.txbuf.count
  tx_tail : u'.txbuf.tail = u.txbuf.tail
  tx_buf : u'.txbuf.buf = u.txbuf.buf

namespace Undisturbed

theorem refl (u : Uart) : Undisturbed u u :=
  ⟨fun _ => Nat.le_refl _, rfl, fun _ => rfl, Nat.le_refl _, rfl, rfl⟩

theorem trans {u1 u2 u3 : Uart} (h : Undisturbed u1 u2) (h' : Undisturbed u2 u3) :
    Undisturbed u1 u3 := by
  have hpos : 0 < u1.rxbuf.count → 0 < u2.rxbuf.count := fun hp => Nat.lt_of_lt_of_le hp (h.rx_count hp)
  exact ⟨fun hp => Nat.le_trans (h.rx_count hp) (h'.rx_count (hpos hp)), h'.rx_head.trans h.rx_head,
    fun hp => (h'.rx_front (hpos hp)).trans (h.rx_front hp), Nat.le_trans h'.tx_count h.tx_count,
    h'.tx_tail.trans h.tx_tail, h'.tx_buf.trans h.tx_buf⟩

theorem setIer (u : Uart) (ier : BitVec 8) : Undisturbed u { u with ier := ier } :=
  ⟨fun _ => Nat.le_refl _, rfl, fun _ => rfl, Nat.le_refl _, rfl, rfl⟩

theorem phaseOk (h : Undisturbed u u') {ph : UartPhase} (hph : u.PhaseOk ph) : u'.PhaseOk ph := by
  cases ph with
  | readHead => exact Nat.lt_of_lt_of_le hph (h.rx_count hph)
  | readData bufsz got hpos =>
    exact ⟨Nat.lt_of_lt_of_le hph.1 (h.rx_count hph.1), hph.2.trans h.rx_head.symm⟩
  | readPublish bufsz got hpos c =>
    exact ⟨Nat.lt_of_lt_of_le hph.1 (h.rx_count hph.1), hph.2.1.trans h.rx_head.symm,
      hph.2.2.trans (h.rx_front hph.1).symm⟩
  | writeTail => exact Nat.lt_of_le_of_lt h.tx_count hph
  | writeData buf len n put tpos =>
    exact ⟨Nat.lt_of_le_of_lt h.tx_count hph.1, hph.2.trans h.tx_tail.symm⟩
  | writePublish buf len n put tpos =>
    refine ⟨Nat.lt_of_le_of_lt h.tx_count hph.1, hph.2.1.trans h.tx_tail.symm, ?_⟩
    rw [h.tx_buf, h.tx_tail]
    exact hph.2.2
  | out | readWait | readYield | readTest | readArm | readReturn | writeWait | writeYield | writeTest
  | writeArm | writeReturn => trivial

end Undisturbed

/-! ## The service routine -/

theorem Ordered.setIer (h : Ordered u) (ier : BitVec 8) : Ordered { u with ier := ier } :=
  ⟨h.rx_fits, h.tx_fits, h.rx, h.tx, h.taken⟩

/-- One round of the receive loop. -/
theorem Ordered.receive (h : Ordered u) (hf : u.rxbuf.rbufFull = false)
    (hu' : u' = { u.readRbr.2 with
      rxbuf := u.rxbuf.rbufPutc u.readRbr.1
      received := u.received ++ [u.readRbr.1] }) : Ordered u' ∧ Undisturbed u u' := by
  have hlt := Ringbuf.lt_of_rbufFull_eq_false h.rx_fits hf
  have hcount : (u.rxbuf.rbufPutc u.readRbr.1).count = u.rxbuf.count + 1 :=
    Ring.count_push Ringbuf.six_lt _ hlt
  have hcont : (u.rxbuf.rbufPutc u.readRbr.1).contents = u.rxbuf.contents ++ [u.readRbr.1] :=
    Ring.contents_push Ringbuf.six_lt _ hlt
  subst hu'
  refine ⟨⟨?_, h.tx_fits, ?_, h.tx, ?_⟩, ⟨fun _ => ?_, rfl, fun hpos => ?_, Nat.le_refl _, rfl, rfl⟩⟩
  · show (u.rxbuf.rbufPutc _).count ≤ _
    rw [hcount]
    exact hlt
  · show u.received ++ [_] = u.delivered ++ (u.rxbuf.rbufPutc _).contents
    rw [hcont, h.rx, List.append_assoc]
  · show u.taken ++ [_] = u.received ++ [_]
    rw [h.taken]
    rfl
  · show _ ≤ (u.rxbuf.rbufPutc _).count
    rw [hcount]
    exact Nat.le_succ _
  · exact Ringbuf.front_rbufPutc hlt hpos _

theorem Ordered.isrReceive (h : Ordered u) (rounds : Nat) :
    Ordered (Uart.isrReceive rounds u) ∧ Undisturbed u (Uart.isrReceive rounds u) := by
  induction rounds generalizing u with
  | zero => exact ⟨h, .refl u⟩
  | succ rounds ih =>
    rw [Uart.isrReceive]
    split
    case isTrue hc =>
      rw [Bool.and_eq_true, Bool.not_eq_true'] at hc
      obtain ⟨hord, hund⟩ := h.receive hc.2 rfl
      obtain ⟨hord', hund'⟩ := ih hord
      exact ⟨hord', hund.trans hund'⟩
    case isFalse => exact ⟨h, .refl u⟩

theorem Ordered.isrTransmit (h : Ordered u) (thre : Bool) :
    Ordered (u.isrTransmit thre) ∧ Undisturbed u (u.isrTransmit thre) := by
  rw [Uart.isrTransmit]
  split
  case isFalse => exact ⟨h, .refl u⟩
  case isTrue =>
    split
    case isFalse => exact ⟨h.setIer _, .setIer u _⟩
    case isTrue hne =>
      have hpos : 0 < u.txbuf.count := Ringbuf.pos_of_rbufEmpty_eq_false (by simpa using hne)
      have hcount : u.txbuf.rbufGetc.2.count + 1 = u.txbuf.count := Ring.count_pop Ringbuf.six_lt hpos
      have hcont : u.txbuf.contents = u.txbuf.rbufGetc.1 :: u.txbuf.rbufGetc.2.contents :=
        Ring.contents_pop Ringbuf.six_lt hpos
      have hle : u.txbuf.rbufGetc.2.count ≤ u.txbuf.count := by omega
      refine ⟨⟨h.rx_fits, Nat.le_trans hle h.tx_fits, h.rx, ?_, h.taken⟩,
        ⟨fun _ => Nat.le_refl _, rfl, fun _ => rfl, hle, rfl, rfl⟩⟩
      rw [h.tx, hcont, List.append_assoc]
      rfl

theorem Ordered.uartIsr (h : Ordered u) (thre : Bool) :
    Ordered (u.uartIsr thre) ∧ Undisturbed u (u.uartIsr thre) := by
  obtain ⟨hord, hund⟩ := h.isrReceive u.rx.length
  rw [Uart.uartIsr]
  split
  · obtain ⟨hord', hund'⟩ := (hord.setIer _).isrTransmit thre
    exact ⟨hord', (hund.trans (.setIer _ _)).trans hund'⟩
  · obtain ⟨hord', hund'⟩ := hord.isrTransmit thre
    exact ⟨hord', hund.trans hund'⟩

/-! ## The statements of the threads -/

variable {ph ph' : UartPhase}

theorem Ordered.statement (h : Ordered u) (hph : u.PhaseOk ph)
    (hst : u.statement ph = some (u', ph')) : Ordered u' ∧ u'.PhaseOk ph' := by
  cases ph with
  | readWait | writeWait =>
    cases hst
    refine ⟨h, ?_⟩
    split <;> trivial
  | readTest bufsz got =>
    cases hst
    refine ⟨h, ?_⟩
    split
    case isTrue hc => exact Ringbuf.pos_of_rbufEmpty_eq_false hc.2
    case isFalse => trivial
  | readHead | writeTail =>
    cases hst
    exact ⟨h, hph, rfl⟩
  | readData bufsz got hpos =>
    cases hst
    obtain ⟨hc, rfl⟩ := hph
    exact ⟨h, hc, rfl, rfl⟩
  | readPublish bufsz got hpos c =>
    cases hst
    obtain ⟨hc, rfl, rfl⟩ := hph
    have hcount : u.rxbuf.pop.count + 1 = u.rxbuf.count := Ring.count_pop Ringbuf.six_lt hc
    have hfits := h.rx_fits
    refine ⟨⟨?_, h.tx_fits, ?_, h.tx, h.taken⟩, trivial⟩
    · show u.rxbuf.pop.count ≤ _
      omega
    · show u.received = (u.delivered ++ [u.rxbuf.front]) ++ u.rxbuf.pop.contents
      rw [h.rx, Ring.contents_pop Ringbuf.six_lt hc, List.append_assoc]
      rfl
  | readArm got =>
    cases hst
    exact ⟨h.setIer _, trivial⟩
  | writeTest buf len n put =>
    cases hst
    refine ⟨h, ?_⟩
    split
    case isTrue hc => exact Ringbuf.lt_of_rbufFull_eq_false h.tx_fits hc.2
    case isFalse => trivial
  | writeData buf len n put tpos =>
    cases hst
    obtain ⟨hc, rfl⟩ := hph
    have hcont : (u.txbuf.store (buf n)).contents = u.txbuf.contents :=
      Ring.contents_store Ringbuf.six_lt _ hc
    refine ⟨⟨h.rx_fits, h.tx_fits, h.rx, ?_, h.taken⟩, hc, rfl, ?_⟩
    · show u.written = u.sent ++ (u.txbuf.store (buf n)).contents
      rw [hcont]
      exact h.tx
    · exact Function.update_self ..
  | writePublish buf len n put tpos =>
    cases hst
    obtain ⟨hc, rfl, hcell⟩ := hph
    have hcount : u.txbuf.publish.count = u.txbuf.count + 1 := Ring.count_publish Ringbuf.six_lt hc
    have hcont : u.txbuf.publish.contents = u.txbuf.contents ++ [buf n] := by
      rw [← hcell]
      exact Ring.contents_publish Ringbuf.six_lt hc
    refine ⟨⟨h.rx_fits, ?_, h.rx, ?_, h.taken⟩, trivial⟩
    · show u.txbuf.publish.count ≤ _
      rw [hcount]
      exact hc
    · show u.written ++ [buf n] = u.sent ++ u.txbuf.publish.contents
      rw [hcont, h.tx, List.append_assoc]
  | writeArm buf len n put =>
    cases hst
    refine ⟨h.setIer _, ?_⟩
    split <;> trivial
  | readYield | writeYield =>
    cases hst
    exact ⟨h, trivial⟩
  | out | readReturn | writeReturn => cases hst

end Uart

/-- The thread is outside `uart_read` and `uart_write`, or in a `thread_yield` of theirs. -/
def UartPhase.suspended : UartPhase → Bool
  | .out | .readYield _ | .writeYield .. => true
  | _ => false

namespace Port

variable {T : Type} {p p' : Port T} {ph : UartPhase}

/-- A thread goes on only while all others are suspended. -/
def Cooperative (p : Port T) : UartLabel T → Prop
  | .arrive _ | .isr _ => True
  | .read t _ | .write t _ _ | .run t | .ret t => ∀ u, u ≠ t → (p.phase u).suspended = true

/-- What holds between steps. -/
structure Sound (p : Port T) : Prop where
  ordered : p.uart.Ordered
  phase : ∀ t, p.uart.PhaseOk (p.phase t)

theorem sound_uartOpen (u : Uart) : Sound (⟨u.uartOpen, fun _ => .out⟩ : Port T) := by
  have hcount : ∀ r : Ringbuf, r.rbufInit.count = 0 := by
    intro r
    show ((0 : BitVec 32) - 0).toNat = 0
    decide
  have hcont : ∀ r : Ringbuf, r.rbufInit.contents = [] :=
    fun r => Ring.contents_eq_nil.mpr (hcount r)
  refine ⟨⟨?_, ?_, ?_, ?_, rfl⟩, fun _ => trivial⟩
  · exact (hcount u.rxbuf).trans_le (Nat.zero_le _)
  · exact (hcount u.txbuf).trans_le (Nat.zero_le _)
  · exact (hcont u.rxbuf).symm
  · exact (hcont u.txbuf).symm

theorem phaseOk_of_suspended {u : Uart} (h : ph.suspended = true) : u.PhaseOk ph := by
  cases ph <;> trivial

variable [DecidableEq T]

/-- Thread `t` moves, and the others are suspended. -/
theorem sound_goto {t : T} {u : Uart} (hcoop : ∀ v, v ≠ t → (p.phase v).suspended = true)
    (hord : u.Ordered) (hph : u.PhaseOk ph) : Sound { p.goto t ph with uart := u } := by
  refine ⟨hord, fun v => ?_⟩
  by_cases hv : v = t
  · rw [hv, phase_goto_self]
    exact hph
  · rw [phase_goto_of_ne p hv]
    exact phaseOk_of_suspended (hcoop v hv)

theorem Sound.step (h : Sound p) {lbl : UartLabel T} (hcoop : p.Cooperative lbl)
    (hst : p.step lbl = some p') : Sound p' := by
  cases lbl with
  | arrive c =>
    cases hst
    refine ⟨⟨h.ordered.rx_fits, h.ordered.tx_fits, h.ordered.rx, h.ordered.tx, h.ordered.taken⟩, ?_⟩
    intro t
    have hund : Uart.Undisturbed p.uart { p.uart with rx := p.uart.rx ++ [c] } :=
      ⟨fun _ => Nat.le_refl _, rfl, fun _ => rfl, Nat.le_refl _, rfl, rfl⟩
    exact hund.phaseOk (h.phase t)
  | isr thre =>
    cases hst
    obtain ⟨hord, hund⟩ := h.ordered.uartIsr thre
    exact ⟨hord, fun t => hund.phaseOk (h.phase t)⟩
  | read | write =>
    simp only [Port.step] at hst
    split at hst <;> cases hst
    refine sound_goto hcoop h.ordered ?_
    split <;> trivial
  | run t =>
    obtain ⟨⟨u', ph'⟩, heq, rfl⟩ := Option.map_eq_some_iff.mp hst
    obtain ⟨hord, hph⟩ := h.ordered.statement (h.phase t) heq
    exact sound_goto hcoop hord hph
  | ret t =>
    simp only [Port.step] at hst
    split at hst <;> cases hst <;> exact sound_goto hcoop h.ordered trivial

theorem Run.sound (h : Run Cooperative p) : Sound p := by
  induction h with
  | opened u => exact sound_uartOpen u
  | step lbl _ hok hst ih => exact ih.step hok hst

/-- The buffers lose, duplicate and reorder nothing.  In every state of a run, with the service
routine between any two statements and positions that wrap around, what came out of a buffer is
the first part of what went in and the unread bytes are the rest; the fill level is in range; the
cell that the next insertion writes holds no unread byte; and the service routine has stored all
it read from the receive register. -/
theorem uart_rings_in_order (h : Run Cooperative p) :
    p.uart.delivered <+: p.uart.received ∧ p.uart.sent <+: p.uart.written ∧
      p.uart.received = p.uart.delivered ++ p.uart.rxbuf.contents ∧
      p.uart.written = p.uart.sent ++ p.uart.txbuf.contents ∧
      p.uart.rxbuf.count ≤ uartRbufsz ∧ p.uart.txbuf.count ≤ uartRbufsz ∧
      (p.uart.rxbuf.rbufFull = false → ∀ i < p.uart.rxbuf.count,
        (p.uart.rxbuf.head.toNat + i) % uartRbufsz ≠ p.uart.rxbuf.tail.toNat % uartRbufsz) ∧
      (∀ t buf len n put tpos, p.phase t = .writeData buf len n put tpos →
        ∀ i < p.uart.txbuf.count,
          (p.uart.txbuf.head.toNat + i) % uartRbufsz ≠ tpos.toNat % uartRbufsz) ∧
      p.uart.taken = p.uart.received := by
  obtain ⟨hord, hph⟩ := h.sound
  refine ⟨⟨_, hord.rx.symm⟩, ⟨_, hord.tx.symm⟩, hord.rx, hord.tx, hord.rx_fits, hord.tx_fits, ?_, ?_,
    hord.taken⟩
  · intro hf i hi
    exact Ring.cell_tail_ne Ringbuf.six_lt (Ringbuf.lt_of_rbufFull_eq_false hord.rx_fits hf) hi
  · intro t buf len n put tpos ht i hi
    have hok := hph t
    rw [ht] at hok
    obtain ⟨hc, rfl⟩ := hok
    exact Ring.cell_tail_ne Ringbuf.six_lt hc hi

/-- A byte comes in, the service routine stores it, and a call hands it out. -/
theorem uart_rings_in_order_read : ∃ p : Port Unit, Run Cooperative p ∧ p.uart.delivered = [65] ∧
    p.uart.delivered <+: p.uart.received := by
  have hcoop : ∀ (p : Port Unit) lbl, p.Cooperative lbl := by
    intro p lbl
    cases lbl with
    | arrive | isr => trivial
    | read | write | run | ret => exact fun u hu => absurd rfl hu
  have heval : (blank.exec [.arrive 65, .read () 4, .run (), .isr false, .run (), .run (), .run (),
      .run (), .isr true, .run (), .run ()]).map (fun p => p.uart.delivered) = some [65] := by
    decide
  obtain ⟨p, hp, hd⟩ := Option.map_eq_some_iff.mp heval
  have hrun : Run Cooperative p := Run.exec hcoop (Run.opened _) hp
  exact ⟨p, hrun, hd, (uart_rings_in_order hrun).1⟩

end Port

end MiniOs
