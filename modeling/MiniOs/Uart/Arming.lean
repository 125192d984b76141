import MiniOs.Uart.Model

/-!
# The interrupt enable bits

The service routine masks an interrupt when it finds nothing to do for it, and the threads
enable it again after they moved bytes.  So a bit that is clear while there is work means that
some thread stands between its access to the buffer and its update of the enable register.
This holds for every order of the statements of any number of threads.
-/

namespace MiniOs

namespace UartPhase

/-- `uart_read` has taken a byte and not yet set the enable bit. -/
def readUnarmed : UartPhase → Bool
  | .readTest _ got | .readHead _ got | .readData _ got _ | .readPublish _ got _ _ | .readArm got =>
      !got.isEmpty
  | _ => false

/-- `uart_write` has put in a byte and not yet set the enable bit. -/
def writeUnarmed : UartPhase → Bool
  | .writeTest _ _ _ put | .writeTail _ _ _ put | .writeData _ _ _ put _
  | .writePublish _ _ _ put _ | .writeArm _ _ _ put => decide (put ≠ 0)
  | _ => false

/-- The thread yields inside `uart_read` or `uart_write`, or returns from it. -/
def yieldsOrReturns : UartPhase → Bool
  | .readYield _ | .readReturn _ | .writeYield .. | .writeReturn _ => true
  | _ => false

theorem not_unarmed_of_yieldsOrReturns {ph : UartPhase} (h : ph.yieldsOrReturns = true) :
    ph.readUnarmed = false ∧ ph.writeUnarmed = false := by
  cases ph <;> simp_all [yieldsOrReturns, readUnarmed, writeUnarmed]

end UartPhase

namespace Uart

variable {u u' : Uart}

/-- `IER_DRIE` is set. -/
def drEnabled (u : Uart) : Bool := u.ier &&& ierDrie != 0

/-- `IER_THREIE` is set. -/
def threEnabled (u : Uart) : Bool := u.ier &&& ierThreie != 0

/-- When the receive interrupt is masked, the receive buffer is full. -/
def RxArmed (u : Uart) : Prop := u.drEnabled = false → u.rxbuf.rbufFull = true

/-- When there is something to send, the transmit interrupt is enabled. -/
def TxArmed (u : Uart) : Prop := u.txbuf.rbufEmpty = false → u.threEnabled = true

theorem drie_or : ∀ x : BitVec 8, ((x ||| ierDrie) &&& ierDrie != 0) = true ∧
    ((x ||| ierDrie) &&& ierThreie != 0) = (x &&& ierThreie != 0) := by
  decide

theorem threie_or : ∀ x : BitVec 8, ((x ||| ierThreie) &&& ierThreie != 0) = true ∧
    ((x ||| ierThreie) &&& ierDrie != 0) = (x &&& ierDrie != 0) := by
  decide

theorem drie_mask : ∀ x : BitVec 8,
    ((x &&& ~~~ ierDrie) &&& ierThreie != 0) = (x &&& ierThreie != 0) := by
  decide

theorem threie_mask : ∀ x : BitVec 8,
    ((x &&& ~~~ ierThreie) &&& ierDrie != 0) = (x &&& ierDrie != 0) := by
  decide

/-! ## The service routine -/

theorem isrReceive_full (h : u.rxbuf.rbufFull = true) (rounds : Nat) : isrReceive rounds u = u := by
  cases rounds with
  | zero => rfl
  | succ rounds => simp [isrReceive, h]

theorem isrReceive_frame (rounds : Nat) (u : Uart) :
    (isrReceive rounds u).ier = u.ier ∧ (isrReceive rounds u).txbuf = u.txbuf := by
  induction rounds generalizing u with
  | zero => exact ⟨rfl, rfl⟩
  | succ rounds ih =>
    rw [isrReceive]
    split
    · obtain ⟨hier, htx⟩ := ih { u.readRbr.2 with
        rxbuf := u.readRbr.2.rxbuf.rbufPutc u.readRbr.1
        received := u.readRbr.2.received ++ [u.readRbr.1] }
      exact ⟨hier, htx⟩
    · exact ⟨rfl, rfl⟩

theorem isrTransmit_rx (u : Uart) (thre : Bool) :
    (u.isrTransmit thre).rxbuf = u.rxbuf ∧ (u.isrTransmit thre).drEnabled = u.drEnabled := by
  rw [isrTransmit]
  split
  · split
    · exact ⟨rfl, rfl⟩
    · exact ⟨rfl, threie_mask u.ier⟩
  · exact ⟨rfl, rfl⟩

theorem RxArmed.uartIsr (h : RxArmed u) (thre : Bool) : RxArmed (u.uartIsr thre) := by
  rw [Uart.uartIsr]
  obtain ⟨hier, -⟩ := isrReceive_frame u.rx.length u
  cases hfull : (isrReceive u.rx.length u).rxbuf.rbufFull with
  | true =>
    simp only [if_true]
    intro _
    rw [(isrTransmit_rx _ thre).1]
    exact hfull
  | false =>
    simp only [Bool.false_eq_true, if_false]
    intro hdr
    rw [(isrTransmit_rx _ thre).2, drEnabled, hier] at hdr
    -- A full buffer stays as it is, so it was not full, and the interrupt was enabled.
    have hwas := h hdr
    rw [isrReceive_full hwas, hwas] at hfull
    cases hfull

theorem TxArmed.isrTransmit (h : TxArmed u) (thre : Bool) : TxArmed (u.isrTransmit thre) := by
  rw [Uart.isrTransmit]
  split
  · split
    case isTrue hne =>
      intro _
      exact h (by simpa using hne)
    case isFalse hempty =>
      intro hne
      have hne' : u.txbuf.rbufEmpty = false := hne
      rw [hne'] at hempty
      exact absurd rfl hempty
  · exact h

theorem TxArmed.uartIsr (h : TxArmed u) (thre : Bool) : TxArmed (u.uartIsr thre) := by
  obtain ⟨hier, htx⟩ := isrReceive_frame u.rx.length u
  have hrx : TxArmed (isrReceive u.rx.length u) := by
    intro hne
    rw [htx] at hne
    rw [threEnabled, hier]
    exact h hne
  rw [Uart.uartIsr]
  apply TxArmed.isrTransmit
  split
  · intro hne
    rw [threEnabled, drie_mask]
    exact hrx hne
  · exact hrx

/-! ## The statements of the threads -/

variable {ph ph' : UartPhase}

/-- A statement that takes a byte is followed by the update of the enable register. -/
theorem statement_rx (h : u.statement ph = some (u', ph')) (harm : RxArmed u ∨ ph.readUnarmed = true) :
    RxArmed u' ∨ ph'.readUnarmed = true := by
  cases ph with
  | readPublish bufsz got hpos c =>
    cases h
    right
    simp [UartPhase.readUnarmed]
  | readArm got =>
    cases h
    left
    intro hdr
    rw [drEnabled, (drie_or u.ier).1] at hdr
    cases hdr
  | readTest bufsz got =>
    cases h
    split <;> exact harm
  | writeArm buf len n put =>
    cases h
    refine harm.imp ?_ fun hph => by cases hph
    intro harmed hdr
    rw [drEnabled, (threie_or u.ier).2] at hdr
    exact harmed hdr
  | out | readReturn | writeReturn => cases h
  | readHead | readData =>
    cases h
    exact harm
  | readWait | readYield | writeWait | writeYield | writeTest | writeTail | writeData | writePublish =>
    cases h
    exact harm.imp_right fun hph => by cases hph

/-- A statement that puts in a byte is followed by the update of the enable register. -/
theorem statement_tx (h : u.statement ph = some (u', ph')) (harm : TxArmed u ∨ ph.writeUnarmed = true) :
    TxArmed u' ∨ ph'.writeUnarmed = true := by
  cases ph with
  | writePublish buf len n put tpos =>
    cases h
    right
    simp [UartPhase.writeUnarmed]
  | writeArm buf len n put =>
    cases h
    left
    intro _
    exact (threie_or u.ier).1
  | writeTest buf len n put =>
    cases h
    split <;> exact harm
  | readArm got =>
    cases h
    refine harm.imp ?_ fun hph => by cases hph
    intro harmed hne
    rw [threEnabled, (drie_or u.ier).2]
    exact harmed hne
  | out | readReturn | writeReturn => cases h
  | writeTail | writeData =>
    cases h
    exact harm
  | writeWait | writeYield | readWait | readYield | readTest | readHead | readData | readPublish =>
    cases h
    exact harm.imp_right fun hph => by cases hph

end Uart

namespace Port

variable {T : Type} {p p' : Port T}

/-- What holds between steps. -/
structure Armed (p : Port T) : Prop where
  rx : p.uart.RxArmed ∨ ∃ t, (p.phase t).readUnarmed = true
  tx : p.uart.TxArmed ∨ ∃ t, (p.phase t).writeUnarmed = true

theorem armed_uartOpen (u : Uart) : Armed (⟨u.uartOpen, fun _ => .out⟩ : Port T) := by
  refine ⟨.inl ?_, .inl ?_⟩
  · intro hdr
    have hset : (ierDrie &&& ierDrie != 0) = true := by decide
    exact absurd (hset.symm.trans hdr) (by decide)
  · intro hne
    cases hne

variable [DecidableEq T] {ph : UartPhase}

/-- Thread `t` moves: a thread that owes an update still does, or it is `t`. -/
theorem owes_goto {owes : UartPhase → Bool} {A A' : Prop} {t : T}
    (h : A ∨ ∃ t, owes (p.phase t) = true) (hkeep : A → A' ∨ owes ph = true)
    (howes : owes (p.phase t) = true → A' ∨ owes ph = true) :
    A' ∨ ∃ u, owes ((p.goto t ph).phase u) = true := by
  have hmine : A' ∨ owes ph = true → A' ∨ ∃ u, owes ((p.goto t ph).phase u) = true := by
    rintro (ha | hph)
    · exact .inl ha
    · refine .inr ⟨t, ?_⟩
      rw [phase_goto_self]
      exact hph
  rcases h with ha | ⟨u, hu⟩
  · exact hmine (hkeep ha)
  · by_cases hut : u = t
    · subst hut
      exact hmine (howes hu)
    · refine .inr ⟨u, ?_⟩
      rw [phase_goto_of_ne p hut]
      exact hu

/-- Thread `t` starts or ends a call. -/
theorem Armed.goto (h : Armed p) {t : T} (hr : (p.phase t).readUnarmed = false)
    (hw : (p.phase t).writeUnarmed = false) : Armed (p.goto t ph) := by
  refine ⟨owes_goto h.rx .inl fun ho => ?_, owes_goto h.tx .inl fun ho => ?_⟩
  · rw [hr] at ho
    cases ho
  · rw [hw] at ho
    cases ho

theorem Armed.step (h : Armed p) {lbl : UartLabel T} (hst : p.step lbl = some p') : Armed p' := by
  cases lbl with
  | arrive c =>
    cases hst
    exact ⟨h.rx, h.tx⟩
  | isr thre =>
    cases hst
    exact ⟨h.rx.imp_left fun hr => hr.uartIsr thre, h.tx.imp_left fun ht => ht.uartIsr thre⟩
  | read | write =>
    simp only [Port.step] at hst
    split at hst <;> cases hst
    rename_i hp
    exact h.goto (by rw [hp]; rfl) (by rw [hp]; rfl)
  | run t =>
    obtain ⟨⟨u', ph'⟩, heq, rfl⟩ := Option.map_eq_some_iff.mp hst
    exact ⟨owes_goto h.rx (fun ha => Uart.statement_rx heq (.inl ha))
        (fun ho => Uart.statement_rx heq (.inr ho)),
      owes_goto h.tx (fun ha => Uart.statement_tx heq (.inl ha))
        (fun ho => Uart.statement_tx heq (.inr ho))⟩
  | ret t =>
    simp only [Port.step] at hst
    split at hst <;> cases hst
    all_goals
      rename_i hp
      exact h.goto (by rw [hp]; rfl) (by rw [hp]; rfl)

theorem Run.armed {ok : Port T → UartLabel T → Prop} (h : Run ok p) : Armed p := by
  induction h with
  | opened u => exact armed_uartOpen u
  | step lbl _ _ hst ih => exact ih.step hst

/-- The port does not stall.  When a thread yields inside a call or returns from it, in any
order of the statements of all threads and of interrupts, and no other thread stands between
its access to a buffer and its update of the enable register: if there is something to send,
the transmit interrupt is enabled, and if the receive interrupt is masked, the receive buffer
is full. -/
theorem uart_never_stalls (h : Run (fun _ _ => True) p) {t : T}
    (ht : (p.phase t).yieldsOrReturns = true)
    (hothers : ∀ u, u ≠ t → (p.phase u).readUnarmed = false ∧ (p.phase u).writeUnarmed = false) :
    (p.uart.txbuf.rbufEmpty = false → p.uart.threEnabled = true) ∧
      (p.uart.drEnabled = false → p.uart.rxbuf.rbufFull = true) := by
  have hall : ∀ u, (p.phase u).readUnarmed = false ∧ (p.phase u).writeUnarmed = false := by
    intro u
    by_cases hut : u = t
    · rw [hut]
      exact UartPhase.not_unarmed_of_yieldsOrReturns ht
    · exact hothers u hut
  refine ⟨?_, ?_⟩
  · rcases h.armed.tx with htx | ⟨u, hu⟩
    · exact htx
    · rw [(hall u).2] at hu
      cases hu
  · rcases h.armed.rx with hrx | ⟨u, hu⟩
    · exact hrx
    · rw [(hall u).1] at hu
      cases hu

/-- A call that writes one byte, with an interrupt before its update of the enable register. -/
theorem uart_never_stalls_write : ∃ p : Port Unit, Run (fun _ _ => True) p ∧
    (p.phase ()).yieldsOrReturns = true ∧ p.uart.txbuf.rbufEmpty = false ∧
    p.uart.threEnabled = true := by
  have heval : (blank.exec [.write () (fun _ => 65) 1, .run (), .run (), .run (), .run (), .run (),
      .run (), .isr false, .run ()]).map (fun p =>
        (p.phase ()).yieldsOrReturns && !p.uart.txbuf.rbufEmpty) = some true := by
    decide
  obtain ⟨p, hp, hat⟩ := Option.map_eq_some_iff.mp heval
  rw [Bool.and_eq_true, Bool.not_eq_true'] at hat
  have hrun : Run (fun _ _ => True) p := Run.exec (fun _ _ => trivial) (Run.opened _) hp
  exact ⟨p, hrun, hat.1, hat.2, (uart_never_stalls hrun hat.1 fun u hu => absurd rfl hu).1 hat.2⟩

end Port

end MiniOs
