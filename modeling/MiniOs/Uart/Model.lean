import MiniOs.Base.Ring

/-!
# The serial port driver (`uart.c`)

The receive and the transmit buffer are rings of 64 bytes with free-running 32-bit positions:
`head` is `hpos`, `tail` is `tpos` and `buf` is `data`.  On RISC-V a `uint_fast16_t` has at
least 32 bits, so the local copies of the positions lose nothing.

`UartPhase` says between which two statements of `uart_read` or `uart_write` a thread is, and
one step of a thread is one statement.  The interrupt service routine runs to its end between
two statements.  The three statements that change the enable register with interrupts masked
are one step.

Of the device the model has the enable register and the bytes that came in and were not read
yet: the data-ready bit of the line status register is set when there are any.  When the
transmitter is empty is up to the device.  The lists of bytes at the end of `Uart` are the
history: what was read from the receive register, what went into and out of each buffer.
-/

namespace MiniOs

/-- `UART_RBUFSZ`. -/
abbrev uartRbufsz : Nat := 64

/-- `struct ringbuf`. -/
abbrev Ringbuf := Ring UInt8 32 6

namespace Ringbuf

/-- `rbuf_init`. -/
def rbufInit (r : Ringbuf) : Ringbuf := { r with head := 0, tail := 0 }

/-- `rbuf_empty`. -/
def rbufEmpty (r : Ringbuf) : Bool := r.head == r.tail

/-- `rbuf_full`, with the difference truncated to 16 bits. -/
def rbufFull (r : Ringbuf) : Bool := (r.tail - r.head).setWidth 16 == 64

/-- `rbuf_putc` as a whole, as the interrupt service routine runs it. -/
def rbufPutc (r : Ringbuf) (c : UInt8) : Ringbuf :=
  let tpos := r.tail
  { r with buf := Function.update r.buf (tpos.toNat % uartRbufsz) c, tail := tpos + 1 }

/-- `rbuf_getc` as a whole, as the interrupt service routine runs it. -/
def rbufGetc (r : Ringbuf) : UInt8 × Ringbuf :=
  let hpos := r.head
  (r.buf (hpos.toNat % uartRbufsz), { r with head := hpos + 1 })

end Ringbuf

/-- `IER_DRIE`. -/
def ierDrie : BitVec 8 := 1#8 <<< 0

/-- `IER_THREIE`. -/
def ierThreie : BitVec 8 := 1#8 <<< 1

/-- The device, its buffers, and the history. -/
structure Uart where
  ier : BitVec 8
  /-- The bytes that came in and were not read. -/
  rx : List UInt8
  rxbuf : Ringbuf
  txbuf : Ringbuf
  /-- What `uart_isr` read from the receive register. -/
  taken : List UInt8
  /-- What went into `rxbuf`, and what went out of it. -/
  received : List UInt8
  delivered : List UInt8
  /-- What went into `txbuf`, and what went out of it to the transmit register. -/
  written : List UInt8
  sent : List UInt8

namespace Uart

/-- The data-ready bit of the line status register. -/
def dataReady (u : Uart) : Bool := !u.rx.isEmpty

/-- A read of the receive register in `uart_isr`. -/
def readRbr (u : Uart) : UInt8 × Uart :=
  let c := u.rx.headD 0
  (c, { u with rx := u.rx.tail, taken := u.taken ++ [c] })

/-- `uart_open`, after the check that the device is not open. -/
def uartOpen (u : Uart) : Uart :=
  { ier := ierDrie
    rx := u.rx.tail
    rxbuf := u.rxbuf.rbufInit
    txbuf := u.txbuf.rbufInit
    taken := []
    received := []
    delivered := []
    written := []
    sent := [] }

/-- The loop of `uart_isr` that empties the receive register.  A round reads one byte, so the
number of bytes that are there bounds the rounds. -/
def isrReceive : Nat → Uart → Uart
  | 0, u => u
  | rounds + 1, u =>
      if u.dataReady && !u.rxbuf.rbufFull then
        let (c, u) := u.readRbr
        isrReceive rounds { u with rxbuf := u.rxbuf.rbufPutc c, received := u.received ++ [c] }
      else u

/-- The transmit half of `uart_isr`.  `thre` is the bit of the line status register. -/
def isrTransmit (u : Uart) (thre : Bool) : Uart :=
  if thre then
    if !u.txbuf.rbufEmpty then
      let (c, txbuf) := u.txbuf.rbufGetc
      { u with txbuf := txbuf, sent := u.sent ++ [c] }
    else { u with ier := u.ier &&& ~~~ ierThreie }
  else u

/-- `uart_isr`. -/
def uartIsr (u : Uart) (thre : Bool) : Uart :=
  let u := isrReceive u.rx.length u
  let u := if u.rxbuf.rbufFull then { u with ier := u.ier &&& ~~~ ierDrie } else u
  u.isrTransmit thre

end Uart

/-- Before which statement a thread is.  `got` is what `uart_read` has copied, so its length
is `n`; `put` is how many bytes `uart_write` has put in since it last set the enable register. -/
inductive UartPhase where
  | out
  /-- At the test of the first loop of `uart_read`, and in its `thread_yield`. -/
  | readWait (bufsz : Int)
  | readYield (bufsz : Int)
  /-- At the test of the second loop. -/
  | readTest (bufsz : Int) (got : List UInt8)
  /-- The three statements of `rbuf_getc`. -/
  | readHead (bufsz : Int) (got : List UInt8)
  | readData (bufsz : Int) (got : List UInt8) (hpos : BitVec 32)
  | readPublish (bufsz : Int) (got : List UInt8) (hpos : BitVec 32) (c : UInt8)
  /-- At the update of the enable register, and at the return. -/
  | readArm (got : List UInt8)
  | readReturn (got : List UInt8)
  /-- At the test of the first inner loop of `uart_write`, and in its `thread_yield`. -/
  | writeWait (buf : Nat → UInt8) (len : Int) (n : Nat)
  | writeYield (buf : Nat → UInt8) (len : Int) (n : Nat)
  /-- At the test of the second inner loop. -/
  | writeTest (buf : Nat → UInt8) (len : Int) (n put : Nat)
  /-- The three statements of `rbuf_putc`. -/
  | writeTail (buf : Nat → UInt8) (len : Int) (n put : Nat)
  | writeData (buf : Nat → UInt8) (len : Int) (n put : Nat) (tpos : BitVec 32)
  | writePublish (buf : Nat → UInt8) (len : Int) (n put : Nat) (tpos : BitVec 32)
  /-- At the update of the enable register, and at the return. -/
  | writeArm (buf : Nat → UInt8) (len : Int) (n put : Nat)
  | writeReturn (n : Nat)

/-- The port, and where each thread is. -/
structure Port (T : Type) where
  uart : Uart
  phase : T → UartPhase

/-- What can happen next: a byte comes in, an interrupt, a call, a statement of a thread, or
the return from a call. -/
inductive UartLabel (T : Type) where
  | arrive (c : UInt8)
  | isr (thre : Bool)
  | read (t : T) (bufsz : Int)
  | write (t : T) (buf : Nat → UInt8) (len : Int)
  | run (t : T)
  | ret (t : T)

/-- One statement of `uart_read` or `uart_write`. -/
def Uart.statement (u : Uart) : UartPhase → Option (Uart × UartPhase)
  | .readWait bufsz =>
      some (u, if u.rxbuf.rbufEmpty then .readYield bufsz else .readTest bufsz [])
  | .readYield bufsz => some (u, .readWait bufsz)
  | .readTest bufsz got =>
      some (u, if got.length < bufsz ∧ u.rxbuf.rbufEmpty = false then .readHead bufsz got
        else .readArm got)
  | .readHead bufsz got => some (u, .readData bufsz got u.rxbuf.head)
  | .readData bufsz got hpos =>
      some (u, .readPublish bufsz got hpos (u.rxbuf.buf (hpos.toNat % uartRbufsz)))
  | .readPublish bufsz got hpos c =>
      some ({ u with
        rxbuf := { u.rxbuf with head := hpos + 1 }
        delivered := u.delivered ++ [c] }, .readTest bufsz (got ++ [c]))
  | .readArm got => some ({ u with ier := u.ier ||| ierDrie }, .readReturn got)
  | .writeWait buf len n =>
      some (u, if u.txbuf.rbufFull then .writeYield buf len n else .writeTest buf len n 0)
  | .writeYield buf len n => some (u, .writeWait buf len n)
  | .writeTest buf len n put =>
      some (u, if n < len ∧ u.txbuf.rbufFull = false then .writeTail buf len n put
        else .writeArm buf len n put)
  | .writeTail buf len n put => some (u, .writeData buf len n put u.txbuf.tail)
  | .writeData buf len n put tpos =>
      some ({ u with txbuf :=
        { u.txbuf with buf := Function.update u.txbuf.buf (tpos.toNat % uartRbufsz) (buf n) } },
        .writePublish buf len n put tpos)
  | .writePublish buf len n put tpos =>
      some ({ u with
        txbuf := { u.txbuf with tail := tpos + 1 }
        written := u.written ++ [buf n] }, .writeTest buf len (n + 1) (put + 1))
  | .writeArm buf len n _ =>
      some ({ u with ier := u.ier ||| ierThreie },
        if n < len then .writeWait buf len n else .writeReturn n)
  | .out | .readReturn _ | .writeReturn _ => none

namespace Port

variable {T : Type} [DecidableEq T]

/-- The port with thread `t` at `ph`. -/
def goto (p : Port T) (t : T) (ph : UartPhase) : Port T :=
  { p with phase := Function.update p.phase t ph }

@[simp]
theorem phase_goto_self (p : Port T) (t : T) (ph : UartPhase) : (p.goto t ph).phase t = ph :=
  Function.update_self ..

theorem phase_goto_of_ne (p : Port T) {t u : T} (h : u ≠ t) (ph : UartPhase) :
    (p.goto t ph).phase u = p.phase u :=
  Function.update_of_ne h _ _

/-- One step.  There is no result when the thread is not where the step begins. -/
def step (p : Port T) : UartLabel T → Option (Port T)
  | .arrive c => some { p with uart := { p.uart with rx := p.uart.rx ++ [c] } }
  | .isr thre => some { p with uart := p.uart.uartIsr thre }
  | .read t bufsz =>
      match p.phase t with
      | .out => some (p.goto t (if bufsz ≤ 0 then .readReturn [] else .readWait bufsz))
      | _ => none
  | .write t buf len =>
      match p.phase t with
      | .out => some (p.goto t (if len ≤ 0 then .writeReturn 0 else .writeWait buf len 0))
      | _ => none
  | .run t => (p.uart.statement (p.phase t)).map fun (u, ph) => { p.goto t ph with uart := u }
  | .ret t =>
      match p.phase t with
      | .readReturn _ | .writeReturn _ => some (p.goto t .out)
      | _ => none

/-- The states that runs reach from `uart_open` by steps that satisfy `ok`. -/
inductive Run (ok : Port T → UartLabel T → Prop) : Port T → Prop where
  | opened (u : Uart) : Run ok ⟨u.uartOpen, fun _ => .out⟩
  | step {p p' : Port T} (lbl : UartLabel T) : Run ok p → ok p lbl → p.step lbl = some p' → Run ok p'

variable {p p' : Port T}

/-- The state after a list of steps. -/
def exec (p : Port T) : List (UartLabel T) → Option (Port T)
  | [] => some p
  | lbl :: lbls => (p.step lbl).bind fun p => p.exec lbls

theorem Run.exec {ok : Port T → UartLabel T → Prop} (hok : ∀ p lbl, ok p lbl) (h : Run ok p)
    {lbls : List (UartLabel T)} (heq : p.exec lbls = some p') : Run ok p' := by
  induction lbls generalizing p with
  | nil =>
    rw [← Option.some.inj heq]
    exact h
  | cons lbl lbls ih =>
    obtain ⟨p1, hst, heq1⟩ := Option.bind_eq_some_iff.mp heq
    exact ih (h.step lbl (hok p lbl) hst) heq1

/-- A port that is opened with all its positions zero. -/
def blank : Port Unit :=
  let ring : Ringbuf := ⟨0, 0, fun _ => 0⟩
  ⟨Uart.uartOpen ⟨0, [], ring, ring, [], [], [], [], []⟩, fun _ => .out⟩

end Port

end MiniOs
