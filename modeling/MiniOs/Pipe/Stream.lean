import MiniOs.Pipe.Model

/-!
# The stream of bytes through a pipe

Whatever the threads do, the bytes that readers took, followed by those in the buffer, are the
bytes that writers put, in the same order.  A segment of a pipe function takes bytes from the
front of the buffer or puts bytes at its end, and the counters of the ring buffer may wrap
around any number of times.
-/

namespace MiniOs

namespace PipeState

variable {s : PipeState}
  {pc : PipePc} {g : Segment nl}

/-- The bytes in the buffer. -/
def bytes (s : PipeState) : List UInt8 := s.ring.contents

/-- The buffer is not overfull. -/
def Fits (s : PipeState) : Prop := s.pipeCount ≤ pipeBufSize

theorem length_bytes (s : PipeState) : s.bytes.length = s.pipeCount := Ring.length_contents _

theorem bytes_pop (h : 0 < s.pipeCount) :
    s.bytes = s.ring.front :: { s with ring := s.ring.pop }.bytes :=
  Ring.contents_pop (by decide) h

theorem bytes_push (b : UInt8) (h : s.pipeCount < pipeBufSize) :
    { s with ring := s.ring.push b }.bytes = s.bytes ++ [b] :=
  Ring.contents_push (by decide) b h

/-- The loop of `pipe_read` takes bytes from the front, and all of them if there is room. -/
theorem readLoop_spec (room : Nat) (s : PipeState) :
    (s.readLoop room).1 ++ (s.readLoop room).2.bytes = s.bytes ∧
      (s.readLoop room).2.writeOpen = s.writeOpen ∧ (s.readLoop room).2.readOpen = s.readOpen ∧
      (0 < room → (s.readLoop room).1 = [] → s.bytes = []) := by
  induction room generalizing s with
  | zero => exact ⟨rfl, rfl, rfl, fun h => absurd h (Nat.lt_irrefl 0)⟩
  | succ room ih =>
    rw [readLoop]
    by_cases hc : 0 < s.pipeCount
    · rw [if_pos hc]
      obtain ⟨hbytes, hw, hr, -⟩ := ih { s with ring := s.ring.pop }
      refine ⟨?_, hw, hr, fun _ h => nomatch h⟩
      rw [bytes_pop hc, ← hbytes]
      rfl
    · rw [if_neg hc]
      refine ⟨rfl, rfl, rfl, fun _ _ => ?_⟩
      rw [← List.length_eq_zero_iff, length_bytes]
      omega

/-- The loop of `pipe_write` puts bytes at the end, as many as fit. -/
theorem writeLoop_spec (data : List UInt8) {s : PipeState} (hs : s.Fits) :
    ∃ now, data = now ++ (s.writeLoop data).1 ∧ (s.writeLoop data).2.bytes = s.bytes ++ now ∧
      (s.writeLoop data).2.Fits ∧ (s.writeLoop data).2.writeOpen = s.writeOpen ∧
      (s.writeLoop data).2.readOpen = s.readOpen := by
  induction data generalizing s with
  | nil => exact ⟨[], rfl, (List.append_nil _).symm, hs, rfl, rfl⟩
  | cons b data ih =>
    rw [writeLoop]
    by_cases hc : s.pipeCount < pipeBufSize
    · rw [if_pos hc]
      have hfits : Fits { s with ring := s.ring.push b } := by
        rw [Fits, ← length_bytes, bytes_push b hc, List.length_append, length_bytes]
        exact hc
      obtain ⟨now, hdata, hbytes, hfits', hw, hr⟩ := ih hfits
      refine ⟨b :: now, ?_, ?_, hfits', hw, hr⟩
      · rw [List.cons_append, ← hdata]
      · rw [hbytes, bytes_push b hc, List.append_assoc]
        rfl
    · rw [if_neg hc]
      exact ⟨[], rfl, (List.append_nil _).symm, hs, rfl, rfl⟩

theorem Fits.of_bytes {s' : PipeState} {bs : List UInt8} (h : s.Fits) (heq : bs ++ s'.bytes = s.bytes) :
    s'.Fits := by
  have hlen := congrArg List.length heq
  rw [List.length_append, length_bytes, length_bytes] at hlen
  rw [Fits] at h ⊢
  omega

end PipeState

namespace Pipe

variable {nl : Nat} {p : Pipe nl} {k : Kernel nl} {s : PipeState} {isr : Windows nl}

/-- What a segment of a pipe function does to the stream, and what it may return. -/
structure Streams (s : PipeState) (g : Segment nl) : Prop where
  bytes : g.took ++ g.s.bytes = s.bytes ++ g.put
  fits : g.s.Fits
  /-- A read returns 0 only at the end of the stream. -/
  eof : ∀ bufsz, g.ret = some (.read bufsz 0) → 0 < bufsz → g.s.writeOpen = false ∧ g.s.bytes = []
  epipe : g.ret = some (.write (-EPIPE)) → g.s.readOpen = false

/-- A segment that leaves the bytes alone. -/
theorem Streams.of_eq (hs : s.Fits) {k' : Kernel nl} {ret : Option PipeRet}
    (heof : ∀ bufsz, ret = some (.read bufsz 0) → ¬ 0 < bufsz)
    (hepipe : ret ≠ some (.write (-EPIPE))) :
    Streams s { k := k', s := s, pc := pc, ret := ret, took := [], put := [] } :=
  ⟨by simp, hs, fun bufsz hr hb => absurd hb (heof bufsz hr), fun hr => absurd hr hepipe⟩

theorem leave_eq {ret : PipeRet} {took put : List UInt8}
    (h : p.leave isr k s ret took put = some g) :
    ∃ k', g = { k := k', s := s, pc := .user, ret := some ret, took := took, put := put } := by
  simp only [leave, Option.bind_eq_bind, Option.bind_eq_some_iff, Option.pure_def,
    Option.some.injEq] at h
  obtain ⟨-, -, k', -, rfl⟩ := h
  exact ⟨k', rfl⟩

section

variable (hs : s.Fits)

include hs

theorem readBody_streams {bufsz : Nat} (h : p.readBody isr bufsz k s = some g) : Streams s g := by
  rw [readBody] at h
  by_cases hwait : s.pipeCount = 0 ∧ s.writeOpen = true
  · rw [if_pos hwait] at h
    obtain ⟨k', -, rfl⟩ := Option.map_eq_some_iff.mp h
    exact .of_eq hs (fun _ hr => nomatch hr) nofun
  · rw [if_neg hwait] at h
    obtain ⟨hbytes, hw, -, hall⟩ := PipeState.readLoop_spec bufsz s
    obtain ⟨k1, -, hleave⟩ := Option.bind_eq_some_iff.mp h
    obtain ⟨k', rfl⟩ := leave_eq hleave
    refine ⟨by simpa using hbytes, hs.of_bytes hbytes, fun b hr hb => ?_, nofun⟩
    simp only [Option.some.injEq, PipeRet.read.injEq] at hr
    obtain ⟨rfl, hlen⟩ := hr
    have hnil : (s.readLoop bufsz).1 = [] := List.length_eq_zero_iff.mp (by exact_mod_cast hlen)
    have hempty := hall (by exact_mod_cast hb) hnil
    rw [hnil, hempty] at hbytes
    refine ⟨?_, hbytes⟩
    -- the first loop ended, and not because there were bytes
    rw [hw]
    have hc : s.pipeCount = 0 := by rw [← PipeState.length_bytes, hempty]; rfl
    simpa [hc] using hwait

theorem writeBody_streams {fuel : Nat} {s0 : PipeState} {rest put : List UInt8} {written : Nat} (hput : s.bytes = s0.bytes ++ put)
    (h : p.writeBody isr fuel rest written put k s = some g) : Streams s0 g := by
  induction fuel generalizing rest put written k s with
  | zero => cases h
  | succ fuel ih =>
    rw [writeBody] at h
    by_cases hrest : rest = []
    · rw [if_pos hrest] at h
      obtain ⟨k', rfl⟩ := leave_eq h
      refine ⟨hput, hs, (fun _ hr => nomatch hr), fun hr => ?_⟩
      simp only [Option.some.injEq, PipeRet.write.injEq, EPIPE] at hr
      omega
    rw [if_neg hrest] at h
    by_cases hwait : s.pipeCount = pipeBufSize ∧ s.readOpen = true
    · rw [if_pos hwait] at h
      obtain ⟨k', -, rfl⟩ := Option.map_eq_some_iff.mp h
      exact ⟨hput, hs, (fun _ hr => nomatch hr), nofun⟩
    rw [if_neg hwait] at h
    by_cases hclosed : s.readOpen = false
    · rw [if_pos hclosed] at h
      obtain ⟨k', rfl⟩ := leave_eq h
      exact ⟨hput, hs, (fun _ hr => nomatch hr), fun _ => hclosed⟩
    · rw [if_neg hclosed] at h
      obtain ⟨now, hdata, hbytes, hfits, -, -⟩ := PipeState.writeLoop_spec rest hs
      generalize s.writeLoop rest = q at h hdata hbytes hfits
      obtain ⟨rest', s'⟩ := q
      obtain ⟨k1, -, h1⟩ := Option.bind_eq_some_iff.mp h
      obtain ⟨k2, -, h2⟩ := Option.bind_eq_some_iff.mp h1
      have hnow : rest.take (rest.length - rest'.length) = now := by
        conv_lhs => rw [hdata]
        rw [List.length_append, Nat.add_sub_cancel]
        exact List.take_left
      rw [hnow] at h2
      refine ih hfits ?_ h2
      rw [hbytes, hput, List.append_assoc]

theorem closeBody_streams {isWriter : Bool}
    (h : p.closeBody isr isWriter k s = some g) : Streams s g := by
  obtain ⟨k1, -, hleave⟩ := Option.bind_eq_some_iff.mp h
  obtain ⟨k', rfl⟩ := leave_eq hleave
  have hsame : (s.closeEnd isWriter).bytes = s.bytes := by cases isWriter <;> rfl
  refine ⟨by simpa using hsame, ?_, (fun _ hr => nomatch hr), nofun⟩
  rw [PipeState.Fits, ← PipeState.length_bytes, hsame, PipeState.length_bytes]
  exact hs

theorem body_streams (h : p.body isr pc k s = some g) : Streams s g := by
  cases pc with
  | user => cases h
  | readLock bufsz => exact readBody_streams hs h
  | readWait bufsz => exact readBody_streams hs h
  | writeLock data => exact writeBody_streams hs (List.append_nil _).symm h
  | writeWait data written => exact writeBody_streams hs (List.append_nil _).symm h
  | closeLock isWriter => exact closeBody_streams hs h

theorem locked_streams {acquired : Option (Bool × Kernel nl)}
    (h : p.locked isr pc s acquired = some g) : Streams s g := by
  obtain ⟨⟨done, k1⟩, -, h1⟩ := Option.bind_eq_some_iff.mp h
  cases done with
  | true =>
    obtain ⟨k2, -, h2⟩ := Option.bind_eq_some_iff.mp h1
    exact body_streams hs h2
  | false =>
    cases h1
    exact .of_eq hs (fun _ hr => nomatch hr) nofun

theorem start_streams {op : Op} (h : p.start isr k s op = some g) :
    Streams s g := by
  cases op with
  | read isWriter bufsz =>
    rw [start] at h
    split_ifs at h with hw hb
    · cases h
      refine .of_eq hs (fun b hr => ?_) nofun
      simp [EBADFD] at hr
    · cases h
      refine .of_eq hs (fun b hr => ?_) nofun
      simp only [Option.some.injEq, PipeRet.read.injEq] at hr
      omega
    · exact locked_streams hs h
  | write isWriter data =>
    rw [start] at h
    split_ifs at h with hw hd
    · cases h
      exact .of_eq hs (fun _ hr => nomatch hr) (by simp [EBADFD, EPIPE])
    · cases h
      exact .of_eq hs (fun _ hr => nomatch hr) (by simp [EPIPE])
    · exact locked_streams hs h
  | close isWriter => exact locked_streams hs h

theorem resume_streams (h : p.resume isr pc k s = some g) : Streams s g := by
  cases pc with
  | readLock bufsz => exact locked_streams hs h
  | writeLock data => exact locked_streams hs h
  | closeLock isWriter => exact locked_streams hs h
  | user => cases h
  | readWait bufsz => exact readBody_streams hs h
  | writeWait data written => exact writeBody_streams hs (List.append_nil _).symm h

end

namespace System

variable {c c' : System nl} {a : Action nl} {r : Option PipeRet}

/-- The stream is whole: nothing is lost, invented or reordered. -/
structure Whole (c : System nl) : Prop where
  stream : c.delivered ++ c.s.bytes = c.accepted
  fits : c.s.Fits

theorem after_whole (h : c.Whole) (hg : Streams c.s g) : (c.after g).Whole := by
  refine ⟨?_, hg.fits⟩
  show c.delivered ++ g.took ++ g.s.bytes = c.accepted ++ g.put
  rw [List.append_assoc, hg.bytes, ← List.append_assoc, h.stream]

/-- Every segment keeps the stream whole, and returns what it should. -/
theorem Whole.step (h : c.Whole) (hst : c.step p a = some (c', r)) :
    c'.Whole ∧
    (∀ bufsz, r = some (.read bufsz 0) → 0 < bufsz →
      c'.s.writeOpen = false ∧ c'.delivered = c'.accepted) ∧
    (r = some (.write (-EPIPE)) → c'.s.readOpen = false) := by
  have hpipe : ∀ g, Streams c.s g → some (c.after g, g.ret) = some (c', r) →
      c'.Whole ∧ (∀ bufsz, r = some (.read bufsz 0) → 0 < bufsz →
        c'.s.writeOpen = false ∧ c'.delivered = c'.accepted) ∧
        (r = some (.write (-EPIPE)) → c'.s.readOpen = false) := by
    intro g hg heq
    cases heq
    have hw := after_whole h hg
    refine ⟨hw, fun bufsz hr hb => ?_, hg.epipe⟩
    obtain ⟨hclosed, hempty⟩ := hg.eof bufsz hr hb
    refine ⟨hclosed, ?_⟩
    have hstream := hw.stream
    rw [show (c.after g).s.bytes = [] from hempty, List.append_nil] at hstream
    exact hstream
  cases a with
  | other lbl =>
    obtain ⟨m, -, heq⟩ := Option.map_eq_some_iff.mp hst
    cases heq
    exact ⟨⟨h.stream, h.fits⟩, nofun, nofun⟩
  | start op isr =>
    obtain ⟨g, hg, heq⟩ := Option.map_eq_some_iff.mp hst
    exact hpipe g (start_streams h.fits hg) (congrArg some heq)
  | resume isr =>
    obtain ⟨g, hg, heq⟩ := Option.map_eq_some_iff.mp hst
    exact hpipe g (resume_streams h.fits hg) (congrArg some heq)

theorem Run.whole {ok : System nl → Action nl → Prop} (h : Run p ok c) : c.Whole := by
  induction h with
  | init =>
    refine ⟨(rfl : [] ++ PipeState.create.bytes = []), ?_⟩
    show PipeState.create.pipeCount ≤ pipeBufSize
    decide
  | step _ _ _ hst ih => exact (ih.step hst).1

/-- Stream integrity of pipes.  In every state that any run of segments reaches, the bytes
delivered and the bytes in the buffer are the bytes accepted, in order, and the buffer holds at
most `PIPE_BUF_SIZE` bytes.  In every segment after it, a read with room returns 0 only when the
write end is closed and every accepted byte was delivered, and a write returns `-EPIPE` only
when the read end is closed. -/
theorem pipe_stream (h : Run p (fun _ _ => True) c) :
    c.delivered ++ c.s.bytes = c.accepted ∧ c.s.pipeCount ≤ pipeBufSize ∧
    ∀ a c' r, c.Enabled p a → c.step p a = some (c', r) →
      (∀ bufsz, r = some (.read bufsz 0) → 0 < bufsz →
        c'.s.writeOpen = false ∧ c'.delivered = c'.accepted) ∧
      (r = some (.write (-EPIPE)) → c'.s.readOpen = false) := by
  have hw := h.whole
  exact ⟨hw.stream, hw.fits, fun a c' r _ hst => (hw.step hst).2⟩

/-- The main thread writes three bytes and reads two of them. -/
theorem pipe_stream_partial_read : ∃ c : System 1,
    Run { lock := 0, notEmpty := 0, notFull := 1, ne := by decide } (fun _ _ => True) c ∧
      c.accepted = [1, 2, 3] ∧ c.delivered = [1, 2] ∧ c.delivered ++ c.s.bytes = c.accepted := by
  have heval : (exec { lock := 0, notEmpty := 0, notFull := 1, ne := by decide } (fun _ _ => True)
      (init : System 1) [.start (.write true [1, 2, 3]) [], .start (.read false 2) []]).map
        (fun c => (c.accepted, c.delivered)) = some ([1, 2, 3], [1, 2]) := by
    decide +kernel
  obtain ⟨c, hc, hval⟩ := Option.map_eq_some_iff.mp heval
  simp only [Prod.mk.injEq] at hval
  have hrun := Run.init.exec hc
  exact ⟨c, hrun, hval.1, hval.2, (pipe_stream hrun).1⟩

end System

end Pipe

end MiniOs
