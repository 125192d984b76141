import MiniOs.Base.Transducer
import MiniOs.Io.Endpoint

/-!
# Output of user programs (`user/io.c`, `user/string.c`) and of the console

A terminal sends a CR LF for each end of a line, by the six rules of `user/io.h`.  `ioterm_write`
looks ahead in the buffer and keeps back what it can send later, and still sends what the rules
give, however a text is split.  It does not count an LF that it leaves out, though.  `kputc` and
`dputc` send a second LF after a CR LF, and the user library's `iowrite` starts from the front of
the buffer again when the endpoint takes a part of it.
-/

namespace MiniOs.User

variable {σ : Type}

/-! ## `iowrite` -/

/-- The loop of `iowrite`.  Each turn gives the endpoint the buffer from its start. -/
def iowriteLoop (write : σ → List UInt8 → Int × σ) (buf : List UInt8) :
    Nat → Nat → σ → Option (Int × σ)
  | 0, _, _ => none
  | fuel + 1, bufpos, s =>
      let (n, s) := write s buf
      if n ≤ 0 then some (if n < 0 then n else bufpos, s)
      else
        let bufpos := bufpos + n.toNat
        if bufpos < buf.length then iowriteLoop write buf fuel bufpos s else some (bufpos, s)

/-- `iowrite` of the first `len` bytes of `buf`. -/
def iowrite (e : Iointf σ) (s : σ) (buf : List UInt8) (len : Int) : Option (Int × σ) :=
  match e.write with
  | none => some (-ENOTSUP, s)
  | some write =>
      if len < 0 then some (-EINVAL, s)
      else iowriteLoop write (buf.take len.toNat) (len.toNat + 1) 0 s

/-- The loop is that of the kernel on an endpoint that is given the whole buffer each time. -/
theorem iowriteLoop_eq (write : σ → List UInt8 → Int × σ) (buf : List UInt8) (fuel : Nat) :
    iowriteLoop write buf fuel = Iointf.iowriteLoop (fun s _ => write s buf) buf fuel := by
  induction fuel with
  | zero => rfl
  | succ fuel ih =>
    funext bufpos s
    simp only [iowriteLoop, Iointf.iowriteLoop, ih]

/-- An endpoint that returns `rs k` from its call `k`, whatever it is given, and records what it is
given. -/
def scripted (rs : Nat → Int) : Iointf (List (List UInt8)) where
  cntl := none
  read := none
  write := some fun s xs => (rs s.length, s ++ [xs])
  readat := none
  writeat := none

/-- What is given in the next turn stays on record. -/
theorem recorded {rs : Nat → Int} (given : List UInt8 → List UInt8) {buf : List UInt8} :
    ∀ {fuel bufpos : Nat} {s s' : List (List UInt8)} {r : Int},
      Iointf.iowriteLoop (fun s xs => (rs s.length, s ++ [given xs])) buf fuel bufpos s =
        some (r, s') → s ++ [given (buf.drop bufpos)] <+: s'
  | 0, _, _, _, _, h => by cases h
  | fuel + 1, bufpos, s, s', r, h => by
      rw [Iointf.iowriteLoop] at h
      dsimp only at h
      split at h
      · cases h
        exact List.prefix_rfl
      · split at h
        · exact (List.prefix_append ..).trans (recorded given h)
        · cases h
          exact List.prefix_rfl

/-- The two copies of `iowrite` give an endpoint the same ranges and return the same, unless the
first call takes a part of the buffer. -/
theorem iowrite_eq_iff (rs : Nat → Int) (buf : List UInt8) {len : Int} (hnn : 0 ≤ len)
    (hlen : len ≤ buf.length) :
    iowrite (scripted rs) [] buf len = (scripted rs).iowrite [] buf len ↔
      ¬ (0 < rs 0 ∧ rs 0 < len) := by
  have htake : (buf.take len.toNat).length = len.toNat := by
    rw [List.length_take]
    omega
  simp only [iowrite, Iointf.iowrite, scripted, if_neg (Int.not_lt.mpr hnn), iowriteLoop_eq]
  generalize buf.take len.toNat = buf at htake
  rw [Iointf.iowriteLoop, Iointf.iowriteLoop]
  by_cases hpos : rs 0 ≤ 0
  · simp [hpos]
  · by_cases hshort : rs 0 < len
    · -- the second call is given the rest by one and the whole by the other
      have hlt : 0 + (rs 0).toNat < buf.length := by omega
      simp only [List.length_nil, hpos, hlt, if_false, if_true, List.nil_append]
      refine iff_of_false (fun heq => ?_) (fun h => h ⟨by omega, hshort⟩)
      obtain ⟨r, s', hk, -⟩ := @Iointf.iowriteLoop_keeps _ (fun s xs => (rs s.length, s ++ [xs]))
        (fun _ => True) (fun _ _ _ => trivial) buf len.toNat (0 + (rs 0).toNat) [buf.drop 0] (by omega)
        trivial
      rw [hk] at heq
      obtain ⟨_, huser⟩ := recorded (fun _ => buf) heq
      obtain ⟨_, hkernel⟩ := recorded id hk
      rw [← huser] at hkernel
      have hsame : buf.drop (0 + (rs 0).toNat) = buf := (List.cons.inj (List.cons.inj hkernel).2).1
      have := congrArg List.length hsame
      rw [List.length_drop] at this
      omega
    · simp [hpos, show ¬ (rs 0).toNat < buf.length by omega, hshort]

/-- Two bytes are written to an endpoint that takes them at once. -/
theorem iowrite_eq_full : iowrite (scripted fun _ => 2) [] [7, 8] 2 = some (2, [[7, 8]]) :=
  ((iowrite_eq_iff (fun _ => 2) [7, 8] (by decide) (by decide)).mpr (by decide)).trans rfl

/-- An endpoint that takes one byte at a time is given the first byte twice. -/
theorem iowrite_sends_again : iowrite (scripted fun _ => 1) [] [7, 8] 2 = some (2, [[7, 8], [7, 8]]) ∧
    (scripted fun _ => 1).iowrite [] [7, 8] 2 = some (2, [[7, 8], [8]]) := by
  decide

/-! ## The rules, and the console -/

/-- CR. -/
def cr : UInt8 := 13

/-- LF. -/
def lf : UInt8 := 10

@[simp] theorem lf_ne_cr : lf ≠ cr := by decide

@[simp] theorem cr_ne_lf : cr ≠ lf := by decide

/-- The six rules for output of `user/io.h`: what is sent for a character, and the next `cr_out`. -/
def outRule (crOut : Bool) (ch : UInt8) : List UInt8 × Bool :=
  if ch = cr then ([cr, lf], true)
  else if ch = lf then (if crOut then [] else [cr, lf], false)
  else ([ch], false)

/-- `kputc`, with `cprev` as state: what is sent to the device. -/
def kputc (cprev c : UInt8) : List UInt8 × UInt8 :=
  (if c = cr then [c, lf] else if c = lf ∧ cprev ≠ cr then [cr, c] else [c], c)

/-- `dputc` on one of the `NDEV` descriptors, with `pcprev` as state: what is written to it. -/
def dputc (fd : Fin 16) (pcprev : Fin 16 → UInt8) (c : UInt8) : List UInt8 × (Fin 16 → UInt8) :=
  (if c = cr then [c, lf] else if c = lf ∧ pcprev fd ≠ cr then [cr, c] else [c],
    Function.update pcprev fd c)

/-- On one descriptor `dputc` is `kputc`. -/
theorem feed_dputc (fd : Fin 16) (pcprev : Fin 16 → UInt8) (cs : List UInt8) :
    (feed (dputc fd) pcprev cs).1 = (feed kputc (pcprev fd) cs).1 := by
  induction cs generalizing pcprev with
  | nil => rfl
  | cons c cs ih =>
    have hnext : Function.update pcprev fd c fd = c := Function.update_self ..
    rw [feed_cons, feed_cons, ih]
    simp only [dputc, kputc, hnext]

/-- The console sends at least what the rules give, and no more exactly when no LF follows a CR. -/
theorem feed_kputc (cprev : UInt8) (cs : List UInt8) :
    (feed outRule (cprev = cr) cs).1.length ≤ (feed kputc cprev cs).1.length ∧
      ((feed kputc cprev cs).1 = (feed outRule (cprev = cr) cs).1 ↔ ¬ [cr, lf] <:+: cprev :: cs) := by
  induction cs generalizing cprev with
  | nil => simp [feed, List.infix_cons_iff]
  | cons c cs ih =>
    obtain ⟨hle, hiff⟩ := ih c
    have hstate : (outRule (cprev = cr) c).2 = decide (c = cr) := by
      by_cases hc : c = cr <;> by_cases hl : c = lf <;> simp [outRule, hc, hl]
    rw [feed_cons, feed_cons, hstate, List.infix_cons_iff, List.cons_prefix_cons, List.cons_prefix_cons]
    simp only [List.nil_prefix, and_true, show (kputc cprev c).2 = c from rfl]
    by_cases hpair : cprev = cr ∧ c = lf
    · obtain ⟨rfl, rfl⟩ := hpair
      have hnone : (outRule (decide (cr = cr)) lf).1 = [] := rfl
      have hone : (kputc cr lf).1 = [lf] := rfl
      rw [hnone, hone]
      refine ⟨?_, iff_of_false (fun heq => ?_) (by simp)⟩
      · simp only [List.length_append, List.length_singleton, List.length_nil]
        omega
      · have := congrArg List.length heq
        simp only [List.length_append, List.length_singleton, List.length_nil] at this
        omega
    · have hsame : (kputc cprev c).1 = (outRule (cprev = cr) c).1 := by
        by_cases hc : c = cr
        · simp [kputc, outRule, hc]
        · by_cases hl : c = lf
          · have hp : cprev ≠ cr := fun hp => hpair ⟨hp, hl⟩
            simp [kputc, outRule, hl, hp]
          · simp [kputc, outRule, hc, hl]
      have hpair' : ¬ (cr = cprev ∧ lf = c) := fun h => hpair ⟨h.1.symm, h.2.symm⟩
      rw [hsame, List.append_right_inj, hiff]
      refine ⟨by simpa using hle, by tauto⟩

/-- The bytes that `kputc`, and `dputc` on a descriptor, send from their first state are those of
the rules exactly when the text has no CR LF. -/
theorem console_normalized_iff (fd : Fin 16) (cs : List UInt8) :
    ((feed kputc 0 cs).1 = (feed outRule false cs).1 ↔ ¬ [cr, lf] <:+: cs) ∧
      ((feed (dputc fd) (fun _ => 0) cs).1 = (feed outRule false cs).1 ↔ ¬ [cr, lf] <:+: cs) := by
  have hiff := (feed_kputc 0 cs).2
  rw [List.infix_cons_iff, show (decide ((0 : UInt8) = cr)) = false from rfl] at hiff
  have hfirst : ¬ [cr, lf] <+: 0 :: cs := fun h => absurd (List.cons_prefix_cons.mp h).1 (by decide)
  rw [feed_dputc]
  simpa [hfirst] using hiff

/-- A CR LF is sent as CR LF LF. -/
theorem console_doubles_lf : (feed kputc 0 [cr, lf]).1 = [cr, lf, lf] ∧
    (feed (dputc 2) (fun _ => 0) [cr, lf]).1 = [cr, lf, lf] ∧
    (feed outRule false [cr, lf]).1 = [cr, lf] := by
  decide

/-! ## `ioterm_write` -/

/-- `ioputc`. -/
def ioputc (e : Iointf σ) (s : σ) (c : UInt8) : Option (Int × σ) := do
  let (wlen, s) ← iowrite e s [c] 1
  return (if wlen < 0 then wlen else if wlen = 0 then (- EIO) else c.toNat, s)

/-- The bytes between `wp` and `rp` are written; `k` goes on with how many were taken. -/
def writeOut (e : Iointf σ) (pending : List UInt8) (acc : Int) (crOut : Bool) (s : σ)
    (k : Int → σ → Option (Int × Bool × σ)) : Option (Int × Bool × σ) := do
  let (cnt, s) ← iowrite e s pending pending.length
  if cnt < 0 then return (cnt, crOut, s)
  else if cnt = 0 then return (acc, crOut, s)
  else k cnt s

/-- A line end is completed, which does not count. -/
def putOut (e : Iointf σ) (c : UInt8) (crOut : Bool) (s : σ) (k : σ → Option (Int × Bool × σ)) :
    Option (Int × Bool × σ) := do
  let (r, s) ← ioputc e s c
  if r < 0 then return (r, crOut, s) else k s

/-- The loop of `ioterm_write`: `pending` are the bytes from `wp` to `rp`, and `rest` those from
`rp` on.  Returns the count and the new `cr_out`. -/
def iotermWriteLoop (e : Iointf σ) :
    List UInt8 → List UInt8 → Bool → Int → σ → Option (Int × Bool × σ)
  | pending, [], crOut, acc, s =>
      if pending = [] then some (acc, crOut, s)
      else writeOut e pending acc crOut s fun cnt s => some (acc + cnt, crOut, s)
  | pending, ch :: rest, crOut, acc, s =>
      let lone := writeOut e (pending ++ [ch]) acc crOut s fun cnt s => putOut e lf crOut s fun s =>
        iotermWriteLoop e ((pending ++ [ch]).drop cnt.toNat) rest true (acc + cnt) s
      if ch = cr then
        match rest with
        | [] => lone
        | ch' :: rest =>
            if ch' = lf then iotermWriteLoop e (pending ++ [ch, ch']) rest false acc s else lone
      else if ch = lf then
        if crOut then iotermWriteLoop e ((pending ++ [ch]).drop 1) rest false acc s
        else
          let put := fun (cnt : Int) s => putOut e cr crOut s fun s =>
            iotermWriteLoop e (pending.drop cnt.toNat ++ [ch]) rest false (acc + cnt) s
          if pending = [] then put 0 s else writeOut e pending acc crOut s put
      else iotermWriteLoop e (pending ++ [ch]) rest false acc s

/-- `ioterm_write` of the first `len` bytes of `buf`. -/
def iotermWrite (e : Iointf σ) (crOut : Bool) (s : σ) (buf : List UInt8) (len : Int) :
    Option (Int × Bool × σ) :=
  iotermWriteLoop e [] (buf.take len.toNat) crOut 0 s

/-- Each write is taken whole; `sent` is all that was taken. -/
def TakesAll (e : Iointf σ) (sent : σ → List UInt8) : Prop :=
  ∃ write, e.write = some write ∧
    ∀ s xs, (write s xs).1 = xs.length ∧ sent (write s xs).2 = sent s ++ xs

variable {e : Iointf σ} {sent : σ → List UInt8}

theorem TakesAll.iowrite (h : TakesAll e sent) (s : σ) (xs : List UInt8) :
    ∃ s', User.iowrite e s xs xs.length = some ((xs.length : Int), s') ∧ sent s' = sent s ++ xs := by
  obtain ⟨write, hw, htakes⟩ := h
  obtain ⟨hcount, hsent⟩ := htakes s xs
  refine ⟨(write s xs).2, ?_, hsent⟩
  rw [User.iowrite, hw]
  cases xs with
  | nil => simp [iowriteLoop, hcount]
  | cons x xs =>
    simp [iowriteLoop, hcount, show ¬ (xs.length : Int) + 1 ≤ 0 by omega,
      show ¬ (xs.length : Int) + 1 < 0 by omega]

theorem TakesAll.putOut (h : TakesAll e sent) (c : UInt8) (crOut : Bool) (s : σ) :
    ∃ s', sent s' = sent s ++ [c] ∧ ∀ k, User.putOut e c crOut s k = k s' := by
  obtain ⟨s', hw, hsent⟩ := h.iowrite s [c]
  refine ⟨s', hsent, fun k => ?_⟩
  rw [List.length_singleton, Nat.cast_one] at hw
  simp [User.putOut, ioputc, hw]

theorem TakesAll.writeOut (h : TakesAll e sent) {pending : List UInt8} (hne : pending ≠ [])
    (acc : Int) (crOut : Bool) (s : σ) : ∃ s', sent s' = sent s ++ pending ∧
      ∀ k, User.writeOut e pending acc crOut s k = k pending.length s' := by
  obtain ⟨s', hw, hsent⟩ := h.iowrite s pending
  have hlen : 0 < (pending.length : Int) := by exact_mod_cast List.length_pos_of_ne_nil hne
  refine ⟨s', hsent, fun k => ?_⟩
  simp [User.writeOut, hw, show ¬ (pending.length : Int) < 0 by omega, hne]

/-- The LF of a CR LF whose CR was in an earlier buffer, which is left out and not counted. -/
def leftOut (crOut : Bool) (buf : List UInt8) : Int := if crOut ∧ buf.head? = some lf then 1 else 0

/-- The loop sends what is pending and then what the rules give for the rest.  Nothing is pending
after a lone CR. -/
theorem TakesAll.iotermWriteLoop (h : TakesAll e sent) : ∀ (pending rest : List UInt8) (crOut : Bool)
    (acc : Int) (s : σ), (crOut = true → pending = []) →
    ∃ s', User.iotermWriteLoop e pending rest crOut acc s =
        some (acc + pending.length + rest.length - leftOut crOut rest, (feed outRule crOut rest).2, s') ∧
      sent s' = sent s ++ (pending ++ (feed outRule crOut rest).1)
  | pending, [], crOut, acc, s, _ => by
      rw [User.iotermWriteLoop]
      by_cases hp : pending = []
      · exact ⟨s, by simp [hp, leftOut, feed], by simp [hp, feed]⟩
      · obtain ⟨s', hsent, hout⟩ := h.writeOut hp acc crOut s
        exact ⟨s', by simp [hp, hout, leftOut, feed], by simp [hsent, feed]⟩
  | pending, ch :: rest, crOut, acc, s, hcr => by
      rw [User.iotermWriteLoop.eq_def, feed_cons]
      dsimp only
      by_cases hch : ch = cr
      · subst hch
        rw [if_pos rfl, show outRule crOut cr = ([cr, lf], true) from rfl]
        obtain ⟨s1, hsent1, hout⟩ := h.writeOut (List.append_ne_nil_of_right_ne_nil pending
          (List.cons_ne_nil cr [])) acc crOut s
        obtain ⟨s2, hsent2, hput⟩ := h.putOut lf crOut s1
        obtain ⟨s3, hloop, hsent3⟩ := TakesAll.iotermWriteLoop h [] rest true
          (acc + (pending ++ [cr]).length) s2 (fun _ => rfl)
        rw [hout, hput, Int.toNat_natCast, List.drop_length, hloop]
        rw [hsent2, hsent1] at hsent3
        cases rest with
        | nil =>
          refine ⟨s3, ?_, ?_⟩
          · simp [leftOut]
            omega
          · simp [hsent3]
        | cons ch' rest =>
          by_cases hlf : ch' = lf
          · subst hlf
            obtain ⟨s', hloop, hsent⟩ :=
              TakesAll.iotermWriteLoop h (pending ++ [cr, lf]) rest false acc s nofun
            refine ⟨s', ?_, ?_⟩
            · simp [hloop, leftOut, feed_cons, outRule]
              omega
            · simp [hsent, feed_cons, outRule]
          · refine ⟨s3, ?_, ?_⟩
            · simp [hlf, leftOut]
              omega
            · simp [hsent3]
      · rw [if_neg hch]
        by_cases hlf : ch = lf
        · subst hlf
          rw [if_pos rfl]
          cases crOut with
          | true =>
            obtain rfl := hcr rfl
            obtain ⟨s', hloop, hsent⟩ := TakesAll.iotermWriteLoop h [] rest false acc s nofun
            refine ⟨s', ?_, ?_⟩
            · simp [hloop, outRule, leftOut]
              omega
            · simp [hsent, outRule]
          | false =>
            have hput : ∀ (acc : Int) s, ∃ s', (User.putOut e cr false s fun s =>
                User.iotermWriteLoop e [lf] rest false acc s) =
                  some (acc + (rest.length + 1), (feed outRule false rest).2, s') ∧
                sent s' = sent s ++ ([cr, lf] ++ (feed outRule false rest).1) := by
              intro acc s
              obtain ⟨s1, hsent1, hput⟩ := h.putOut cr false s
              obtain ⟨s2, hloop, hsent2⟩ := TakesAll.iotermWriteLoop h [lf] rest false acc s1 nofun
              refine ⟨s2, ?_, ?_⟩
              · simp [hput, hloop, leftOut]
                omega
              · simp [hsent2, hsent1]
            by_cases hp : pending = []
            · obtain ⟨s', heq, hsent⟩ := hput (acc + 0) s
              refine ⟨s', ?_, ?_⟩
              · simp [hp] at heq ⊢
                simp [heq, leftOut, outRule]
              · simp [hsent, hp, outRule]
            · obtain ⟨s1, hsent1, hout⟩ := h.writeOut hp acc false s
              obtain ⟨s', heq, hsent⟩ := hput (acc + pending.length) s1
              refine ⟨s', ?_, ?_⟩
              · simp [hp, hout, heq, leftOut, outRule]
              · simp [hsent, hsent1, outRule]
        · obtain ⟨s', hloop, hsent⟩ := TakesAll.iotermWriteLoop h (pending ++ [ch]) rest false acc s nofun
          refine ⟨s', ?_, ?_⟩
          · simp [hch, hlf, hloop, outRule, leftOut]
            omega
          · simp [hsent, outRule, hch, hlf]

/-- `ioterm_write` returns the length of the buffer exactly when it leaves out no LF. -/
theorem iotermWrite_count_iff (h : TakesAll e sent) (crOut : Bool) (s : σ) (buf : List UInt8) :
    ∃ r crOut' s', iotermWrite e crOut s buf buf.length = some (r, crOut', s') ∧
      (r = buf.length ↔ ¬ (crOut = true ∧ buf.head? = some lf)) := by
  obtain ⟨s', heq, -⟩ := h.iotermWriteLoop [] buf crOut 0 s (fun _ => rfl)
  refine ⟨_, _, s', by rw [iotermWrite, Int.toNat_natCast, List.take_length, heq], ?_⟩
  rw [leftOut, List.length_nil]
  split <;> simp [*]

/-- The buffers of a sequence are written one after the other. -/
def iotermWrites (e : Iointf σ) : List (List UInt8) → Bool → σ → Option (Bool × σ)
  | [], crOut, s => some (crOut, s)
  | buf :: bufs, crOut, s => do
      let (_, crOut, s) ← iotermWrite e crOut s buf buf.length
      iotermWrites e bufs crOut s

/-- A terminal sends what the rules give for the text, however it is split into buffers. -/
theorem iotermWrites_normalizes (h : TakesAll e sent) (bufs : List (List UInt8)) (crOut : Bool) (s : σ) :
    ∃ s', iotermWrites e bufs crOut s = some ((feed outRule crOut bufs.flatten).2, s') ∧
      sent s' = sent s ++ (feed outRule crOut bufs.flatten).1 := by
  induction bufs generalizing crOut s with
  | nil => exact ⟨s, rfl, by simp [feed]⟩
  | cons buf bufs ih =>
    obtain ⟨s1, heq, hsent⟩ := h.iotermWriteLoop [] buf crOut 0 s (fun _ => rfl)
    obtain ⟨s', heq', hsent'⟩ := ih (feed outRule crOut buf).2 s1
    refine ⟨s', ?_, ?_⟩
    · simp only [iotermWrites, iotermWrite, Int.toNat_natCast, List.take_length, heq, Option.bind_eq_bind,
        Option.bind_some, heq', List.flatten_cons, feed_append]
    · rw [hsent', hsent, List.nil_append, List.append_assoc, List.flatten_cons, feed_append]

/-- An endpoint that takes everything. -/
def sink : Iointf (List UInt8) where
  cntl := none
  read := none
  write := some fun s xs => (xs.length, s ++ xs)
  readat := none
  writeat := none

theorem sink_takesAll : TakesAll sink id := ⟨_, rfl, fun _ _ => ⟨rfl, rfl⟩⟩

/-- The CR and the LF of a line end come in different buffers. -/
theorem iotermWrites_normalizes_sink :
    ∃ s', iotermWrites sink [[97, cr], [lf, 98]] false [] = some (false, s') ∧ s' = [97, cr, lf, 98] :=
  iotermWrites_normalizes sink_takesAll [[97, cr], [lf, 98]] false []

theorem iotermWrite_count_sink : ∃ r crOut' s', iotermWrite sink true [] [98, lf] 2 = some (r, crOut', s') ∧
    r = 2 := by
  obtain ⟨r, crOut', s', heq, hiff⟩ := iotermWrite_count_iff sink_takesAll true [] [98, lf]
  exact ⟨r, crOut', s', heq, hiff.mpr (by decide)⟩

/-- After a CR an LF is left out, and the call that was given one byte returns 0. -/
theorem iotermWrite_counts_none : iotermWrite sink true [cr, lf] [lf] 1 = some (0, false, [cr, lf]) := by
  decide

end MiniOs.User
