import MiniOs.User.Output

/-!
# Terminal input of user programs (`user/io.c`)

`ioterm_read` reads into the caller's buffer, squeezes the line ends there to one LF each and keeps
one bit for the next call.  Where nothing is left of what was read it reads again.  What the calls
return is what the five rules of `user/io.h` give for the raw bytes, however these arrive.  At the
end of file there is nothing left either, and the call does not return.
-/

namespace MiniOs.User

variable {σ : Type} {e : Iointf σ} {bytes : List UInt8} {len : Int} {crIn : Bool}

/-- The five rules for input of `user/io.h`: what is returned for a character, and the next
`cr_in`. -/
def inRule (crIn : Bool) (ch : UInt8) : List UInt8 × Bool :=
  if ch = cr then ([lf], true) else if ch = lf ∧ crIn = true then ([], false) else ([ch], false)

/-- The scan of `ioterm_read` over `n` further characters of the buffer, in place: returns the
buffer, `wp` and `cr_in`. -/
def scan : List UInt8 → Nat → Nat → Nat → Bool → List UInt8 × Nat × Bool
  | buf, 0, _, wp, crIn => (buf, wp, crIn)
  | buf, n + 1, rp, wp, crIn =>
      let ch := buf.getD rp 0
      if crIn then
        if ch = cr then scan (buf.set wp lf) n (rp + 1) (wp + 1) true
        else if ch = lf then scan buf n (rp + 1) wp false
        else scan (buf.set wp ch) n (rp + 1) (wp + 1) false
      else if ch = cr then scan (buf.set wp lf) n (rp + 1) (wp + 1) true
      else scan (buf.set wp ch) n (rp + 1) (wp + 1) false

/-- `ioterm_read`: returns the count, the bytes in the buffer up to it, and `cr_in`. -/
def iotermRead (e : Iointf σ) (len : Int) :
    Nat → Bool → σ → Option (Int × List UInt8 × Bool × σ)
  | 0, _, _ => none
  | fuel + 1, crIn, s =>
      let (cnt, bytes, s) := e.ioread s len
      if cnt < 0 then some (cnt, [], crIn, s)
      else
        let (buf, wp, crIn) := scan bytes cnt.toNat 0 0 crIn
        if wp = 0 then iotermRead e len fuel crIn s else some (wp, buf.take wp, crIn, s)

/-- A character is put at `wp`. -/
theorem take_succ_set {buf : List UInt8} {wp : Nat} (h : wp < buf.length) (c : UInt8) :
    (buf.set wp c).take (wp + 1) = buf.take wp ++ [c] := by
  rw [List.take_add_one, List.take_set_of_le (Nat.le_refl wp), List.getElem?_set_self h]
  rfl

/-- After `kept` the buffer holds what the rules give for `text`, up to `wp`. -/
def Scanned (kept text : List UInt8) (crIn : Bool) (r : List UInt8 × Nat × Bool) : Prop :=
  r.1.take r.2.1 = kept ++ (feed inRule crIn text).1 ∧
    r.2.1 = kept.length + (feed inRule crIn text).1.length ∧ r.2.2 = (feed inRule crIn text).2

theorem Scanned.cons {kept text : List UInt8} {ch : UInt8} {r : List UInt8 × Nat × Bool}
    (h : Scanned (kept ++ (inRule crIn ch).1) text (inRule crIn ch).2 r) :
    Scanned kept (ch :: text) crIn r := by
  simp only [Scanned, feed_cons, List.length_append, List.append_assoc, Nat.add_assoc] at h ⊢
  exact h

/-- The scan follows the rules: `wp` does not pass `rp`, so no character is overwritten before it
is read. -/
theorem scan_spec : ∀ (n : Nat) (buf : List UInt8) (rp wp : Nat) (crIn : Bool), wp ≤ rp →
    rp + n ≤ buf.length → Scanned (buf.take wp) ((buf.drop rp).take n) crIn (scan buf n rp wp crIn)
  | 0, buf, rp, wp, crIn, hle, hlen => by
      refine ⟨by simp [scan, feed], ?_, by simp [scan, feed]⟩
      simp only [scan, feed, List.take_zero, List.length_take, List.length_nil]
      omega
  | n + 1, buf, rp, wp, crIn, hle, hlen => by
      have hrp : rp < buf.length := by omega
      have hch : buf.getD rp 0 = buf[rp] := by simp [hrp]
      rw [List.drop_eq_getElem_cons hrp, List.take_succ_cons, scan, hch]
      -- one character is kept
      have hkeep : ∀ c st, inRule crIn buf[rp] = ([c], st) →
          Scanned (buf.take wp) (buf[rp] :: (buf.drop (rp + 1)).take n) crIn
            (scan (buf.set wp c) n (rp + 1) (wp + 1) st) := by
        intro c st hrule
        have ih := scan_spec n (buf.set wp c) (rp + 1) (wp + 1) st (by omega) (by simp; omega)
        rw [List.drop_set_of_lt (by omega), take_succ_set (by omega)] at ih
        exact Scanned.cons (by rwa [hrule])
      generalize buf[rp] = ch at hkeep ⊢
      by_cases hcr : ch = cr
      · rw [if_pos hcr, if_pos hcr, ite_self]
        exact hkeep lf true (by simp [inRule, hcr])
      · rw [if_neg hcr, if_neg hcr]
        by_cases hlf : ch = lf
        · cases crIn with
          | true =>
            have ih := scan_spec n buf (rp + 1) wp false (by omega) (by omega)
            rw [if_pos rfl, if_pos hlf]
            exact Scanned.cons (by simpa [inRule, hlf] using ih)
          | false => exact hkeep ch false (by simp [inRule, hlf])
        · rw [if_neg hlf, ite_self]
          exact hkeep ch false (by simp [inRule, hcr, hlf])

/-- One turn of the loop. -/
theorem iotermRead_succ {s s' : σ}
    (h : e.ioread s len = ((bytes.length : Int), bytes, s')) (fuel : Nat) (crIn : Bool) :
    iotermRead e len (fuel + 1) crIn s =
      if (feed inRule crIn bytes).1 = [] then iotermRead e len fuel (feed inRule crIn bytes).2 s'
      else some ((feed inRule crIn bytes).1.length, (feed inRule crIn bytes).1,
        (feed inRule crIn bytes).2, s') := by
  obtain ⟨htake, hwp, hcr⟩ := scan_spec bytes.length bytes 0 0 crIn (Nat.le_refl _) (by simp)
  simp only [List.drop_zero, List.take_length, List.take_zero, List.nil_append, List.length_nil,
    Nat.zero_add] at htake hwp hcr
  rw [hwp] at htake
  rw [iotermRead, h]
  simp only [Int.toNat_natCast, if_neg (Int.not_lt.mpr (Int.natCast_nonneg _)), hcr, hwp, htake,
    List.length_eq_zero_iff]

/-- Outside a line end every character gives one. -/
theorem feed_inRule_ne_nil (hne : bytes ≠ []) : (feed inRule false bytes).1 ≠ [] := by
  obtain ⟨b, bytes, rfl⟩ := List.exists_cons_of_ne_nil hne
  by_cases hb : b = cr <;> simp [feed_cons, inRule, hb]

/-- What leaves nothing is the LF of a line end. -/
theorem state_of_feed_nil (hne : bytes ≠ [])
    (h : (feed inRule crIn bytes).1 = []) : (feed inRule crIn bytes).2 = false := by
  obtain ⟨b, bytes, rfl⟩ := List.exists_cons_of_ne_nil hne
  rw [feed_cons] at h ⊢
  obtain ⟨hone, hrest⟩ := List.append_eq_nil_iff.mp h
  have hst : (inRule crIn b).2 = false := by
    by_cases hb : b = cr
    · simp [inRule, hb] at hone
    · by_cases hl : b = lf <;> cases crIn <;> simp [inRule, hb, hl]
  rw [hst] at hrest ⊢
  by_cases hbytes : bytes = []
  · rw [hbytes]
    rfl
  · exact absurd hrest (feed_inRule_ne_nil hbytes)

/-- Each read returns some bytes, and `consumed` is all that was read. -/
def Feeds (e : Iointf σ) (consumed : σ → List UInt8) : Prop :=
  ∀ s (len : Int), 0 < len → ∃ bytes s', e.ioread s len = ((bytes.length : Int), bytes, s') ∧
    bytes.length ≤ len ∧ bytes ≠ [] ∧ consumed s' = consumed s ++ bytes

/-- Calls of `ioterm_read` one after the other, with what each returns. -/
def iotermReads (e : Iointf σ) (fuel : Nat) :
    List Int → Bool → σ → Option (List (Int × List UInt8) × Bool × σ)
  | [], crIn, s => some ([], crIn, s)
  | len :: lens, crIn, s => do
      let (cnt, bytes, crIn, s) ← iotermRead e len fuel crIn s
      let (outs, crIn, s) ← iotermReads e fuel lens crIn s
      return ((cnt, bytes) :: outs, crIn, s)

variable {consumed : σ → List UInt8}

/-- One call returns after at most two reads. -/
theorem Feeds.iotermRead (h : Feeds e consumed) (hlen : 0 < len) (fuel : Nat) (crIn : Bool)
    (s : σ) : ∃ raw s', User.iotermRead e len (fuel + 2) crIn s =
        some (((feed inRule crIn raw).1.length : Int), (feed inRule crIn raw).1,
          (feed inRule crIn raw).2, s') ∧
      (feed inRule crIn raw).1 ≠ [] ∧ consumed s' = consumed s ++ raw := by
  obtain ⟨bytes, s1, hread, -, hne, hcons⟩ := h s len hlen
  rw [iotermRead_succ hread]
  by_cases hnil : (feed inRule crIn bytes).1 = []
  · obtain ⟨bytes2, s2, hread2, -, hne2, hcons2⟩ := h s1 len hlen
    have hst := state_of_feed_nil hne hnil
    have hout := feed_inRule_ne_nil hne2
    refine ⟨bytes ++ bytes2, s2, ?_, ?_, by rw [hcons2, hcons, List.append_assoc]⟩
    · rw [if_pos hnil, iotermRead_succ hread2, hst, if_neg hout, feed_append, hnil, hst, List.nil_append]
    · rwa [feed_append, hnil, hst]
  · exact ⟨bytes, s1, if_neg hnil, hnil, hcons⟩

/-- The calls return, each with at least one byte, what the rules give for the bytes they read. -/
theorem iotermReads_normalizes (h : Feeds e consumed) {lens : List Int} (hlens : ∀ len ∈ lens, 0 < len)
    (fuel : Nat) (crIn : Bool) (s : σ) : ∃ outs raw s', iotermReads e (fuel + 2) lens crIn s =
        some (outs, (feed inRule crIn raw).2, s') ∧ consumed s' = consumed s ++ raw ∧
      (outs.map Prod.snd).flatten = (feed inRule crIn raw).1 ∧ outs.length = lens.length ∧
      ∀ out ∈ outs, 1 ≤ out.1 ∧ out.1 = out.2.length := by
  induction lens generalizing crIn s with
  | nil => exact ⟨[], [], s, rfl, by simp, rfl, rfl, nofun⟩
  | cons len lens ih =>
    obtain ⟨raw, s1, hcall, hne, hcons⟩ := h.iotermRead (hlens len (by simp)) fuel crIn s
    obtain ⟨outs, raw', s', hcalls, hcons', hflat, hlen, hall⟩ := ih
      (fun len hl => hlens len (List.mem_cons_of_mem _ hl)) (feed inRule crIn raw).2 s1
    refine ⟨(((feed inRule crIn raw).1.length : Int), (feed inRule crIn raw).1) :: outs, raw ++ raw', s',
      ?_, ?_, ?_, ?_, ?_⟩
    · simp only [iotermReads, hcall, hcalls, Option.bind_eq_bind, Option.bind_some, feed_append]
      rfl
    · rw [hcons', hcons, List.append_assoc]
    · rw [List.map_cons, List.flatten_cons, hflat, feed_append]
    · rw [List.length_cons, hlen, List.length_cons]
    · refine List.forall_mem_cons.mpr ⟨⟨?_, rfl⟩, hall⟩
      have := List.length_pos_of_ne_nil hne
      omega

/-- A finite stream: `left` is what is still to come, and a read returns none of it only at the
end. -/
def Ends (e : Iointf σ) (left : σ → List UInt8) : Prop :=
  ∀ s (len : Int), 0 < len → ∃ bytes s', e.ioread s len = ((bytes.length : Int), bytes, s') ∧
    bytes.length ≤ len ∧ left s = bytes ++ left s' ∧ (bytes = [] → left s = [])

/-- An endpoint that reads from a list. -/
def stream : Iointf (List UInt8) where
  cntl := none
  read := some fun s n => ((s.take n).length, s.take n, s.drop n)
  write := none
  readat := none
  writeat := none

/-- An endpoint that returns one CR for each read, and records it. -/
def crs : Iointf (List UInt8) where
  cntl := none
  read := some fun s _ => (1, [cr], s ++ [cr])
  write := none
  readat := none
  writeat := none

theorem crs_feeds : Feeds crs id := fun s len hlen =>
  ⟨[cr], s ++ [cr], by simp [Iointf.ioread, crs, hlen.le], hlen, by simp, rfl⟩

theorem iotermReads_normalizes_crs : ∃ outs raw s', iotermReads crs 2 [1, 3] false [] =
    some (outs, (feed inRule false raw).2, s') ∧ (outs.map Prod.snd).flatten = (feed inRule false raw).1 := by
  obtain ⟨outs, raw, s', h, -, hflat, -⟩ :=
    iotermReads_normalizes crs_feeds (show ∀ len ∈ ([1, 3] : List Int), 0 < len by decide) 0 false []
  exact ⟨outs, raw, s', h, hflat⟩

end MiniOs.User
