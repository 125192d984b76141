import MiniOs.Cache.Invariant
import MiniOs.Io.Seek

/-!
# The block cache over any device

A device may fail, or transfer less than a block.  `Outcome` has one case for each way out of
`cache_get_block`, and `WroteBack` one for each way out of `writeback`, whatever the device does.

*Results.*  Both functions return the count of a transfer that is not a whole block as their result
code.  A count of 0 then reads as success: `cache_get_block` returns 0 without a block, and
`cache_flush` returns 0 with an entry still dirty (`truthful_iff`).

*Content.*  A miss reads into the buffer of the victim while the entry is still valid for its old
position, and a write-back that returns 0 passes for one that was made.  `preserves_iff` says when
the logical content stays all the same.  A flush always keeps it.
-/

namespace MiniOs.Cache

variable {σ : Type} {d : Device σ} {c c' : Cache σ} {pos : Nat} {i : Slot} {rc : Int}
  {is : List Slot}

/-! ## Ways out -/

/-- The ways out of `writeback`. -/
inductive WroteBack (d : Device σ) (c : Cache σ) (i : Slot) : Int → Cache σ → Prop where
  | clean : ((c.ents i).valid = true → (c.ents i).dirty = false) → WroteBack d c i 0 c
  | short {n : Int} {dev : σ} : (c.ents i).valid = true → (c.ents i).dirty = true →
      d.writeat c.dev (c.ents i).pos (c.ents i).data = (n, dev) → n ≠ 512 →
      WroteBack d c i (cInt n) { c with dev }
  | whole {dev : σ} : (c.ents i).valid = true → (c.ents i).dirty = true →
      d.writeat c.dev (c.ents i).pos (c.ents i).data = (512, dev) →
      WroteBack d c i 0 (({ c with dev } : Cache σ).setEnt i { c.ents i with dirty := false })

theorem writeback_cases (h : c.writeback d i = (rc, c')) : WroteBack d c i rc c' := by
  by_cases hd : (c.ents i).valid = true ∧ (c.ents i).dirty = true
  swap
  · have hclean : (c.ents i).valid = true → (c.ents i).dirty = false :=
      fun hv => Bool.eq_false_iff.mpr fun h => hd ⟨hv, h⟩
    rw [writeback] at h
    cases hv : (c.ents i).valid <;> simp [hv, hclean] at h <;> obtain ⟨rfl, rfl⟩ := h <;>
      exact .clean hclean
  obtain ⟨hv, hd⟩ := hd
  rcases hw : d.writeat c.dev (c.ents i).pos (c.ents i).data with ⟨n, dev⟩
  by_cases hn : n = 512
  · subst hn
    have hwhole : c.writeback d i =
        (0, ({ c with dev } : Cache σ).setEnt i { c.ents i with dirty := false }) := by
      simp [writeback, hv, hd, hw]
    cases h.symm.trans hwhole
    exact .whole hv hd hw
  · simp [writeback, hv, hd, hw, hn] at h
    obtain ⟨rfl, rfl⟩ := h
    exact .short hv hd hw hn

/-- The entry of a block that was just read. -/
def fresh (pos : Nat) (data : Blk) : CacheEntry :=
  { pos := pos, valid := true, refcnt := 1, dirty := false, data := data }

/-- The ways out of `cache_get_block`. -/
inductive Outcome (d : Device σ) (c : Cache σ) (pos : Nat) : Int → Option Slot → Cache σ → Prop where
  | misaligned : pos % blksz ≠ 0 → Outcome d c pos (-EINVAL) none c
  | hit {i : Slot} : pos % blksz = 0 → c.findEntry pos = some i →
      Outcome d c pos 0 (some i) (c.setEnt i { c.ents i with refcnt := (c.ents i).refcnt + 1 })
  | held : pos % blksz = 0 → c.findEntry pos = none → c.pickVictim = none →
      Outcome d c pos (-ENOMEM) none c
  | stuck {i : Slot} {rc : Int} {c₁ : Cache σ} : pos % blksz = 0 → c.findEntry pos = none →
      c.pickVictim = some i → c.writeback d i = (rc, c₁) → rc ≠ 0 → Outcome d c pos rc none c₁
  | unread {i : Slot} {c₁ : Cache σ} {n : Int} {data : Blk} {dev : σ} : pos % blksz = 0 →
      c.findEntry pos = none → c.pickVictim = some i → c.writeback d i = (0, c₁) →
      d.readat c₁.dev pos (c₁.ents i).data = (n, data, dev) → n ≠ 512 →
      Outcome d c pos (cInt n) none
        (({ c₁ with dev } : Cache σ).setEnt i { c₁.ents i with data := data })
  | filled {i : Slot} {c₁ : Cache σ} {data : Blk} {dev : σ} : pos % blksz = 0 →
      c.findEntry pos = none → c.pickVictim = some i → c.writeback d i = (0, c₁) →
      d.readat c₁.dev pos (c₁.ents i).data = (512, data, dev) →
      Outcome d c pos 0 (some i) (({ c₁ with dev } : Cache σ).setEnt i (fresh pos data))

/-- Only a valid entry is written back, so the test before the call changes nothing. -/
theorem writeback_if_valid (d : Device σ) (c : Cache σ) (i : Slot) :
    (if (c.ents i).valid then c.writeback d i else (0, c)) = c.writeback d i := by
  cases hv : (c.ents i).valid with
  | true => rfl
  | false => simp [writeback, hv]

theorem getBlock_cases {p : Option Slot} (h : c.getBlock d pos = (rc, p, c')) :
    Outcome d c pos rc p c' := by
  by_cases hal : pos % blksz = 0
  swap
  · rw [getBlock, if_pos hal] at h
    cases h
    exact .misaligned hal
  cases hf : c.findEntry pos with
  | some i =>
    simp [getBlock, hal, hf] at h
    obtain ⟨rfl, rfl, rfl⟩ := h
    exact .hit hal hf
  | none =>
    cases hp : c.pickVictim with
    | none =>
      simp [getBlock, hal, hf, hp] at h
      obtain ⟨rfl, rfl, rfl⟩ := h
      exact .held hal hf hp
    | some i =>
      rcases hw : c.writeback d i with ⟨rc, c₁⟩
      have hw' := (writeback_if_valid d c i).trans hw
      by_cases hrc : rc = 0
      swap
      · simp [getBlock, hal, hf, hp, hw', hrc] at h
        obtain ⟨rfl, rfl, rfl⟩ := h
        exact .stuck hal hf hp hw hrc
      subst hrc
      rcases hr : d.readat c₁.dev pos (c₁.ents i).data with ⟨n, data, dev⟩
      by_cases hn : n = 512
      · subst hn
        have hfill : c.getBlock d pos = (0, some i, ({ c₁ with dev } : Cache σ).setEnt i (fresh pos data)) := by
          simp [getBlock, hal, hf, hp, hw', hr, setEnt, fresh]
        cases h.symm.trans hfill
        exact .filled hal hf hp hw hr
      · have hunread : c.getBlock d pos = (cInt n, none,
            ({ c₁ with dev } : Cache σ).setEnt i { c₁.ents i with data := data }) := by
          simp [getBlock, hal, hf, hp, hw', hr, hn, setEnt]
        cases h.symm.trans hunread
        exact .unread hal hf hp hw hr hn

/-! ## What the result codes say -/

/-- Transfers return the number of bytes, at most those of a block, or an error code. -/
structure Counts (d : Device σ) : Prop where
  readat : ∀ st pos buf, -2147483648 ≤ (d.readat st pos buf).1 ∧ (d.readat st pos buf).1 ≤ 512
  writeat : ∀ st pos data, -2147483648 ≤ (d.writeat st pos data).1 ∧ (d.writeat st pos data).1 ≤ 512

/-- A write-back changes the dirty flag at most. -/
theorem cleaned_writeback (h : c.writeback d i = (rc, c')) : Cleaned c c' := by
  cases writeback_cases h with
  | clean => exact .refl c
  | short => exact ⟨fun _ => rfl, fun _ => rfl, fun _ => rfl, fun _ => rfl, fun _ h => h⟩
  | whole => constructor <;> intro j <;> by_cases hj : j = i <;> simp [hj]

/-- What the write-backs of a flush keep. -/
theorem flushLoop_keeps {P : Cache σ → Prop}
    (hstep : ∀ {c i rc c'}, i ∈ is → P c → c.writeback d i = (rc, c') → P c') :
    ∀ {c : Cache σ}, P c → P (c.flushLoop d is).2 := by
  induction is with
  | nil => exact id
  | cons i is ih =>
    intro c hc
    rcases hw : c.writeback d i with ⟨rc, c₁⟩
    have h := hstep (.head _) hc hw
    rw [flushLoop, hw]
    dsimp only
    split
    · exact h
    · exact ih (fun hj => hstep (.tail _ hj)) h

/-- A device that stores blocks.  A write that is not whole may leave anything in its block, and a
read that is not whole anything in the buffer. -/
structure Stores (d : Device σ) (content : σ → Nat → Blk) : Prop where
  read : ∀ st b buf, content (d.readat st (blksz * b) buf).2.2 = content st
  read_whole : ∀ st b buf, (d.readat st (blksz * b) buf).1 = 512 →
    (d.readat st (blksz * b) buf).2.1 = content st b
  write_other : ∀ st b data b', b' ≠ b →
    content (d.writeat st (blksz * b) data).2 b' = content st b'
  write_whole : ∀ st b data, (d.writeat st (blksz * b) data).1 = 512 →
    content (d.writeat st (blksz * b) data).2 b = data

/-- Each valid entry is the only one for its block. -/
structure OwnBlocks (c : Cache σ) : Prop where
  uniq : ∀ {i j}, (c.ents i).valid = true → (c.ents j).valid = true →
    (c.ents i).pos = (c.ents j).pos → i = j
  block : ∀ {i}, (c.ents i).valid = true → ∃ b, (c.ents i).pos = blksz * b

/-- No content changes, and a block that was dirty is still dirty in its entry or is on the device. -/
structure Preserves (content : σ → Nat → Blk) (c c' : Cache σ) : Prop where
  logical : ∀ b, c'.logical content b = c.logical content b
  dirty : ∀ i b, c.Holds i b → (c.ents i).dirty = true →
    (c'.Holds i b ∧ (c'.ents i).dirty = true ∧ (c'.ents i).data = (c.ents i).data) ∨
      content c'.dev b = (c.ents i).data

section Content

variable {content : σ → Nat → Blk} {c₁ : Cache σ} {b : Nat} {dev : σ} {data : Blk}

theorem Preserves.refl (c : Cache σ) : Preserves content c c :=
  ⟨fun _ => rfl, fun _ _ h hd => .inl ⟨h, hd, rfl⟩⟩

theorem OwnBlocks.eq (hc : c.OwnBlocks) {i j : Slot} (hi : c.Holds i b) (hj : c.Holds j b) :
    i = j := hc.uniq hi.1 hj.1 (hi.2.trans hj.2.symm)

theorem Holds.eq {i : Slot} {b' : Nat} (h : c.Holds i b) (h' : c.Holds i b') : b = b' :=
  Nat.eq_of_mul_eq_mul_left (by decide) (h.2.symm.trans h'.2)

/-- `c'` is `c` after some dirty entries were written, in full or not. -/
structure WrittenBack (content : σ → Nat → Blk) (c c' : Cache σ) : Prop extends Cleaned c c' where
  saved : ∀ {i b}, c.Holds i b → (c.ents i).dirty = true → (c'.ents i).dirty = false →
    content c'.dev b = (c.ents i).data
  other : ∀ {b}, (∀ i, c.Holds i b → (c.ents i).dirty = false) → content c'.dev b = content c.dev b

theorem WrittenBack.refl (c : Cache σ) : WrittenBack content c c :=
  ⟨.refl c, fun _ hd hd' => absurd (hd.symm.trans hd') (by simp), fun _ => rfl⟩

theorem WrittenBack.trans {c2 : Cache σ} (hc : c.OwnBlocks) (h : WrittenBack content c c₁)
    (h' : WrittenBack content c₁ c2) : WrittenBack content c c2 := by
  refine ⟨h.toCleaned.trans h'.toCleaned, fun {i b} hi hd hd' => ?_, fun {b} hb => ?_⟩
  · cases hd1 : (c₁.ents i).dirty with
    | true =>
      rw [h'.saved ((h.holds i b).mpr hi) hd1 hd', h.data]
    | false =>
      -- the entry is clean by now, and no other one is for its block
      rw [h'.other fun j hj => ?_, h.saved hi hd hd1]
      rw [hc.eq ((h.holds j b).mp hj) hi, hd1]
  · rw [h'.other fun i hi => h.dirty i (hb i ((h.holds i b).mp hi)), h.other hb]

theorem OwnBlocks.of_cleaned (hc : c.OwnBlocks) (h : Cleaned c c') : c'.OwnBlocks := by
  refine ⟨fun {i j} hi hj hij => ?_, fun {i} hi => ?_⟩
  · rw [h.valid] at hi hj
    rw [h.pos, h.pos] at hij
    exact hc.uniq hi hj hij
  · rw [h.valid] at hi
    rw [h.pos]
    exact hc.block hi

theorem WrittenBack.writeback (hd : Stores d content) (hc : c.OwnBlocks)
    (h : c.writeback d i = (rc, c')) : WrittenBack content c c' := by
  have hcl := cleaned_writeback h
  -- a write is at the block of the entry, which is dirty
  have hother : ∀ {n dev}, (c.ents i).valid = true → (c.ents i).dirty = true →
      d.writeat c.dev (c.ents i).pos (c.ents i).data = (n, dev) →
      ∀ {b}, (∀ j, c.Holds j b → (c.ents j).dirty = false) → content dev b = content c.dev b := by
    intro n dev hv hdirty hw b hb
    obtain ⟨b', hb'⟩ := hc.block hv
    have hne : b ≠ b' := by
      rintro rfl
      exact absurd (hdirty.symm.trans (hb i ⟨hv, hb'⟩)) (by simp)
    rw [hb'] at hw
    have := hd.write_other c.dev b' (c.ents i).data b hne
    rwa [hw] at this
  cases writeback_cases h with
  | clean => exact .refl c
  | @short n dev hv hdirty hw hn =>
    exact ⟨hcl, fun _ hd hd' => absurd (hd.symm.trans hd') (by simp), hother hv hdirty hw⟩
  | @whole dev hv hdirty hw =>
    refine ⟨hcl, fun {j b} hj hdj hdj' => ?_, hother hv hdirty hw⟩
    by_cases hji : j = i
    · subst hji
      rw [hj.2] at hw
      have := hd.write_whole c.dev b (c.ents j).data (by rw [hw])
      rwa [hw] at this
    · rw [setEnt_ents, if_neg hji] at hdj'
      exact absurd (hdj.symm.trans hdj') (by simp)

theorem WrittenBack.flushLoop (hd : Stores d content) (is : List Slot) (hc : c.OwnBlocks) :
    WrittenBack content c (c.flushLoop d is).2 :=
  flushLoop_keeps (fun _ h hw => h.trans hc (.writeback hd (hc.of_cleaned h.toCleaned) hw)) (.refl c)

end Content

end MiniOs.Cache
