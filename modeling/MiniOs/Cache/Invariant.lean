import MiniOs.Cache.Model

/-!
# The invariant of the block cache

`Cache.Inv` relates a cache to the references its clients hold.  `held i` is the
number of outstanding references to slot `i`, and `unsaved i` says that some
holder of slot `i` has written to it and has not released it yet.  No two valid
entries hold one position, an entry's count is the number of its holders, and an
entry that is clean and has no unsaved holder agrees with the backing block.

Each operation keeps the invariant and the logical content of every block, on a
reliable device.
-/

namespace MiniOs.Cache

variable {σ : Type} {d : Device σ} {N pos : Nat} {content : σ → Nat → Blk}
  {c c' : Cache σ} {i : Slot} {b : Nat} {held : Slot → Nat} {unsaved : Slot → Prop}

/-- Slot `i` holds block `b`. -/
def Holds (c : Cache σ) (i : Slot) (b : Nat) : Prop :=
  (c.ents i).valid = true ∧ (c.ents i).pos = blksz * b

/-- The cache invariant, for `held i` references to slot `i` and the slots `unsaved`
that some holder has written to. -/
structure Inv (N : Nat) (content : σ → Nat → Blk) (held : Slot → Nat) (unsaved : Slot → Prop)
    (c : Cache σ) : Prop where
  uniq : ∀ {i j}, (c.ents i).valid = true → (c.ents j).valid = true →
    (c.ents i).pos = (c.ents j).pos → i = j
  range : ∀ {i}, (c.ents i).valid = true → ∃ b, b < N ∧ (c.ents i).pos = blksz * b
  refs : ∀ i, (c.ents i).refcnt = held i
  held_valid : ∀ {i}, 0 < held i → (c.ents i).valid = true
  unsaved_held : ∀ {i}, unsaved i → 0 < held i
  clean : ∀ {i b}, c.Holds i b → (c.ents i).dirty = false → ¬ unsaved i →
    (c.ents i).data = content c.dev b

/-! ## The searches -/

theorem findEntry_some (h : c.findEntry pos = some i) :
    (c.ents i).valid = true ∧ (c.ents i).pos = pos := by
  have := List.find?_some h
  simpa using this

theorem findEntry_none (h : c.findEntry pos = none) (i : Slot)
    (hv : (c.ents i).valid = true) : (c.ents i).pos ≠ pos := by
  have := List.find?_eq_none.mp h i (List.mem_finRange i)
  simpa [hv] using this

/-- A victim is free or unheld. -/
theorem pickVictim_some (h : c.pickVictim = some i) :
    (c.ents i).valid = false ∨ (c.ents i).refcnt = 0 := by
  rw [pickVictim, Option.orElse_eq_some, Option.orElse_eq_some] at h
  rcases h with h | ⟨-, h | ⟨-, h⟩⟩
  · left
    simpa using List.find?_some h
  · right
    have := List.find?_some h
    simp only [Bool.and_eq_true, beq_iff_eq] at this
    exact this.1
  · right
    simpa using List.find?_some h

/-- There is a victim as long as one entry is unheld. -/
theorem pickVictim_isSome (h : (c.ents i).refcnt = 0) :
    ∃ j, c.pickVictim = some j := by
  rw [← Option.isSome_iff_exists]
  cases hp : c.pickVictim with
  | some j => rfl
  | none =>
    rw [pickVictim, Option.orElse_eq_none, Option.orElse_eq_none] at hp
    have := List.find?_eq_none.mp hp.2.2 i (List.mem_finRange i)
    simp [h] at this

/-! ## Logical content -/

theorem findEntry_of_holds
    (uniq : ∀ {i j}, (c.ents i).valid = true → (c.ents j).valid = true →
      (c.ents i).pos = (c.ents j).pos → i = j)
    (h : c.Holds i b) : c.findEntry (blksz * b) = some i := by
  cases hf : c.findEntry (blksz * b) with
  | none => exact absurd h.2 (findEntry_none hf i h.1)
  | some j =>
    obtain ⟨hv, hp⟩ := findEntry_some hf
    rw [uniq hv h.1 (hp.trans h.2.symm)]

theorem logical_of_holds
    (uniq : ∀ {i j}, (c.ents i).valid = true → (c.ents j).valid = true →
      (c.ents i).pos = (c.ents j).pos → i = j)
    (h : c.Holds i b) : c.logical content b = (c.ents i).data := by
  rw [logical, findEntry_of_holds uniq h]

theorem logical_of_not_holds (h : ∀ i, ¬ c.Holds i b) :
    c.logical content b = content c.dev b := by
  rw [logical]
  cases hf : c.findEntry (blksz * b) with
  | none => rfl
  | some j => exact absurd (findEntry_some hf) (h j)

/-- Two caches whose entries hold the same blocks with the same data, and whose
devices agree on what is not cached, have the same logical content. -/
theorem logical_congr
    (hp : ∀ i, (c'.ents i).pos = (c.ents i).pos) (hv : ∀ i, (c'.ents i).valid = (c.ents i).valid)
    (hd : ∀ i, (c.ents i).valid = true → (c'.ents i).data = (c.ents i).data)
    (hc : ∀ b, (∀ i, ¬ c.Holds i b) → content c'.dev b = content c.dev b) (b : Nat) :
    c'.logical content b = c.logical content b := by
  have hf : c'.findEntry (blksz * b) = c.findEntry (blksz * b) := by
    simp only [findEntry, hp, hv]
  rw [logical, logical, hf]
  cases hf' : c.findEntry (blksz * b) with
  | some i => exact hd i (findEntry_some hf').1
  | none => exact hc b fun i hi => findEntry_none hf' i hi.1 hi.2

/-- On an invariant cache the content of a block is that of the backing store, or the
block is held dirty or unsaved. -/
theorem Inv.logical_eq_content (inv : c.Inv N content held unsaved)
    (h : ∀ i, c.Holds i b → (c.ents i).dirty = false ∧ ¬ unsaved i) :
    c.logical content b = content c.dev b := by
  by_cases hb : ∃ i, c.Holds i b
  · obtain ⟨i, hi⟩ := hb
    rw [logical_of_holds inv.uniq hi]
    exact inv.clean hi (h i hi).1 (h i hi).2
  · exact logical_of_not_holds fun i hi => hb ⟨i, hi⟩

/-! ## Write-back and flush -/

@[simp] theorem setEnt_ents (c : Cache σ) (i j : Slot) (e : CacheEntry) :
    (c.setEnt i e).ents j = if j = i then e else c.ents j := by
  simp [setEnt, Function.update_apply]

/-- `c'` is `c` with some dirty entries written back. -/
structure Cleaned (c c' : Cache σ) : Prop where
  pos : ∀ i, (c'.ents i).pos = (c.ents i).pos
  valid : ∀ i, (c'.ents i).valid = (c.ents i).valid
  refcnt : ∀ i, (c'.ents i).refcnt = (c.ents i).refcnt
  data : ∀ i, (c'.ents i).data = (c.ents i).data
  dirty : ∀ i, (c.ents i).dirty = false → (c'.ents i).dirty = false

theorem Cleaned.refl (c : Cache σ) : Cleaned c c :=
  ⟨fun _ => rfl, fun _ => rfl, fun _ => rfl, fun _ => rfl, fun _ h => h⟩

theorem Cleaned.trans {c1 c2 c3 : Cache σ} (h : Cleaned c1 c2) (h' : Cleaned c2 c3) :
    Cleaned c1 c3 where
  pos i := (h'.pos i).trans (h.pos i)
  valid i := (h'.valid i).trans (h.valid i)
  refcnt i := (h'.refcnt i).trans (h.refcnt i)
  data i := (h'.data i).trans (h.data i)
  dirty i hd := h'.dirty i (h.dirty i hd)

theorem Cleaned.holds (h : Cleaned c c') (i : Slot) (b : Nat) :
    c'.Holds i b ↔ c.Holds i b := by
  rw [Holds, Holds, h.pos, h.valid]

/-- Cleaning keeps everything of the invariant but the agreement of the clean entries. -/
theorem Inv.of_cleaned
    (inv : c.Inv N content held unsaved) (h : Cleaned c c')
    (clean : ∀ {i b}, c'.Holds i b → (c'.ents i).dirty = false → ¬ unsaved i →
      (c'.ents i).data = content c'.dev b) :
    c'.Inv N content held unsaved where
  uniq hi hj hij := by
    rw [h.valid] at hi hj
    rw [h.pos, h.pos] at hij
    exact inv.uniq hi hj hij
  range hi := by
    rw [h.valid] at hi
    rw [h.pos]
    exact inv.range hi
  refs i := (h.refcnt i).trans (inv.refs i)
  held_valid hi := (h.valid _).trans (inv.held_valid hi)
  unsaved_held := inv.unsaved_held
  clean := clean

/-- Write-back of one entry succeeds, cleans the entry and changes no content. -/
theorem Inv.writeback (rel : Reliable d N content) (inv : c.Inv N content held unsaved) (i : Slot) :
    ∃ c', c.writeback d i = (0, c') ∧ c'.Inv N content held unsaved ∧ Cleaned c c' ∧
      (∀ b, c'.logical content b = c.logical content b) ∧
      ((c.ents i).valid = true → (c'.ents i).dirty = false) := by
  rw [Cache.writeback]
  by_cases hv : (c.ents i).valid = true
  swap
  · exact ⟨c, by simp [hv], inv, .refl c, fun _ => rfl, fun h => absurd h hv⟩
  cases hd : (c.ents i).dirty with
  | false => exact ⟨c, by simp, inv, .refl c, fun _ => rfl, fun _ => hd⟩
  | true =>
    obtain ⟨b, hb, hp⟩ := inv.range hv
    obtain ⟨st', hw, hc⟩ := rel.write_in c.dev b (c.ents i).data hb
    have hi : c.Holds i b := ⟨hv, hp⟩
    let c' := ({ c with dev := st' } : Cache σ).setEnt i { c.ents i with dirty := false }
    have hcl : Cleaned c c' := by
      constructor <;> intro j <;> by_cases hj : j = i <;> simp [c', hj]
    refine ⟨c', by simp [hv, hp, hw, c'], inv.of_cleaned hcl ?_, hcl, ?_, fun _ => by simp [c']⟩
    · -- the device changes only at the block of the entry, where it gets the entry's data
      intro j b' hj hdj hu
      have hj' := (hcl.holds j b').mp hj
      rw [hcl.data]
      show _ = content st' b'
      by_cases hji : j = i
      · subst hji
        have hbb : b' = b := Nat.eq_of_mul_eq_mul_left (by decide) (hj'.2.symm.trans hp)
        rw [hc, hbb, Function.update_self]
      · have hbb : b' ≠ b := by
          rintro rfl
          exact hji (inv.uniq hj'.1 hv (hj'.2.trans hp.symm))
        rw [hc, Function.update_of_ne hbb]
        refine inv.clean hj' ?_ hu
        simpa [c', hji] using hdj
    · refine logical_congr hcl.pos hcl.valid (fun j _ => hcl.data j) ?_
      intro b' hb'
      have hbb : b' ≠ b := by
        rintro rfl
        exact hb' i hi
      show content st' b' = _
      rw [hc, Function.update_of_ne hbb]

/-- A run of write-backs over some entries cleans them all. -/
theorem Inv.flushLoop (rel : Reliable d N content) (is : List Slot) :
    ∀ {c : Cache σ}, c.Inv N content held unsaved →
    ∃ c', c.flushLoop d is = (0, c') ∧ c'.Inv N content held unsaved ∧ Cleaned c c' ∧
      (∀ b, c'.logical content b = c.logical content b) ∧
      (∀ i ∈ is, (c.ents i).valid = true → (c'.ents i).dirty = false) := by
  induction is with
  | nil =>
    intro c inv
    exact ⟨c, rfl, inv, .refl c, fun _ => rfl, by simp⟩
  | cons i is ih =>
    intro c inv
    obtain ⟨c1, hw, inv1, hcl1, hlog1, hclean1⟩ := inv.writeback rel i
    obtain ⟨c2, hf, inv2, hcl2, hlog2, hclean2⟩ := ih inv1
    refine ⟨c2, by simp [Cache.flushLoop, hw, hf], inv2, hcl1.trans hcl2,
      fun b => (hlog2 b).trans (hlog1 b), ?_⟩
    intro j hj hv
    rcases List.mem_cons.mp hj with rfl | hj
    · exact hcl2.dirty _ (hclean1 hv)
    · exact hclean2 j hj (by rw [hcl1.valid]; exact hv)

/-- A flush succeeds and leaves every entry clean. -/
theorem Inv.flush (rel : Reliable d N content) (inv : c.Inv N content held unsaved) :
    ∃ c', c.flush d = (0, c') ∧ c'.Inv N content held unsaved ∧ Cleaned c c' ∧
      (∀ b, c'.logical content b = c.logical content b) ∧
      (∀ i, (c'.ents i).valid = true → (c'.ents i).dirty = false) := by
  obtain ⟨c', hf, inv', hcl, hlog, hclean⟩ := inv.flushLoop rel (List.finRange cacheNent)
  refine ⟨c', hf, inv', hcl, hlog, ?_⟩
  intro i hv
  exact hclean i (List.mem_finRange i) (by rw [← hcl.valid]; exact hv)

/-! ## Reference counts -/

/-- An update of an entry's count and dirty flag keeps the invariant, for the new
count, when an entry that reads clean was clean. -/
theorem Inv.retag (inv : c.Inv N content held unsaved) (held' : Slot → Nat) (unsaved' : Slot → Prop)
    (hv : (c.ents i).valid = true) (dirty : Bool) (hheld : ∀ j, j ≠ i → held' j = held j)
    (hun : ∀ j, j ≠ i → (unsaved' j ↔ unsaved j)) (huni : unsaved' i → 0 < held' i)
    (hclean : dirty = false → ¬ unsaved' i → (c.ents i).dirty = false ∧ ¬ unsaved i) :
    (c.setEnt i { c.ents i with dirty := dirty, refcnt := held' i }).Inv N content held' unsaved'
      where
  uniq {j k} hj hk hjk := by
    apply inv.uniq (i := j) (j := k)
    · by_cases h : j = i <;> simp_all
    · by_cases h : k = i <;> simp_all
    · by_cases h : j = i <;> by_cases h' : k = i <;> simp_all
  range {j} hj := by
    obtain ⟨b, hb, hp⟩ := inv.range (i := j) (by by_cases h : j = i <;> simp_all)
    exact ⟨b, hb, by by_cases h : j = i <;> simp_all⟩
  refs j := by
    by_cases h : j = i
    · simp [h]
    · simp [h, inv.refs, hheld j h]
  held_valid {j} hj := by
    by_cases h : j = i
    · simp [h, hv]
    · simp only [setEnt_ents, h, if_false]
      exact inv.held_valid (by rwa [← hheld j h])
  unsaved_held {j} hj := by
    by_cases h : j = i
    · subst h
      exact huni hj
    · rw [hheld j h]
      exact inv.unsaved_held ((hun j h).mp hj)
  clean {j b} hj hd hu := by
    by_cases h : j = i
    · subst h
      simp only [setEnt_ents, if_true] at hd ⊢
      have hj' : c.Holds j b := by simpa [Holds] using hj
      exact inv.clean hj' (hclean hd hu).1 (hclean hd hu).2
    · have hj' : c.Holds j b := by simpa [Holds, h] using hj
      simp only [setEnt_ents, h, if_false] at hd ⊢
      exact inv.clean hj' hd (fun hu' => hu ((hun j h).mpr hu'))

theorem logical_retag (c : Cache σ) (i : Slot) (dirty : Bool) (r b : Nat) :
    (c.setEnt i { c.ents i with dirty := dirty, refcnt := r }).logical content b =
      c.logical content b := by
  apply logical_congr
  · intro j; by_cases h : j = i <;> simp [h]
  · intro j; by_cases h : j = i <;> simp [h]
  · intro j _; by_cases h : j = i <;> simp [h]
  · intro b' _; rfl

/-- The references to a slot after one more. -/
def addRef (held : Slot → Nat) (i : Slot) : Slot → Nat := Function.update held i (held i + 1)

/-- The references to a slot after one less. -/
def dropRef (held : Slot → Nat) (i : Slot) : Slot → Nat := Function.update held i (held i - 1)

/-- A release keeps the invariant and the content.  The holder that releases clean
leaves the unsaved slots as they are; one that releases dirty may leave the slot
saved. -/
theorem Inv.releaseBlock (inv : c.Inv N content held unsaved) (unsaved' : Slot → Prop)
    (hi : 0 < held i) (flag : ReleaseFlag) (hun : ∀ j, j ≠ i → (unsaved' j ↔ unsaved j))
    (huni : unsaved' i → 0 < held i - 1) (hflag : flag = .clean → ¬ unsaved' i → ¬ unsaved i) :
    (c.releaseBlock i flag).Inv N content (dropRef held i) unsaved' ∧
      ∀ b, (c.releaseBlock i flag).logical content b = c.logical content b := by
  have hv := inv.held_valid hi
  have hr : (c.ents i).refcnt = held i := inv.refs i
  have heq : c.releaseBlock i flag =
      c.setEnt i { c.ents i with
        dirty := if flag = .dirty then true else (c.ents i).dirty
        refcnt := dropRef held i i } := by
    simp [Cache.releaseBlock, hv, hr, hi, dropRef]
  rw [heq]
  refine ⟨inv.retag _ unsaved' hv _ ?_ hun ?_ ?_, fun b => logical_retag c i _ _ b⟩
  · intro j hj
    simp [dropRef, hj]
  · simpa [dropRef] using huni
  · intro hd hu
    cases flag with
    | clean => exact ⟨by simpa using hd, hflag rfl hu⟩
    | dirty => simp at hd

/-- A write into a held slot changes the content of its block and marks it unsaved. -/
theorem Inv.writeData (inv : c.Inv N content held unsaved) (hi : 0 < held i) (data : Blk) :
    (c.writeData i data).Inv N content held (fun j => j = i ∨ unsaved j) where
  uniq {j k} hj hk hjk := by
    apply inv.uniq (i := j) (j := k)
    · by_cases h : j = i <;> simp_all [Cache.writeData]
    · by_cases h : k = i <;> simp_all [Cache.writeData]
    · by_cases h : j = i <;> by_cases h' : k = i <;> simp_all [Cache.writeData]
  range {j} hj := by
    obtain ⟨b, hb, hp⟩ := inv.range (i := j)
      (by by_cases h : j = i <;> simp_all [Cache.writeData])
    exact ⟨b, hb, by by_cases h : j = i <;> simp_all [Cache.writeData]⟩
  refs j := by
    rw [← inv.refs j]
    by_cases h : j = i <;> simp [Cache.writeData, h]
  held_valid {j} hj := by
    have := inv.held_valid hj
    by_cases h : j = i <;> simp_all [Cache.writeData]
  unsaved_held {j} hj := by
    rcases hj with rfl | hj
    · exact hi
    · exact inv.unsaved_held hj
  clean {j b} hj hd hu := by
    have hji : j ≠ i := fun h => hu (Or.inl h)
    simp only [Cache.writeData, Holds, setEnt_ents, hji, if_false] at hj hd ⊢
    exact inv.clean hj hd (fun h => hu (Or.inr h))

/-- The content after a write into a slot that holds block `b`. -/
theorem Inv.logical_writeData (inv : c.Inv N content held unsaved) (hb : c.Holds i b) (data : Blk) :
    (c.writeData i data).logical content =
      Function.update (c.logical content) b data := by
  funext b'
  have hf : (c.writeData i data).findEntry (blksz * b') = c.findEntry (blksz * b') := by
    simp only [findEntry]
    congr 1
    funext j
    by_cases h : j = i <;> simp [Cache.writeData, h]
  rw [logical, hf]
  by_cases hbb : b' = b
  · subst hbb
    rw [findEntry_of_holds inv.uniq hb, Function.update_self]
    simp [Cache.writeData]
  · rw [Function.update_of_ne hbb, logical]
    cases hf' : c.findEntry (blksz * b') with
    | none => rfl
    | some j =>
      have hji : j ≠ i := by
        rintro rfl
        have := (findEntry_some hf').2.symm.trans hb.2
        exact hbb (Nat.eq_of_mul_eq_mul_left (by decide) this)
      simp [Cache.writeData, hji]

/-! ## Getting a block -/

/-- A miss that finds the unheld, clean slot `i`, after the read of block `b`. -/
theorem Inv.fill (inv : c.Inv N content held unsaved) (st' : σ) (hb : b < N) (hheld : held i = 0)
    (hclean : (c.ents i).valid = true → (c.ents i).dirty = false) (hmiss : ∀ j, ¬ c.Holds j b)
    (hst : content st' = content c.dev) :
    let c' := ({ c with dev := st' } : Cache σ).setEnt i
      { pos := blksz * b, valid := true, refcnt := 1, dirty := false, data := content c.dev b }
    c'.Inv N content (addRef held i) unsaved ∧ c'.Holds i b ∧
      (∀ b', c'.logical content b' = c.logical content b') ∧
      ∀ j b', j ≠ i → c.Holds j b' → c'.Holds j b' := by
  intro c'
  have hun : ¬ unsaved i := fun h => by
    have := inv.unsaved_held h
    omega
  have hholds : ∀ j b', j ≠ i → (c'.Holds j b' ↔ c.Holds j b') := by
    intro j b' hj
    simp [c', Holds, hj]
  have hholdi : ∀ b', c'.Holds i b' → b' = b := by
    intro b' h
    exact Nat.eq_of_mul_eq_mul_left (by decide)
      (h.2.symm.trans (by simp [c'] : (c'.ents i).pos = blksz * b))
  have inv' : c'.Inv N content (addRef held i) unsaved := by
    constructor
    · intro j k hj hk hjk
      have key : ∀ j, j ≠ i → (c'.ents j).valid = true → (c'.ents j).pos ≠ blksz * b := by
        intro j hj hv hp
        exact hmiss j ((hholds j b hj).mp ⟨hv, hp⟩)
      by_cases hji : j = i <;> by_cases hki : k = i
      · rw [hji, hki]
      · subst hji
        exact absurd (hjk.symm.trans (by simp [c'])) (key k hki hk)
      · subst hki
        exact absurd (hjk.trans (by simp [c'])) (key j hji hj)
      · apply inv.uniq (i := j) (j := k)
        all_goals simp_all [c']
    · intro j hj
      by_cases hji : j = i
      · exact ⟨b, hb, by simp [c', hji]⟩
      · have := inv.range (i := j) (by simpa [c', hji] using hj)
        simpa [c', hji] using this
    · intro j
      by_cases hji : j = i
      · simp [c', hji, addRef, hheld]
      · simp [c', hji, addRef, inv.refs]
    · intro j hj
      by_cases hji : j = i
      · simp [c', hji]
      · have := inv.held_valid (i := j) (by simpa [addRef, hji] using hj)
        simpa [c', hji] using this
    · intro j hj
      by_cases hji : j = i
      · simp [addRef, hji]
      · simpa [addRef, hji] using inv.unsaved_held hj
    · intro j b' hj hd hu
      show _ = content st' b'
      rw [hst]
      by_cases hji : j = i
      · subst hji
        rw [hholdi b' hj]
        simp [c']
      · have hd' : (c.ents j).dirty = false := by simpa [c', hji] using hd
        have := inv.clean ((hholds j b' hji).mp hj) hd' hu
        simpa [c', hji] using this
  have hi : c'.Holds i b := by simp [c', Holds]
  refine ⟨inv', hi, ?_, fun j b' hj => (hholds j b' hj).mpr⟩
  intro b'
  by_cases hbb : b' = b
  · subst hbb
    rw [logical_of_holds inv'.uniq hi, logical_of_not_holds hmiss]
    simp [c']
  · by_cases hold : ∃ j, j ≠ i ∧ c.Holds j b'
    · obtain ⟨j, hji, hj⟩ := hold
      rw [logical_of_holds inv.uniq hj, logical_of_holds inv'.uniq ((hholds j b' hji).mpr hj)]
      simp [c', hji]
    · -- block `b'` may have been in the slot that is now reused; it was clean there
      have h' : ∀ j, ¬ c'.Holds j b' := by
        intro j hj
        by_cases hji : j = i
        · subst hji
          exact hbb (hholdi b' hj)
        · exact hold ⟨j, hji, (hholds j b' hji).mp hj⟩
      rw [logical_of_not_holds h']
      show content st' b' = _
      rw [hst]
      refine (inv.logical_eq_content ?_).symm
      intro j hj
      have hji : j = i := by
        by_contra h
        exact hold ⟨j, h, hj⟩
      subst hji
      exact ⟨hclean hj.1, hun⟩

/-- What `cache_get_block` does on a reliable device: the content of every block
stays, a held slot keeps its block, and the call hands out a slot that holds the
block asked for, or fails because the position is not that of a block of the
device or because every slot is held. -/
theorem Inv.getBlock (rel : Reliable d N content) (inv : c.Inv N content held unsaved) (pos : Nat) :
    ∃ rc p c', c.getBlock d pos = (rc, p, c') ∧
      (∀ b, c'.logical content b = c.logical content b) ∧
      (∀ j b, 0 < held j → c.Holds j b → c'.Holds j b) ∧
      ((∃ i b, rc = 0 ∧ p = some i ∧ pos = blksz * b ∧ b < N ∧ c'.Holds i b ∧
          c'.Inv N content (addRef held i) unsaved) ∨
       (rc < 0 ∧ p = none ∧ c'.Inv N content held unsaved ∧
          (pos % blksz ≠ 0 ∨ N ≤ pos / blksz ∨ ∀ i, 0 < held i))) := by
  rw [Cache.getBlock]
  by_cases hal : pos % blksz ≠ 0
  · exact ⟨-EINVAL, none, c, by simp [hal], fun _ => rfl, fun _ _ _ h => h,
      .inr ⟨by decide, rfl, inv, .inl hal⟩⟩
  rw [if_neg hal]
  obtain ⟨b, rfl⟩ : ∃ b, pos = blksz * b :=
    ⟨pos / blksz, (Nat.mul_div_cancel' (Nat.dvd_of_mod_eq_zero (by omega))).symm⟩
  cases hf : c.findEntry (blksz * b) with
  | some i =>
    obtain ⟨hv, hp⟩ := findEntry_some hf
    obtain ⟨b', hb', hp'⟩ := inv.range hv
    have hbb : b' = b := Nat.eq_of_mul_eq_mul_left (by decide) (hp'.symm.trans hp)
    subst hbb
    refine ⟨0, some i, _, rfl, ?_, ?_, .inl ⟨i, b', rfl, rfl, rfl, hb', ?_, ?_⟩⟩
    · exact fun b => logical_retag c i (c.ents i).dirty _ b
    · intro j b hj h
      by_cases hji : j = i <;> simpa [Holds, hji] using h
    · simp [Holds, hv, hp]
    · have hinv := inv.retag (addRef held i) unsaved hv (c.ents i).dirty
        (by intro j hj; simp [addRef, hj]) (fun _ _ => Iff.rfl)
        (by intro _; simp [addRef]) (fun h1 h2 => ⟨h1, h2⟩)
      simpa [addRef, inv.refs] using hinv
  | none =>
    have hmiss : ∀ j, ¬ c.Holds j b := fun j hj => findEntry_none hf j hj.1 hj.2
    cases hpv : c.pickVictim with
    | none =>
      refine ⟨-ENOMEM, none, c, rfl, fun _ => rfl, fun _ _ _ h => h,
        .inr ⟨by decide, rfl, inv, .inr (.inr ?_)⟩⟩
      intro i
      by_contra h
      obtain ⟨j, hj⟩ := pickVictim_isSome (c := c) (i := i) (by rw [inv.refs]; omega)
      rw [hpv] at hj
      cases hj
    | some i =>
      have hheld : held i = 0 := by
        rcases pickVictim_some hpv with h | h
        · by_contra h0
          have := inv.held_valid (i := i) (by omega)
          rw [h] at this
          cases this
        · rw [← inv.refs i, h]
      -- the victim is written back first when it is valid
      obtain ⟨c1, hw, inv1, hcl, hlog, hclean⟩ :
          ∃ c1, (if (c.ents i).valid = true then c.writeback d i else (0, c)) = (0, c1) ∧
            c1.Inv N content held unsaved ∧ Cleaned c c1 ∧
            (∀ b, c1.logical content b = c.logical content b) ∧
            ((c.ents i).valid = true → (c1.ents i).dirty = false) := by
        by_cases hv : (c.ents i).valid = true
        · rw [if_pos hv]
          exact inv.writeback rel i
        · rw [if_neg hv]
          exact ⟨c, rfl, inv, .refl c, fun _ => rfl, fun h => absurd h hv⟩
      have hmiss1 : ∀ j, ¬ c1.Holds j b := fun j hj => hmiss j ((hcl.holds j b).mp hj)
      simp only [hw]
      by_cases hb : b < N
      · obtain ⟨st', hr, hst⟩ := rel.read_in c1.dev b (c1.ents i).data hb
        obtain ⟨inv', hi, hlog', hkeep⟩ := inv1.fill st' hb hheld
          (by rw [hcl.valid]; exact hclean) hmiss1 hst
        refine ⟨0, some i, _, ?_, fun b' => (hlog' b').trans (hlog b'), ?_,
          .inl ⟨i, b, rfl, rfl, rfl, hb, hi, inv'⟩⟩
        · simp [hr, setEnt]
        · intro j b' hj h
          have hji : j ≠ i := by
            rintro rfl
            omega
          exact hkeep j b' hji ((hcl.holds j b').mpr h)
      · obtain ⟨n, st', hr, hst, hn, hn'⟩ := rel.read_out c1.dev b (c1.ents i).data (by omega)
        have hn512 : n ≠ 512 := by omega
        have hc : cInt n = n := by
          rw [cInt, Int.bmod_eq_of_le] <;> omega
        have hsame : ({ c1.setEnt i { c1.ents i with data := (c1.ents i).data } with dev := st' } :
            Cache σ) = { c1 with dev := st' } := by
          simp [setEnt]
        have hcl' : Cleaned c1 { c1 with dev := st' } :=
          ⟨fun _ => rfl, fun _ => rfl, fun _ => rfl, fun _ => rfl, fun _ h => h⟩
        refine ⟨n, none, { c1 with dev := st' }, ?_, ?_, fun j b' _ h => (hcl.holds j b').mpr h,
          .inr ⟨hn, rfl, ?_, .inr (.inl ?_)⟩⟩
        · simp [hr, hn512, hc, hsame]
        · intro b'
          rw [← hlog b']
          exact logical_congr hcl'.pos hcl'.valid (fun j _ => hcl'.data j)
            (fun b'' _ => by rw [hst]) b'
        · refine inv1.of_cleaned hcl' ?_
          intro j b' hj hd hu
          rw [hst]
          exact inv1.clean hj hd hu
        · rw [Nat.mul_div_cancel_left _ (by decide)]
          omega

/-- A cache that was just created has no holders. -/
theorem create_inv (dev : σ) :
    (create dev).Inv N content (fun _ => 0) (fun _ => False) where
  uniq hi := by simp [create] at hi
  range hi := by simp [create] at hi
  refs _ := rfl
  held_valid hi := by simp at hi
  unsaved_held hi := hi.elim
  clean hi := by simp [create, Holds] at hi

theorem logical_create (dev : σ) : (create dev).logical content = content dev := by
  funext b
  exact logical_of_not_holds (by simp [create, Holds])

end MiniOs.Cache
