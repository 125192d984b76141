import MiniOs.Ktfs.ReadWrite

/-!
# Giving blocks back

`free_data_block` clears a bit of the bitmap and changes nothing else.  Ownership stays
when the blocks that are freed are not those of live places.  A shrinking
`IOCTL_SETEND` frees the blocks past the new end and leaves the pointers to them where
they are: in the direct slots of the inode, where the size says that they do not count,
and in index pages, where nothing says so.
-/

namespace MiniOs.Ktfs

open Fallible (exec)

variable {g : Geom} {N newSize : Nat} {D : Scope} {T T' : Nat → Inode} {s s' s'' : Nat → Blk}

/-! ## Clearing bits -/

/-- The blocks in `F` are marked free, and nothing else changes. -/
structure Released (g : Geom) (F : Set UInt32) (s s' : Nat → Blk) : Prop where
  other : ∀ b, g.bitmapBlockCount < b → s' b = s b
  used : ∀ c, c < 4096 * g.bitmapBlockCount →
    (used s' c = true ↔ used s c = true ∧ ∀ v ∈ F, c ≠ dataBlkToPos g v)

namespace Released

variable {F F' : Set UInt32}

theorem refl (s : Nat → Blk) : Released g ∅ s s :=
  ⟨fun _ _ => rfl, fun _ _ => ⟨fun h => ⟨h, fun _ hv => hv.elim⟩, fun h => h.1⟩⟩

theorem trans (h : Released g F s s') (h' : Released g F' s' s'') : Released g (F ∪ F') s s'' where
  other b hb := (h'.other b hb).trans (h.other b hb)
  used c hc := by
    rw [h'.used c hc, h.used c hc, and_assoc]
    refine and_congr_right fun _ => ⟨fun hn v hv => ?_, fun hn => ⟨fun v hv => ?_, fun v hv => ?_⟩⟩
    · exact hv.elim (hn.1 v) (hn.2 v)
    · exact hn v (.inl hv)
    · exact hn v (.inr hv)

/-- `free_data_block`. -/
theorem freed (v : UInt32) (s : Nat → Blk) :
    Released g {v} s (Ktfs.freed g s v) := by
  refine ⟨fun b hb => freed_of_lt v hb, fun c hc => ?_⟩
  rw [used_freed v hc]
  simp

theorem usedPtr (ok : GeomOk g N) (h : Released g F s s') (v : UInt32) :
    UsedPtr g s' v ↔ UsedPtr g s v ∧ v ∉ F := by
  rw [UsedPtr, UsedPtr, and_assoc]
  refine and_congr_right fun hv => ?_
  rw [h.used _ (Nat.lt_of_lt_of_le (ok.dataBlkToPos_lt hv).2 ok.bits)]
  refine and_congr_right fun _ => ⟨fun hn hm => hn v hm rfl, fun hn w hw heq => ?_⟩
  exact hn (by rw [dataBlkToPos_inj heq]; exact hw)

/-- A block of the data area keeps its content. -/
theorem data (ok : GeomOk g N) (h : Released g F s s') {v : UInt32} (hv : DataPtr g v) :
    s' (dataBlkToPos g v) = s (dataBlkToPos g v) :=
  h.other _ (ok.bitmap_lt_data hv)

/-- Freeing blocks changes no pointer. -/
theorem ptr (ok : GeomOk g N) (hrel : Released g F s s') (h : Owned g D T s) :
    ∀ i ∈ D.inodes, ∀ p, ptr g s' (T i) p = ptr g s (T i) p :=
  fun _ hi p => ptr_congr (fun _ hq hne => hrel.data ok (h.usedPtr_page hi hq hne).1) p

/-- Ownership stays when no live place names a block that is freed. -/
theorem owned (ok : GeomOk g N) (hrel : Released g F s s') (h : Owned g D T s)
    (hlive : ∀ x ∈ Live g D T s, Ktfs.ptr g s (T x.1) x.2 ∉ F) (hzero : 0 ∉ F)
    (hkept : ∀ v ∈ D.kept, v ∉ F) : Owned g D T s' := by
  have hptr := hrel.ptr ok h
  have hcongr : Live g D T s' = Live g D T s := live_congr hptr fun _ _ => rfl
  refine h.sub (fun _ hi => hi) ?_ h.max ?_ ((hrel.usedPtr ok 0).mpr ⟨h.zero, hzero⟩) ?_
  · rintro ⟨i, p⟩ hx
    rw [hcongr] at hx
    exact ⟨hx, hptr i hx.1 p, (hrel.usedPtr ok _).mpr ⟨h.usedPtr hx, hlive _ hx⟩⟩
  · intro i hi p hp
    rw [hcongr]
    exact h.within i hi p hp
  · intro v hv
    exact ⟨hv, (hrel.usedPtr ok v).mpr ⟨(h.kept v hv).1, hkept v hv⟩⟩

end Released

/-! ## The loop of a shrinking `IOCTL_SETEND` -/

/-- The pointers in slots `lo` to `lo + n`. -/
def slots (p : Nat → UInt32) (lo n : Nat) : Set UInt32 := {v | ∃ l, lo ≤ l ∧ l < lo + n ∧ p l = v}

theorem slots_zero (p : Nat → UInt32) (lo : Nat) : slots p lo 0 = ∅ := by
  ext v
  simp only [slots, Set.mem_ofPred_eq, Set.mem_empty_iff_false, iff_false]
  rintro ⟨l, hl, hl', -⟩
  omega

theorem slots_succ (p : Nat → UInt32) (lo n : Nat) :
    slots p lo (n + 1) = {p lo} ∪ slots p (lo + 1) n := by
  ext v
  constructor
  · rintro ⟨l, hl, hl', rfl⟩
    by_cases heq : l = lo
    · rw [heq]
      exact .inl rfl
    · exact .inr ⟨l, by omega, by omega, rfl⟩
  · rintro (rfl | ⟨l, hl, hl', rfl⟩)
    · exact ⟨lo, by omega, by omega, rfl⟩
    · exact ⟨l, by omega, by omega, rfl⟩

end MiniOs.Ktfs
