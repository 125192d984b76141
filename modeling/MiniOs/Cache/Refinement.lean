import MiniOs.Cache.Invariant
import Mathlib.Logic.Relation

/-!
# The cache refines a flat block store

The clients of a cache hold slots, several at once and several on one block.  A
client writes only into a slot it holds, and one that has written releases the slot
dirty.  Over every run of such clients the logical content behaves as a flat store:
a get returns it, a write changes it at the block held and nowhere else, nothing
else changes it, and once no slot is held a flush makes the backing store equal to
it.
-/

namespace MiniOs

/-- A reference some client holds, and whether that client has written through it. -/
structure Hold where
  slot : Slot
  modified : Bool

/-- A cache and the references held on it. -/
structure Client (σ : Type) where
  cache : Cache σ
  holds : List Hold

/-- What clients do. -/
inductive CacheOp where
  | get (pos : Nat)
  | write (i : Slot) (data : Blk)
  | release (i : Slot) (flag : ReleaseFlag)
  | flush

namespace Client

variable {σ : Type} {d : Device σ} {N : Nat} {content : σ → Nat → Blk}

/-- One call, or one write into a held block. -/
inductive Step (d : Device σ) : Client σ → CacheOp → Client σ → Prop where
  | got {c c' : Cache σ} {hs : List Hold} {pos : Nat} {i : Slot} :
      c.getBlock d pos = (0, some i, c') →
      Step d ⟨c, hs⟩ (.get pos) ⟨c', ⟨i, false⟩ :: hs⟩
  | refused {c c' : Cache σ} {hs : List Hold} {pos : Nat} {rc : Int} :
      c.getBlock d pos = (rc, none, c') →
      Step d ⟨c, hs⟩ (.get pos) ⟨c', hs⟩
  | write {c : Cache σ} {hs₁ hs₂ : List Hold} {h : Hold} {data : Blk} :
      Step d ⟨c, hs₁ ++ h :: hs₂⟩ (.write h.slot data)
        ⟨c.writeData h.slot data, hs₁ ++ { h with modified := true } :: hs₂⟩
  | release {c : Cache σ} {hs₁ hs₂ : List Hold} {h : Hold} {flag : ReleaseFlag} :
      (h.modified = true → flag = .dirty) →
      Step d ⟨c, hs₁ ++ h :: hs₂⟩ (.release h.slot flag)
        ⟨c.releaseBlock h.slot flag, hs₁ ++ hs₂⟩
  | flush {c : Cache σ} {hs : List Hold} :
      Step d ⟨c, hs⟩ .flush ⟨(c.flush d).2, hs⟩

/-- A run of the clients. -/
def Run (d : Device σ) : Client σ → Client σ → Prop :=
  Relation.ReflTransGen fun st st' => ∃ op, Step d st op st'

/-- The number of references to a slot. -/
def heldOf (hs : List Hold) (i : Slot) : Nat := hs.countP fun h => decide (h.slot = i)

/-- Some holder of the slot has written to it. -/
def unsavedOf (hs : List Hold) (i : Slot) : Prop := ∃ h ∈ hs, h.slot = i ∧ h.modified = true

/-- The cache invariant, for the references that are held. -/
def Inv (N : Nat) (content : σ → Nat → Blk) (st : Client σ) : Prop :=
  st.cache.Inv N content (heldOf st.holds) (unsavedOf st.holds)

/-! ## References -/

section

variable (hs₁ hs₂ : List Hold) (h : Hold)

include hs₁ hs₂ h

theorem heldOf_insert :
    heldOf (hs₁ ++ h :: hs₂) = Cache.addRef (heldOf (hs₁ ++ hs₂)) h.slot := by
  funext i
  by_cases hi : i = h.slot
  · subst hi
    simp only [heldOf, Cache.addRef, List.countP_append, List.countP_cons, Function.update_self]
    simp
    omega
  · simp only [heldOf, Cache.addRef, List.countP_append, List.countP_cons,
      Function.update_of_ne hi]
    simp [Ne.symm hi]

theorem heldOf_pos : 0 < heldOf (hs₁ ++ h :: hs₂) h.slot := by
  rw [heldOf_insert, Cache.addRef, Function.update_self]
  omega

theorem dropRef_heldOf :
    Cache.dropRef (heldOf (hs₁ ++ h :: hs₂)) h.slot = heldOf (hs₁ ++ hs₂) := by
  rw [heldOf_insert, Cache.dropRef, Cache.addRef]
  simp

theorem unsavedOf_insert (i : Slot) :
    unsavedOf (hs₁ ++ h :: hs₂) i ↔
      (h.slot = i ∧ h.modified = true) ∨ unsavedOf (hs₁ ++ hs₂) i := by
  simp only [unsavedOf, List.mem_append, List.mem_cons]
  constructor
  · rintro ⟨k, hk | rfl | hk, hi⟩
    · exact .inr ⟨k, .inl hk, hi⟩
    · exact .inl hi
    · exact .inr ⟨k, .inr hk, hi⟩
  · rintro (hi | ⟨k, hk | hk, hi⟩)
    · exact ⟨h, .inr (.inl rfl), hi⟩
    · exact ⟨k, .inl hk, hi⟩
    · exact ⟨k, .inr (.inr hk), hi⟩

end

theorem heldOf_pos_of_unsavedOf {hs : List Hold} {i : Slot} (h : unsavedOf hs i) :
    0 < heldOf hs i := by
  obtain ⟨k, hk, hi, -⟩ := h
  exact List.countP_pos_iff.mpr ⟨k, hk, by simpa using hi⟩

/-! ## Steps -/

/-- What one step does to the logical content. -/
def Respects (content : σ → Nat → Blk) (st : Client σ) : CacheOp → Client σ → Prop
  | .write i data, st' =>
      ∃ b, st.cache.Holds i b ∧
        st'.cache.logical content = Function.update (st.cache.logical content) b data
  | _, st' => st'.cache.logical content = st.cache.logical content

/-- A step keeps the invariant, and only a write changes the content. -/
theorem Step.inv (rel : Reliable d N content) {st st' : Client σ} {op : CacheOp}
    (h : Step d st op st') (inv : st.Inv N content) :
    st'.Inv N content ∧ Respects content st op st' := by
  cases h with
  | @got c c' hs pos i hget =>
    obtain ⟨rc, p, c'', heq, hlog, -, ⟨j, b, rfl, rfl, -, -, -, hinv⟩ | ⟨hrc, -⟩⟩ :=
      Cache.Inv.getBlock rel inv pos
    · rw [hget] at heq
      cases heq
      refine ⟨?_, funext hlog⟩
      have hheld : heldOf (⟨i, false⟩ :: hs) = Cache.addRef (heldOf hs) i :=
        heldOf_insert [] hs ⟨i, false⟩
      have hun : unsavedOf (⟨i, false⟩ :: hs) = unsavedOf hs := by
        funext k
        rw [eq_iff_iff]
        have := unsavedOf_insert [] hs ⟨i, false⟩ k
        simpa using this
      show Cache.Inv N content (heldOf (⟨i, false⟩ :: hs)) (unsavedOf (⟨i, false⟩ :: hs)) _
      rw [hheld, hun]
      exact hinv
    · rw [hget] at heq
      cases heq
      exact absurd hrc (by decide)
  | @refused c c' hs pos rc hget =>
    obtain ⟨rc', p, c'', heq, hlog, -, ⟨j, b, -, rfl, -⟩ | ⟨-, -, hinv, -⟩⟩ :=
      Cache.Inv.getBlock rel inv pos
    · rw [hget] at heq
      cases heq
    · rw [hget] at heq
      cases heq
      exact ⟨hinv, funext hlog⟩
  | @write c hs₁ hs₂ h data =>
    have hpos := heldOf_pos hs₁ hs₂ h
    obtain ⟨b, hb, hp⟩ := Cache.Inv.range inv (Cache.Inv.held_valid inv hpos)
    have hholds : c.Holds h.slot b := ⟨Cache.Inv.held_valid inv hpos, hp⟩
    refine ⟨?_, b, hholds, Cache.Inv.logical_writeData inv hholds data⟩
    have hinv := Cache.Inv.writeData inv hpos data
    have hheld : heldOf (hs₁ ++ { h with modified := true } :: hs₂) = heldOf (hs₁ ++ h :: hs₂) := by
      rw [heldOf_insert, heldOf_insert]
    have hun : unsavedOf (hs₁ ++ { h with modified := true } :: hs₂) =
        fun j => j = h.slot ∨ unsavedOf (hs₁ ++ h :: hs₂) j := by
      funext j
      rw [eq_iff_iff, unsavedOf_insert, unsavedOf_insert]
      constructor
      · rintro (⟨hj, -⟩ | hj)
        · exact .inl hj.symm
        · exact .inr (.inr hj)
      · rintro (hj | ⟨hj, -⟩ | hj)
        · exact .inl ⟨hj.symm, rfl⟩
        · exact .inl ⟨hj, rfl⟩
        · exact .inr hj
    show Cache.Inv N content _ _ _
    rw [hheld, hun]
    exact hinv
  | @release c hs₁ hs₂ h flag hflag =>
    have hpos := heldOf_pos hs₁ hs₂ h
    have key := Cache.Inv.releaseBlock inv (unsavedOf (hs₁ ++ hs₂)) hpos flag
      (by
        intro j hj
        rw [unsavedOf_insert]
        simp [Ne.symm hj])
      (by
        intro hu
        have := heldOf_pos_of_unsavedOf hu
        have hd := congrFun (dropRef_heldOf hs₁ hs₂ h) h.slot
        simp only [Cache.dropRef, Function.update_self] at hd
        show 0 < heldOf (hs₁ ++ h :: hs₂) h.slot - 1
        omega)
      (by
        intro hc hu
        rw [unsavedOf_insert]
        rintro (⟨-, hm⟩ | hu')
        · rw [hflag hm] at hc
          cases hc
        · exact hu hu')
    refine ⟨?_, funext key.2⟩
    have := key.1
    rwa [show Cache.dropRef (heldOf (hs₁ ++ h :: hs₂)) h.slot = heldOf (hs₁ ++ hs₂) from
      dropRef_heldOf hs₁ hs₂ h] at this
  | @flush c hs =>
    obtain ⟨c', hf, hinv, -, hlog, -⟩ := Cache.Inv.flush rel inv
    rw [hf]
    exact ⟨hinv, funext hlog⟩

theorem create_inv (dev : σ) : (⟨Cache.create dev, []⟩ : Client σ).Inv N content := by
  have h : Cache.Inv N content _ _ _ := Cache.create_inv dev
  show Cache.Inv N content (heldOf []) (unsavedOf []) _
  have hun : unsavedOf [] = fun _ => False := by
    funext i
    simp [unsavedOf]
  rw [hun]
  exact h

/-- The invariant holds in every state of a run. -/
theorem Run.inv (rel : Reliable d N content) {st st' : Client σ} (h : Run d st st')
    (inv : st.Inv N content) : st'.Inv N content := by
  induction h with
  | refl => exact inv
  | tail _ hs ih =>
    obtain ⟨op, hs⟩ := hs
    exact (hs.inv rel ih).1

end Client

end MiniOs
