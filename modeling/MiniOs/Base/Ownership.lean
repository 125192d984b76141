import Mathlib.Data.Set.Function

/-!
# Exclusive ownership

Places refer to resources, and some resources are in use.  `Exclusive ref live used`
says that the live places own what they refer to: it is in use, and no other live place
refers to it.  A store that hands out resources keeps this when it links a place to a
resource no live place refers to (`Exclusive.link`), and when it drops places and then
gives back what only they referred to (`Exclusive.restrict`).
-/

namespace MiniOs

variable {ι β : Type} {ref ref' : ι → β} {live live' : Set ι} {used used' : Set β}

/-- The live places refer to resources in use, each to its own. -/
structure Exclusive (ref : ι → β) (live : Set ι) (used : Set β) : Prop where
  mapsTo : Set.MapsTo ref live used
  injOn : Set.InjOn ref live

namespace Exclusive

section

variable (h : Exclusive ref live used)

include h

/-- A resource that is not in use is referred to by no live place. -/
theorem ne_of_not_mem {b : β} (hb : b ∉ used) {x : ι} (hx : x ∈ live) : ref x ≠ b := by
  rintro rfl
  exact hb (h.mapsTo hx)

/-- Another live place refers to another resource. -/
theorem ne_of_ne {x y : ι} (hx : x ∈ live) (hy : y ∈ live) (hxy : x ≠ y) : ref x ≠ ref y :=
  fun heq => hxy (h.injOn hx hy heq)

/-- Fewer live places, which refer to what they referred to, still in use. -/
theorem restrict (hlive : live' ⊆ live)
    (href : ∀ x ∈ live', ref' x = ref x) (hused : ∀ x ∈ live', ref x ∈ used → ref x ∈ used') :
    Exclusive ref' live' used' where
  mapsTo x hx := by
    rw [href x hx]
    exact hused x hx (h.mapsTo (hlive hx))
  injOn x hx y hy heq := by
    rw [href x hx, href y hy] at heq
    exact h.injOn (hlive hx) (hlive hy) heq

/-- One more live place, which refers to a resource that no other live place refers
to. -/
theorem link {x : ι} {b : β} (hlive : ∀ y ∈ live', y ≠ x → y ∈ live ∧ ref' y = ref y)
    (hx : ref' x = b) (hfresh : ∀ y ∈ live, ref y ≠ b) (hb : b ∈ used')
    (hused : ∀ y ∈ live, ref y ∈ used → ref y ∈ used') : Exclusive ref' live' used' where
  mapsTo y hy := by
    by_cases hyx : y = x
    · subst hyx
      rw [hx]
      exact hb
    · obtain ⟨hl, hr⟩ := hlive y hy hyx
      rw [hr]
      exact hused y hl (h.mapsTo hl)
  injOn y hy z hz heq := by
    by_cases hyx : y = x <;> by_cases hzx : z = x
    · rw [hyx, hzx]
    · obtain ⟨hl, hr⟩ := hlive z hz hzx
      subst hyx
      rw [hx, hr] at heq
      exact absurd heq.symm (hfresh z hl)
    · obtain ⟨hl, hr⟩ := hlive y hy hyx
      subst hzx
      rw [hx, hr] at heq
      exact absurd heq (hfresh y hl)
    · obtain ⟨hly, hry⟩ := hlive y hy hyx
      obtain ⟨hlz, hrz⟩ := hlive z hz hzx
      rw [hry, hrz] at heq
      exact h.injOn hly hlz heq

end

end Exclusive

end MiniOs
