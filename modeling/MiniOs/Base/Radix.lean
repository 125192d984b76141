import Mathlib.Data.List.Infix
import Mathlib.Data.Option.Basic

/-!
# Forests of linked tables

Tables are nodes with indexed entries, and an entry may link to a node one level deeper.  What
links an entry holds depends on the depth of its table.  `reach` follows a path of indices.

Several roots share one store of nodes.  In a `Forest` no node is reached from two places: not
by two paths from one root, and not from two roots.  A change of one entry then concerns only the
paths through that entry, and the lemmas below say what the paths through it reach afterwards:
the same (`Forest.keep`), nothing (`Forest.cut`), or a new tree (`Forest.graft`).

A forest is about a set `dom` of paths that is closed under prefixes.
-/

namespace MiniOs.Radix

variable {F I W K : Type} {link link' : Nat → W → Option F} {get get' : F → I → W}
  {d : Nat} {t f g : F} {i : I} {p q r : List I}

/-- The node that a path leads to from `t`, a node at depth `d`. -/
def reach (link : Nat → W → Option F) (get : F → I → W) : Nat → F → List I → Option F
  | _, t, [] => some t
  | d, t, i :: p => (link d (get t i)).bind fun t' => reach link get (d + 1) t' p

@[simp] theorem reach_nil : reach link get d t [] = some t := rfl

theorem reach_cons :
    reach link get d t (i :: p) = (link d (get t i)).bind fun t' => reach link get (d + 1) t' p := rfl

theorem reach_append : reach link get d t (p ++ q) =
    (reach link get d t p).bind fun t' => reach link get (d + p.length) t' q := by
  induction p generalizing d t with
  | nil => rfl
  | cons i p ih =>
    rw [List.cons_append, reach_cons, reach_cons, Option.bind_assoc]
    refine Option.bind_congr fun t' _ => ?_
    rw [ih, List.length_cons, Nat.add_right_comm, Nat.add_assoc]

theorem reach_concat : reach link get d t (p ++ [i]) =
    (reach link get d t p).bind fun t' => link (d + p.length) (get t' i) := by
  rw [reach_append]
  exact Option.bind_congr fun t' _ => Option.bind_fun_some _

/-- Along the path the two stores have the same entries. -/
def Agree (link : Nat → W → Option F) (get get' : F → I → W) (d : Nat) (t : F) (p : List I) : Prop :=
  ∀ q i r f, p = q ++ i :: r → reach link get d t q = some f → get' f i = get f i

namespace Agree

theorem head (h : Agree link get get' d t (i :: p)) : get' t i = get t i := h [] i p t rfl rfl

theorem tail (h : Agree link get get' d t (i :: p)) {t' : F} (ht : link d (get t i) = some t') :
    Agree link get get' (d + 1) t' p := by
  intro q j r f hp hf
  refine h (i :: q) j r f (by rw [hp, List.cons_append]) ?_
  rw [reach_cons, ht]
  exact hf

theorem reach_eq (h : Agree link get get' d t p) : reach link get' d t p = reach link get d t p := by
  induction p generalizing d t with
  | nil => rfl
  | cons i p ih =>
    rw [reach_cons, reach_cons, h.head]
    exact Option.bind_congr fun t' ht => ih (h.tail ht)

end Agree

/-- The paths are closed under prefixes. -/
def Closed (dom : List I → Prop) : Prop := ∀ p q, dom (p ++ q) → dom p

/-- No node is reached from two places, and the entries of the nodes satisfy `ok`. -/
structure Forest (link : Nat → W → Option F) (ok : Nat → W → Prop) (dom : List I → Prop) (d : Nat)
    (root : K → F) (get : F → I → W) : Prop where
  closed : Closed dom
  unshared : ∀ {k l p q f}, dom p → dom q → reach link get d (root k) p = some f →
    reach link get d (root l) q = some f → k = l ∧ p = q
  ok : ∀ {k p i f}, dom (p ++ [i]) → reach link get d (root k) p = some f →
    ok (d + p.length) (get f i)

namespace Forest

variable {ok : Nat → W → Prop} {dom : List I → Prop} {root : K → F} {k l : K}

/-- Nodes outside of the forest do not matter. -/
theorem congr (h : Forest link ok dom d root get)
    (hsame : ∀ l p f, dom p → reach link get d (root l) p = some f → get' f = get f) :
    Forest link ok dom d root get' ∧
      ∀ l p, dom p → Agree link get get' d (root l) p := by
  have hagree : ∀ l p, dom p → Agree link get get' d (root l) p := by
    intro l p hp q i r f hpq hf
    rw [hsame l q f (h.closed q (i :: r) (hpq ▸ hp)) hf]
  refine ⟨⟨h.closed, ?_, ?_⟩, hagree⟩
  · intro k l p q f hp hq hkf hlf
    rw [(hagree k p hp).reach_eq] at hkf
    rw [(hagree l q hq).reach_eq] at hlf
    exact h.unshared hp hq hkf hlf
  · intro k p i f hp hf
    have hp' := h.closed p [i] hp
    rw [(hagree k p hp').reach_eq] at hf
    rw [hsame k p f hp' hf]
    exact h.ok hp hf

section Update

variable (h : Forest link ok dom d root get) (hdom : dom (q ++ [i]))
  (hf : reach link get d (root k) q = some f)
  (hsame : ∀ l p g j, dom (p ++ [j]) → reach link get d (root l) p = some g → (g = f → j ≠ i) →
    get' g j = get g j)

include h hdom hf hsame

/-- Paths that do not go through the changed entry. -/
theorem agree_of_not_through (hp : dom p) (hnot : ¬ (l = k ∧ q ++ [i] <+: p)) :
    Agree link get get' d (root l) p := by
  rintro q' j r g rfl hg
  have hq' : dom (q' ++ [j]) := h.closed (q' ++ [j]) r (by simpa using hp)
  refine hsame l q' g j hq' hg ?_
  rintro rfl rfl
  obtain ⟨rfl, rfl⟩ := h.unshared (h.closed _ _ hq') (h.closed _ _ hdom) hg hf
  exact hnot ⟨rfl, r, by simp⟩

theorem reach_table : reach link get' d (root k) q = some f := by
  rw [(h.agree_of_not_through hdom hf hsame (h.closed _ _ hdom) ?_).reach_eq, hf]
  rintro ⟨-, hpre⟩
  have hlen := hpre.length_le
  rw [List.length_append, List.length_singleton] at hlen
  omega

/-- Paths through the changed entry. -/
theorem reach_through :
    reach link get' d (root k) (q ++ i :: r) = reach link get' (d + q.length) f (i :: r) := by
  rw [reach_append, h.reach_table hdom hf hsame]
  rfl

section

variable (hok : ok (d + q.length) (get' f i))

include hok

/-- What the paths through the entry reach afterwards is new. -/
theorem replace
    (hnew : ∀ r x, dom (q ++ i :: r) → reach link get' (d + q.length) f (i :: r) = some x →
      (∀ l p, dom p → ¬ (l = k ∧ q ++ [i] <+: p) → reach link get d (root l) p ≠ some x) ∧
      (∀ r', dom (q ++ i :: r') → reach link get' (d + q.length) f (i :: r') = some x → r = r') ∧
      (∀ j, ok (d + q.length + (r.length + 1)) (get' x j))) :
    Forest link ok dom d root get' := by
  have hoff : ∀ {l p}, dom p → ¬ (l = k ∧ q ++ [i] <+: p) →
      reach link get' d (root l) p = reach link get d (root l) p := fun hp hnot =>
    (h.agree_of_not_through hdom hf hsame hp hnot).reach_eq
  have hthrough : ∀ {p x}, q ++ [i] <+: p → dom p → reach link get' d (root k) p = some x →
      ∃ r, p = q ++ i :: r ∧ dom (q ++ i :: r) ∧
        reach link get' (d + q.length) f (i :: r) = some x := by
    rintro p x ⟨r, rfl⟩ hp hx
    rw [List.append_assoc, List.singleton_append] at hp hx ⊢
    rw [h.reach_through hdom hf hsame] at hx
    exact ⟨r, rfl, hp, hx⟩
  refine ⟨h.closed, ?_, ?_⟩
  · intro k1 k2 p1 p2 x hp1 hp2 hx1 hx2
    by_cases h1 : k1 = k ∧ q ++ [i] <+: p1
    · obtain ⟨rfl, hpre1⟩ := h1
      obtain ⟨r1, rfl, hdom1, hr1⟩ := hthrough hpre1 hp1 hx1
      obtain ⟨hfresh, huniq, -⟩ := hnew r1 x hdom1 hr1
      by_cases h2 : k2 = k1 ∧ q ++ [i] <+: p2
      · obtain ⟨rfl, hpre2⟩ := h2
        obtain ⟨r2, rfl, hdom2, hr2⟩ := hthrough hpre2 hp2 hx2
        exact ⟨rfl, by rw [huniq r2 hdom2 hr2]⟩
      · rw [hoff hp2 h2] at hx2
        exact absurd hx2 (hfresh k2 p2 hp2 h2)
    · rw [hoff hp1 h1] at hx1
      by_cases h2 : k2 = k ∧ q ++ [i] <+: p2
      · obtain ⟨rfl, hpre2⟩ := h2
        obtain ⟨r2, rfl, hdom2, hr2⟩ := hthrough hpre2 hp2 hx2
        exact absurd hx1 ((hnew r2 x hdom2 hr2).1 k1 p1 hp1 h1)
      · rw [hoff hp2 h2] at hx2
        exact h.unshared hp1 hp2 hx1 hx2
  · intro k1 p j x hp hx
    have hp' := h.closed p [j] hp
    by_cases h1 : k1 = k ∧ q ++ [i] <+: p
    · obtain ⟨rfl, hpre⟩ := h1
      obtain ⟨r, rfl, hdom', hr⟩ := hthrough hpre hp' hx
      rw [List.length_append, List.length_cons, ← Nat.add_assoc]
      exact (hnew r x hdom' hr).2.2 j
    · rw [hoff hp' h1] at hx
      by_cases hentry : x = f ∧ j = i
      · obtain ⟨rfl, rfl⟩ := hentry
        obtain ⟨rfl, rfl⟩ := h.unshared hp' (h.closed _ _ hdom) hx hf
        exact hok
      · rw [hsame k1 p x j hp hx fun hxf hji => hentry ⟨hxf, hji⟩]
        exact h.ok hp hx

/-- The entry links to nothing afterwards. -/
theorem cut (hnone : link (d + q.length) (get' f i) = none) :
    Forest link ok dom d root get' := by
  refine h.replace hdom hf hsame hok fun r x _ hx => ?_
  rw [reach_cons, hnone] at hx
  cases hx

/-- The entry links to a tree of new nodes afterwards. -/
theorem graft (hg : link (d + q.length) (get' f i) = some g)
    (hsub : Forest link ok (fun _ => True) (d + q.length + 1) (fun _ : Unit => g) get')
    (hnew : ∀ r x, reach link get' (d + q.length + 1) g r = some x →
      ∀ l p, dom p → reach link get d (root l) p ≠ some x) :
    Forest link ok dom d root get' := by
  have hreach : ∀ r, reach link get' (d + q.length) f (i :: r) =
      reach link get' (d + q.length + 1) g r := fun r => by
    rw [reach_cons, hg]
    rfl
  refine h.replace hdom hf hsame hok fun r x _ hx => ?_
  rw [hreach] at hx
  refine ⟨fun l p hp _ => hnew r x hx l p hp, fun r' _ hx' => ?_, fun j => ?_⟩
  · rw [hreach] at hx'
    exact (hsub.unshared (k := ()) (l := ()) trivial trivial hx hx').2
  · have := hsub.ok (k := ()) (i := j) trivial hx
    rwa [Nat.add_assoc, Nat.add_comm 1] at this

/-- The entry keeps its link. -/
theorem keep (hlink : link (d + q.length) (get' f i) = link (d + q.length) (get f i)) :
    Forest link ok dom d root get' ∧
      ∀ l p, dom p → reach link get' d (root l) p = reach link get d (root l) p := by
  have hreach : ∀ l p, dom p → reach link get' d (root l) p = reach link get d (root l) p := by
    intro l p hp
    by_cases hthrough : l = k ∧ q ++ [i] <+: p
    · obtain ⟨rfl, r, rfl⟩ := hthrough
      rw [List.append_assoc, List.singleton_append] at hp ⊢
      rw [h.reach_through hdom hf hsame, reach_append, hf, reach_cons, hlink]
      refine Option.bind_congr fun g hg => Agree.reach_eq ?_
      -- a node below the entry is not the table itself
      rintro r1 j r2 x rfl hx
      have hbelow : reach link get d (root l) (q ++ i :: r1) = some x := by
        rw [reach_append, hf, Option.bind_some, reach_cons, hg]
        exact hx
      have hp1 : dom ((q ++ i :: r1) ++ [j]) := h.closed _ r2 (by simpa using hp)
      refine hsame l (q ++ i :: r1) x j hp1 hbelow ?_
      rintro rfl
      have heq := (h.unshared (h.closed _ _ hp1) (h.closed _ _ hdom) hbelow hf).2
      simp at heq
    · exact (h.agree_of_not_through hdom hf hsame hp hthrough).reach_eq
  refine ⟨⟨h.closed, ?_, ?_⟩, hreach⟩
  · intro k1 k2 p1 p2 x hp1 hp2 hx1 hx2
    rw [hreach _ _ hp1] at hx1
    rw [hreach _ _ hp2] at hx2
    exact h.unshared hp1 hp2 hx1 hx2
  · intro k1 p j x hp hx
    have hp' := h.closed p [j] hp
    rw [hreach _ _ hp'] at hx
    by_cases hentry : x = f ∧ j = i
    · obtain ⟨rfl, rfl⟩ := hentry
      obtain ⟨rfl, rfl⟩ := h.unshared hp' (h.closed _ _ hdom) hx hf
      exact hok
    · rw [hsame k1 p x j hp hx fun hxf hji => hentry ⟨hxf, hji⟩]
      exact h.ok hp hx

end

end Update

/-- A node with no links is a tree. -/
theorem barren (hlink : ∀ i, link d (get g i) = none) (hok : ∀ i, ok d (get g i)) :
    Forest link ok (fun _ => True) d (fun _ : Unit => g) get := by
  have hreach : ∀ {p x}, reach link get d g p = some x → p = [] ∧ x = g := by
    intro p x hx
    cases p with
    | nil =>
      cases hx
      exact ⟨rfl, rfl⟩
    | cons i p =>
      rw [reach_cons, hlink] at hx
      cases hx
  refine ⟨fun _ _ _ => trivial, ?_, ?_⟩
  · intro _ _ p q x _ _ hp hq
    exact ⟨rfl, (hreach hp).1.trans (hreach hq).1.symm⟩
  · intro _ p i x _ hx
    obtain ⟨rfl, rfl⟩ := hreach hx
    exact hok i

end Forest

end MiniOs.Radix
