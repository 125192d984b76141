import MiniOs.Memory.Tables

/-!
# Cloning an address space

`clone_pt` copies the part of a tree that is reached without passing a global entry: its own
tables and pages.  Entries that are global are copied as they are, so what is below them is
shared.  `Copy` says that a tree in one memory is such a copy of a tree in another, and `Tree`
that the copy is a tree whose pages are taken from a given set.  `clone_pt` takes them from the
free pages, and changes nothing else.
-/

namespace MiniOs

open Memory Radix

/-! ## The tables and pages of a space's own -/

/-- The links that are not global. -/
def ownLinks (d : Nat) (e : Word) : Option Nat := if pteGlobal e = true then none else links true d e

/-- The page that a path without global entries leads to. -/
abbrev ownReach (m : Memory) (d t : Nat) (p : List (Fin pteCnt)) : Option Nat :=
  Radix.reach ownLinks m.entry d t p

theorem ownLinks_global {d : Nat} {e : Word} (h : pteGlobal e = true) : ownLinks d e = none := if_pos h

@[simp] theorem ownLinks_null (d : Nat) : ownLinks d nullPte = none := by
  rw [ownLinks, links_null, ite_self]

/-- The entry links to a table above level 0, and to a page at level 0. -/
theorem ownLinks_eq {d n : Nat} {e : Word} (hd : d + n = 2) (hvalid : pteValid e = true)
    (hown : pteGlobal e = false) (hleaf : pteLeaf e = decide (n = 0)) :
    ownLinks d e = some (ptePpn e).toNat := by
  rw [ownLinks, if_neg (by simp [hown])]
  cases n with
  | zero =>
    obtain rfl : d = 2 := hd
    rw [links, if_pos rfl, pageLink, if_pos hvalid]
  | succ n => rw [links_of_lt (by omega), tableLink, if_pos ⟨hvalid, by simpa using hleaf⟩]

/-- From the table `t` at depth `d` there is a tree of own tables and pages, and these are `U`. -/
structure Tree (d : Nat) (m : Memory) (t : Nat) (U : Finset Nat) : Prop where
  forest : Forest ownLinks (fun _ _ => True) (fun _ => True) d (fun _ : Unit => t) m.entry
  mem_iff : ∀ f, f ∈ U ↔ ∃ p, ownReach m d t p = some f

namespace Tree

variable {d t g : Nat} {m m' : Memory} {U U' : Finset Nat} {pt : Ptr} {i : Fin pteCnt} {w : Word}
  {p q : List (Fin pteCnt)} {f : Nat}

theorem inside (h : Tree d m t U) (hf : ownReach m d t p = some f) : f ∈ U := (h.mem_iff f).mpr ⟨p, hf⟩

theorem root_mem (h : Tree d m t U) : t ∈ U := h.inside (p := []) rfl

theorem unshared (h : Tree d m t U) (hp : ownReach m d t p = some f) (hq : ownReach m d t q = some f) :
    p = q :=
  (h.forest.unshared (k := ()) (l := ()) trivial trivial hp hq).2

/-- No path leads back to the root. -/
theorem root_unshared (h : Tree d m t U) (hp : ownReach m d t (i :: p) = some f) : f ≠ t := by
  rintro rfl
  cases h.unshared (p := []) rfl hp

theorem reach_congr (h : Tree d m t U) (hsame : ∀ f ∈ U, m'.entry f = m.entry f)
    (p : List (Fin pteCnt)) : ownReach m' d t p = ownReach m d t p :=
  ((h.forest.congr fun _ _ f _ hf => hsame f (h.inside hf)).2 () p trivial).reach_eq

/-- Pages outside of the tree do not matter. -/
theorem congr (h : Tree d m t U) (hsame : ∀ f ∈ U, m'.entry f = m.entry f) : Tree d m' t U := by
  refine ⟨(h.forest.congr fun _ _ f _ hf => hsame f (h.inside hf)).1, fun f => ?_⟩
  simp only [h.reach_congr hsame]
  exact h.mem_iff f

/-- A page with no own links. -/
theorem barren (hlink : ∀ i, ownLinks d (m.entry t i) = none) : Tree d m t {t} := by
  refine ⟨.barren hlink fun _ => trivial, fun f => ⟨fun hf => ⟨[], ?_⟩, ?_⟩⟩
  · rw [Finset.mem_singleton.mp hf]
    rfl
  · rintro ⟨p, hf⟩
    cases p with
    | nil => exact Finset.mem_singleton.mpr (Option.some.inj hf).symm
    | cons i p =>
      rw [ownReach, reach_cons, hlink] at hf
      cases hf

/-- What the paths from the root that do not start with `i` reach. -/
theorem reach_store (h : Tree d m (frame pt) U) (hpt : Aligned pt) (w : Word) {p : List (Fin pteCnt)}
    (hp : ¬ [i] <+: p) : ownReach (m.store pt i w) d (frame pt) p = ownReach m d (frame pt) p :=
  (h.forest.agree_of_not_through (k := ()) (l := ()) (q := []) trivial rfl
    (fun _ _ _ _ _ _ hne => entry_store_ne hpt w hne) trivial fun hand => hp hand.2).reach_eq

/-- What the paths through an entry of the root reach. -/
theorem reach_through (hlink : ownLinks d (m.entry t i) = some g) (p : List (Fin pteCnt)) :
    ownReach m d t (i :: p) = ownReach m (d + 1) g p := by
  rw [ownReach, reach_cons, hlink]
  rfl

theorem reach_none (hlink : ownLinks d (m.entry t i) = none) (p : List (Fin pteCnt)) :
    ownReach m d t (i :: p) = none := by
  rw [ownReach, reach_cons, hlink]
  rfl

/-- The entry had no own link, and has none afterwards. -/
theorem store_none (h : Tree d m (frame pt) U) (hpt : Aligned pt)
    (hold : ownLinks d (m.entry (frame pt) i) = none) (hw : ownLinks d w = none) :
    Tree d (m.store pt i w) (frame pt) U := by
  have hentry : (m.store pt i w).entry (frame pt) i = w := entry_store_self hpt i w
  have hreach : ∀ p, ownReach (m.store pt i w) d (frame pt) p = ownReach m d (frame pt) p := by
    intro p
    by_cases hp : [i] <+: p
    · obtain ⟨r, rfl⟩ := hp
      rw [List.singleton_append, reach_none hold, reach_none (by rw [hentry]; exact hw)]
    · exact h.reach_store hpt w hp
  refine ⟨h.forest.cut (k := ()) (q := []) (i := i) trivial rfl
    (fun _ _ _ _ _ _ hne => entry_store_ne hpt w hne) trivial (by rw [hentry]; exact hw), fun f => ?_⟩
  simp only [hreach]
  exact h.mem_iff f

/-- Another tree is linked at an entry of the root. -/
theorem store_link (h : Tree d m (frame pt) U) (hpt : Aligned pt)
    (hold : ownLinks d (m.entry (frame pt) i) = none) (hw : ownLinks d w = some g)
    (hsub : Tree (d + 1) m g U') (hdis : Disjoint U U') :
    Tree d (m.store pt i w) (frame pt) (U ∪ U') := by
  have hentry : (m.store pt i w).entry (frame pt) i = w := entry_store_self hpt i w
  have hsub' : Tree (d + 1) (m.store pt i w) g U' := hsub.congr fun f hf => by
    refine (Within.store m hpt (Set.mem_singleton (frame pt)) i.isLt w).entry ?_
    rintro rfl
    exact Finset.disjoint_left.mp hdis h.root_mem hf
  have hthrough : ∀ r, ownReach (m.store pt i w) d (frame pt) (i :: r) =
      ownReach (m.store pt i w) (d + 1) g r := fun r => reach_through (by rw [hentry]; exact hw) r
  refine ⟨h.forest.graft (k := ()) (q := []) (i := i) trivial rfl
    (fun _ _ _ _ _ _ hne => entry_store_ne hpt w hne) trivial (by rw [hentry]; exact hw)
    hsub'.forest fun r x hx _ p _ hp => ?_, fun f => ?_⟩
  · exact Finset.disjoint_left.mp hdis (h.inside hp) (hsub'.inside hx)
  · rw [Finset.mem_union, h.mem_iff, hsub'.mem_iff]
    constructor
    · rintro (⟨p, hp⟩ | ⟨p, hp⟩)
      · refine ⟨p, (h.reach_store hpt w ?_).trans hp⟩
        rintro ⟨r, rfl⟩
        rw [List.singleton_append, reach_none hold] at hp
        cases hp
      · exact ⟨i :: p, (hthrough p).trans hp⟩
    · rintro ⟨p, hp⟩
      by_cases hpre : [i] <+: p
      · obtain ⟨r, rfl⟩ := hpre
        rw [List.singleton_append, hthrough] at hp
        exact .inr ⟨r, hp⟩
      · rw [h.reach_store hpt w hpre] at hp
        exact .inl ⟨p, hp⟩

end Tree

/-! ## Copies -/

/-- An entry and its copy: `sub` relates what own entries link to, and `leaf` tells whether own
entries are leaves. -/
inductive EntryCopy (leaf : Bool) (sub : Nat → Nat → Prop) : Word → Word → Prop where
  | invalid {e : Word} : pteValid e = false → EntryCopy leaf sub e nullPte
  | shared {e : Word} : pteValid e = true → pteGlobal e = true → EntryCopy leaf sub e e
  | own {e e' : Word} : pteValid e = true → pteGlobal e = false → pteLeaf e = leaf →
      pteValid e' = true → pteGlobal e' = false → pteLeaf e' = leaf →
      (leaf = true → pteFlags e' = pteFlags e) → sub (ptePpn e).toNat (ptePpn e').toNat →
      EntryCopy leaf sub e e'

/-- The tree of `n` levels of tables at `t'` in `m'` is a copy of the one at `t` in `m`; with no
levels they are pages. -/
def Copy (m m' : Memory) : Nat → Nat → Nat → Prop
  | 0, f, f' => m'.entry f' = m.entry f
  | n + 1, t, t' => ∀ i, EntryCopy (decide (n = 0)) (Copy m m' n) (m.entry t i) (m'.entry t' i)

theorem EntryCopy.imp {leaf : Bool} {sub sub' : Nat → Nat → Prop} {e e' : Word}
    (h : EntryCopy leaf sub e e')
    (himp : pteValid e = true → pteGlobal e = false → pteLeaf e = leaf → pteValid e' = true →
      pteGlobal e' = false → pteLeaf e' = leaf → sub (ptePpn e).toNat (ptePpn e').toNat →
      sub' (ptePpn e).toNat (ptePpn e').toNat) : EntryCopy leaf sub' e e' := by
  cases h with
  | invalid hv => exact .invalid hv
  | shared hv hg => exact .shared hv hg
  | own hv hg hl hv' hg' hl' hf hsub => exact .own hv hg hl hv' hg' hl' hf (himp hv hg hl hv' hg' hl' hsub)

namespace Copy

variable {d n t t' : Nat} {m m1 m' m'' : Memory}

/-- Other pages than those of the original and of the copy do not matter. -/
theorem congr (h : Copy m m' n t t') (hd : d + n = 3)
    (hleft : ∀ p f, ownReach m d t p = some f → m1.entry f = m.entry f)
    (hright : ∀ p f, ownReach m' d t' p = some f → m''.entry f = m'.entry f) :
    Copy m1 m'' n t t' := by
  induction n generalizing d t t' with
  | zero => exact (hright [] t' rfl).trans (h.trans (hleft [] t rfl).symm)
  | succ n ih =>
    intro i
    rw [hleft [] t rfl, hright [] t' rfl]
    refine (h i).imp fun hv hg hl hv' hg' hl' hsub => ih hsub (d := d + 1) (by omega)
      (fun p f hf => hleft (i :: p) f ?_) fun p f hf => hright (i :: p) f ?_
    · exact (Tree.reach_through (ownLinks_eq (by omega) hv hg hl) p).trans hf
    · exact (Tree.reach_through (ownLinks_eq (by omega) hv' hg' hl') p).trans hf

end Copy

/-- Own entries of a copy are leaves at level 0 only. -/
theorem Copy.shape {d n t t' f : Nat} {m m' : Memory} {p : List (Fin pteCnt)} {i : Fin pteCnt}
    (h : Copy m m' n t t') (hd : d + n = 3) (hf : ownReach m' d t' p = some f)
    (hlen : d + p.length < 3) (hvalid : pteValid (m'.entry f i) = true)
    (hown : pteGlobal (m'.entry f i) = false) :
    pteLeaf (m'.entry f i) = decide (d + p.length = 2) := by
  induction p generalizing d n t t' with
  | nil =>
    obtain rfl : t' = f := Option.some.inj hf
    cases n with
    | zero =>
      rw [List.length_nil] at hlen
      omega
    | succ n =>
      have hdepth : decide (d + ([] : List (Fin pteCnt)).length = 2) = decide (n = 0) := by
        rw [List.length_nil]
        exact decide_eq_decide.mpr (by omega)
      rw [hdepth]
      have hentry := h i
      generalize m'.entry t' i = e', m.entry t i = e at hentry hvalid hown ⊢
      cases hentry with
      | invalid => exact absurd hvalid (by decide)
      | shared _ hglobal =>
        rw [hglobal] at hown
        cases hown
      | own _ _ _ _ _ hleaf => exact hleaf
  | cons j p ih =>
    rw [List.length_cons] at hlen ⊢
    cases n with
    | zero => omega
    | succ n =>
      rw [ownReach, reach_cons] at hf
      obtain ⟨g, hlink, hf⟩ := Option.bind_eq_some_iff.mp hf
      have hentry := h j
      generalize m'.entry t' j = e', m.entry t j = e at hlink hentry
      cases hentry with
      | invalid =>
        rw [ownLinks_null] at hlink
        cases hlink
      | shared _ hglobal =>
        rw [ownLinks_global hglobal] at hlink
        cases hlink
      | own _ _ _ hvalid' hown' hleaf' _ hsub =>
        rw [ownLinks_eq (by omega) hvalid' hown' hleaf', Option.some.injEq] at hlink
        subst hlink
        have hrest := ih hsub (d := d + 1) (by omega) hf (by omega)
        rw [hrest]
        exact decide_eq_decide.mpr (by omega)

/-! ## The original -/

/-- A tree that `clone_pt` can copy: own leaves are at level 0 only, and its tables and pages
are not free. -/
structure Clonable (d : Nat) (m : Memory) (t : Nat) (free : Finset Nat) : Prop where
  kept : ∀ {p f}, ownReach m d t p = some f → f ∉ free
  shape : ∀ {p f i}, ownReach m d t p = some f → d + p.length < 3 →
    pteValid (m.entry f i) = true → pteGlobal (m.entry f i) = false →
    pteLeaf (m.entry f i) = decide (d + p.length = 2)

namespace Clonable

variable {d t g : Nat} {m m' : Memory} {free free' : Finset Nat} {i : Fin pteCnt}

theorem reach_congr (h : Clonable d m t free) (hwithin : Within free m m') (p : List (Fin pteCnt)) :
    ownReach m' d t p = ownReach m d t p := by
  refine Agree.reach_eq ?_
  rintro q i r f rfl hf
  rw [hwithin.entry (h.kept hf)]

theorem congr (h : Clonable d m t free) (hwithin : Within free m m') (hsub : free' ⊆ free) :
    Clonable d m' t free' := by
  refine ⟨fun {p f} hf hmem => ?_, fun {p f i} hf hlt => ?_⟩
  · rw [h.reach_congr hwithin] at hf
    exact h.kept hf (hsub hmem)
  · rw [h.reach_congr hwithin] at hf
    rw [hwithin.entry (h.kept hf)]
    exact h.shape hf hlt

theorem sub (h : Clonable d m t free) (hlink : ownLinks d (m.entry t i) = some g) :
    Clonable (d + 1) m g free := by
  have hreach := Tree.reach_through hlink
  refine ⟨fun {p f} hf => h.kept (p := i :: p) (by rw [hreach]; exact hf), fun {p f j} hf hlt => ?_⟩
  have hshape := h.shape (p := i :: p) (i := j) (by rw [hreach]; exact hf)
    (by rw [List.length_cons]; omega)
  rw [List.length_cons, ← Nat.add_assoc, Nat.add_right_comm] at hshape
  exact hshape

end Clonable

/-! ## The loop -/

theorem Memory.entry_copyPage (m : Memory) {dst src : Ptr} (hdst : Aligned dst) (hsrc : Aligned src) :
    (m.copyPage dst src).entry (frame dst) = m.entry (frame src) := by
  funext i
  have hi := i.isLt
  have hd := hdst.word_eq 0
  have hs := hsrc.word_eq 0
  rw [entry, entry, copyPage]
  simp only [pteCnt] at hi hd hs ⊢
  rw [if_pos (by omega)]
  congr 1
  omega

theorem Memory.within_copyPage (m : Memory) {dst : Ptr} (src : Ptr) (hdst : Aligned dst) :
    Within {frame dst} m (m.copyPage dst src) := by
  refine ⟨fun j hj => if_neg ?_, rfl⟩
  have heq := hdst.word_eq 0
  simp only [Set.mem_singleton_iff, pteCnt] at heq hj ⊢
  omega

/-- The one page that is not free any more. -/
theorem sdiff_erase_eq {free : Finset Nat} {f : Nat} (hf : f ∈ free) : free \ free.erase f = {f} := by
  rw [Finset.sdiff_erase hf, Finset.sdiff_self]
  rfl

/-- What `clone_pt` does for trees of `levels` levels: there is no memory left, or there is a copy
made of pages that were free. -/
def CloneSpec (lo hi d levels : Nat) : Prop :=
  ∀ {m : Memory} {cs : List Ptr} {free : Finset Nat} {old : Ptr}, FreeList lo hi m cs free →
    Aligned old → Clonable d m (frame old) free →
    ∃ new m', clonePt levels old m = some (new, m') ∧ (new ≠ 0 →
      ∃ cs' free', FreeList lo hi m' cs' free' ∧ free' ⊆ free ∧ Within free m m' ∧ Aligned new ∧
        frame new < 2 ^ 44 ∧ Copy m m' levels (frame old) (frame new) ∧
        Tree d m' (frame new) (free \ free'))

/-- The loop of `clone_pt` has the entries `is` before it.  The memory was `m₀`, with the pages
`free₀` free, before the table `new` was taken. -/
structure Cloning (lo hi d n : Nat) (m₀ : Memory) (free₀ : Finset Nat) (old new : Ptr)
    (is : List (Fin pteCnt)) (m : Memory) (cs : List Ptr) (free : Finset Nat) : Prop where
  list : FreeList lo hi m cs free
  subset : free ⊆ free₀
  within : Within free₀ m₀ m
  tree : Tree d m (frame new) (free₀ \ free)
  done : ∀ i, i ∉ is → EntryCopy (decide (n = 0)) (Copy m₀ m n) (m₀.entry (frame old) i)
    (m.entry (frame new) i)
  todo : ∀ i ∈ is, m.entry (frame new) i = nullPte

namespace Cloning

variable {lo hi d n : Nat} {m₀ m m1 : Memory} {free₀ free free1 : Finset Nat} {old new : Ptr}
  {is : List (Fin pteCnt)} {i : Fin pteCnt} {cs cs1 : List Ptr} {w : Word} {g : Nat}

theorem new_not_mem (h : Cloning lo hi d n m₀ free₀ old new is m cs free) : frame new ∉ free :=
  (Finset.mem_sdiff.mp h.tree.root_mem).2

/-- The next entry of the new table has no link yet. -/
theorem todo_link (h : Cloning lo hi d n m₀ free₀ old new (i :: is) m cs free) :
    ownLinks d (m.entry (frame new) i) = none := by
  rw [h.todo i (.head _), ownLinks_null]

/-- What was copied stays when only free pages and other entries of the table change. -/
theorem done_congr (h : Cloning lo hi d n m₀ free₀ old new is m cs free) (hd : d + n = 2)
    {m' : Memory} {j : Fin pteCnt} (hj : j ∉ is)
    (hentry : m'.entry (frame new) j = m.entry (frame new) j)
    (hsame : ∀ f ∈ free₀ \ free, f ≠ frame new → m'.entry f = m.entry f) :
    EntryCopy (decide (n = 0)) (Copy m₀ m' n) (m₀.entry (frame old) j) (m'.entry (frame new) j) := by
  rw [hentry]
  refine (h.done j hj).imp fun _ _ _ hv hg hl hsub => hsub.congr (d := d + 1) (by omega)
    (fun _ _ _ => rfl) fun p f hf => ?_
  have hreach : ownReach m d (frame new) (j :: p) = some f :=
    (Tree.reach_through (ownLinks_eq hd hv hg hl) p).trans hf
  exact hsame f (h.tree.inside hreach) (h.tree.root_unshared hreach)

section Entry

variable (h : Cloning lo hi d n m₀ free₀ old new (i :: is) m cs free)

include h

/-- An entry that is not valid is passed over. -/
theorem skip (hinvalid : pteValid (m₀.entry (frame old) i) = false) :
    Cloning lo hi d n m₀ free₀ old new is m cs free := by
  refine ⟨h.list, h.subset, h.within, h.tree, fun j hj => ?_, fun j hj => h.todo j (.tail _ hj)⟩
  by_cases hji : j = i
  · subst hji
    rw [h.todo j (.head _)]
    exact .invalid hinvalid
  · exact h.done j fun hmem => (List.mem_cons.mp hmem).elim hji hj

variable (hd : d + n = 2) (hnew : Aligned new) (hnd : i ∉ is)

include hd hnew hnd

/-- The entry is set to `w`, after free pages were written to. -/
theorem set (hlist : FreeList lo hi m1 cs1 free1) (hsub : free1 ⊆ free) (hwithin : Within free m m1)
    (htree : Tree d (m1.store new i w) (frame new) (free₀ \ free1))
    (hentry : EntryCopy (decide (n = 0)) (Copy m₀ (m1.store new i w) n) (m₀.entry (frame old) i) w) :
    Cloning lo hi d n m₀ free₀ old new is (m1.store new i w) cs1 free1 := by
  have hmem : frame new ∈ free₀ := (Finset.mem_sdiff.mp h.tree.root_mem).1
  have hkeep : ∀ f ∈ free₀ \ free, m1.entry f = m.entry f := fun f hf =>
    hwithin.entry (Finset.mem_sdiff.mp hf).2
  refine ⟨hlist.store hnew (fun hf => h.new_not_mem (hsub hf)) i w, hsub.trans h.subset,
    (h.within.trans (hwithin.mono h.subset)).trans (.store m1 hnew hmem i.isLt w), htree,
    fun j hj => ?_, fun j hj => ?_⟩
  · by_cases hji : j = i
    · subst hji
      rwa [entry_store_self hnew]
    · have hj' : j ∉ i :: is := fun hmem => (List.mem_cons.mp hmem).elim hji hj
      refine h.done_congr hd hj' ?_ fun f hf hne => ?_
      · rw [entry_store_ne hnew _ fun _ => hji, hkeep _ h.tree.root_mem]
      · rw [(Within.store m1 hnew (Set.mem_singleton (frame new)) i.isLt w).entry hne, hkeep f hf]
  · have hne : j ≠ i := fun hji => hnd (hji ▸ hj)
    rw [entry_store_ne hnew _ fun _ => hne, hkeep _ h.tree.root_mem]
    exact h.todo j (.tail _ hj)

/-- A global entry is copied. -/
theorem share (hvalid : pteValid (m₀.entry (frame old) i) = true)
    (hglobal : pteGlobal (m₀.entry (frame old) i) = true) :
    Cloning lo hi d n m₀ free₀ old new is (m.store new i (m₀.entry (frame old) i)) cs free :=
  h.set hd hnew hnd h.list (Finset.Subset.refl _) (.refl _ m)
    (h.tree.store_none hnew h.todo_link (ownLinks_global hglobal)) (.shared hvalid hglobal)

/-- A copy made from free pages is linked. -/
theorem link (hlist : FreeList lo hi m1 cs1 free1) (hsub : free1 ⊆ free)
    (hwithin : Within free m m1) (htree : Tree (d + 1) m1 (ptePpn w).toNat (free \ free1))
    (hentry : ∀ m', (∀ f ∈ free \ free1, m'.entry f = m1.entry f) →
      EntryCopy (decide (n = 0)) (Copy m₀ m' n) (m₀.entry (frame old) i) w)
    (hlink : ownLinks d w = some (ptePpn w).toNat) :
    Cloning lo hi d n m₀ free₀ old new is (m1.store new i w) cs1 free1 := by
  have hkeep : ∀ f ∈ free₀ \ free, m1.entry f = m.entry f := fun f hf =>
    hwithin.entry (Finset.mem_sdiff.mp hf).2
  have hdis : Disjoint (free₀ \ free) (free \ free1) :=
    Finset.disjoint_left.mpr fun f hf hf' => (Finset.mem_sdiff.mp hf).2 (Finset.mem_sdiff.mp hf').1
  have hnone : ownLinks d (m1.entry (frame new) i) = none := by
    rw [hkeep _ h.tree.root_mem]
    exact h.todo_link
  have hunion : free₀ \ free ∪ free \ free1 = free₀ \ free1 := by
    ext f
    have h0 := @h.subset f
    have h1 := @hsub f
    simp only [Finset.mem_union, Finset.mem_sdiff]
    tauto
  refine h.set hd hnew hnd hlist hsub hwithin
    (hunion ▸ (h.tree.congr hkeep).store_link hnew hnone hlink htree hdis) (hentry _ fun f hf => ?_)
  refine (Within.store m1 hnew (Set.mem_singleton (frame new)) i.isLt w).entry ?_
  rintro rfl
  exact h.new_not_mem (Finset.mem_sdiff.mp hf).1

section Own

variable (hlo : 0 < lo) (hhi : hi ≤ 2 ^ 44) (hclon : Clonable d m₀ (frame old) free₀) {e : Word}
  (he : m₀.entry (frame old) i = e) (hvalid : pteValid e = true) (hown : pteGlobal e = false)

omit h hnew hnd in
include hclon he hvalid hown in
theorem leaf_eq : pteLeaf e = decide (n = 0) := by
  subst he
  have hshape := hclon.shape (p := []) (i := i) rfl (by simp; omega) hvalid hown
  rw [hshape]
  simp only [List.length_nil]
  congr 1
  simp only [eq_iff_iff]
  omega

omit h hnew hnd in
include hclon he hvalid hown in
theorem own_link : ownLinks d (m₀.entry (frame old) i) = some (ptePpn e).toNat := by
  rw [he, ownLinks_eq hd hvalid hown (leaf_eq hd hclon he hvalid hown)]

include hlo hhi hclon he hvalid hown

/-- A page is copied to a free one. -/
theorem copy_page (hn : n = 0) :
    ∃ more m', (m.allocPhysPage.map fun (newPp, m) =>
        if newPp = 0 then (false, m)
        else (true, (m.copyPage newPp (pageptr (ptePpn e))).store new i (setPtePpn e (pagenum newPp)))) =
        some (more, m') ∧
      (more = true → ∃ cs' free', Cloning lo hi d n m₀ free₀ old new is m' cs' free') := by
  rcases h.list.allocPhysPage hlo (by omega) with hnull | ⟨pp, m1, cs', heq, hnz, hpp, hmem, hlist, hwithin⟩
  · exact ⟨false, m, by rw [hnull]; rfl, nofun⟩
  subst hn
  have hleaf := leaf_eq hd hclon he hvalid hown
  have hsrcfree := hclon.kept (Tree.reach_through (own_link hd hclon he hvalid hown) [])
  have hcopy := hwithin.trans ((within_copyPage m1 (pageptr (ptePpn e)) hpp).mono
    (show {frame pp} ⊆ (free : Set Nat) by simpa using hmem))
  have hfl : FreeList lo hi (m1.copyPage pp (pageptr (ptePpn e))) cs' (free.erase (frame pp)) :=
    hlist.within (within_copyPage m1 _ hpp) rfl (Finset.notMem_erase _ _)
  have hlt : frame pp < 2 ^ 44 := (h.list.bounds hmem).2.trans_le hhi
  have hset := sdiff_erase_eq hmem
  have hppn : (ptePpn (setPtePpn e (pagenum pp))).toNat = frame pp := by
    rw [ptePpn_setPtePpn, toNat_pagenum_of_lt hlt]
  have hflags := pteFlags_setPtePpn e (pagenum pp)
  have hv' : pteValid (setPtePpn e (pagenum pp)) = true := by rwa [pteValid, hflags]
  have hg' : pteGlobal (setPtePpn e (pagenum pp)) = false := by rwa [pteGlobal, hflags]
  have hl' : pteLeaf (setPtePpn e (pagenum pp)) = decide (0 = 0) := by rwa [pteLeaf, hflags]
  refine ⟨true, _, by simp only [heq, Option.map_some, if_neg hnz], fun _ => ⟨cs', _, h.link hd hnew hnd hfl
    (Finset.erase_subset _ _) hcopy ?_ (fun m' hm' => ?_) (ownLinks_eq hd hv' hg' hl')⟩⟩
  · rw [hset, hppn]
    obtain rfl : d = 2 := hd
    exact .barren fun i => by
      rw [ownLinks]
      split <;> rfl
  · rw [he]
    refine .own hvalid hown hleaf hv' hg' hl' (fun _ => hflags) ?_
    rw [hppn, Copy, hm' _ (by rw [hset]; exact Finset.mem_singleton_self _),
      entry_copyPage m1 hpp (aligned_pageptr _), frame_pageptr,
      hwithin.entry (fun hf => hsrcfree (h.subset hf)), h.within.entry hsrcfree]

omit hlo hhi in
/-- A subtable is copied. -/
theorem copy_table (hn : n ≠ 0) (hrec : CloneSpec lo hi (d + 1) n) :
    ∃ more m', ((clonePt n (pageptr (ptePpn e)) m).map fun (newChild, m) =>
        if newChild = 0 then (false, m)
        else (true, m.store new i (ptabPte newChild (pteFlags e &&& PTE_G)))) = some (more, m') ∧
      (more = true → ∃ cs' free', Cloning lo hi d n m₀ free₀ old new is m' cs' free') := by
  have hleaf := leaf_eq hd hclon he hvalid hown
  have hsub := hclon.sub (own_link hd hclon he hvalid hown)
  have hflag : pteFlags e &&& PTE_G = 0 := by
    rw [pteGlobal] at hown
    simpa using hown
  obtain ⟨sub, m1, heq, hspec⟩ := hrec h.list (aligned_pageptr (ptePpn e))
    (by rw [frame_pageptr]; exact hsub.congr h.within h.subset)
  by_cases hz : sub = 0
  · exact ⟨false, m1, by simp only [heq, Option.map_some, if_pos hz], nofun⟩
  obtain ⟨cs', free', hlist, hfree, hwithin, hal, hlt, hcopy, htree⟩ := hspec hz
  rw [frame_pageptr] at hcopy
  have hppn : (ptePpn (ptabPte sub 0)).toNat = frame sub := by
    rw [ptabPte, ptePpn_mkPte, toNat_pagenum_of_lt hlt]
  have hg' : pteGlobal (ptabPte sub 0) = false := by
    rw [pteGlobal, ptabPte, pteFlags_mkPte]
    decide
  have hl' : pteLeaf (ptabPte sub 0) = decide (n = 0) := by
    rw [pteLeaf_ptabPte]
    exact (decide_eq_false hn).symm
  refine ⟨true, _, by simp only [heq, Option.map_some, if_neg hz, hflag], fun _ => ⟨cs', free',
    h.link hd hnew hnd hlist hfree hwithin ?_ (fun m' hm' => ?_)
      (ownLinks_eq hd (pteValid_ptabPte sub) hg' hl')⟩⟩
  · rw [hppn]
    exact htree
  · rw [he]
    refine .own hvalid hown hleaf (pteValid_ptabPte sub) hg' hl' (fun hf => ?_) ?_
    · rw [decide_eq_true_eq] at hf
      exact absurd hf hn
    · rw [hppn]
      refine hcopy.congr (d := d + 1) (by omega) (fun p f hf => ?_) fun p f hf => hm' f (htree.inside hf)
      rw [(hsub.reach_congr h.within p)] at hf
      exact (h.within.entry (hsub.kept hf)).symm

end Own

/-- One turn of the loop. -/
theorem step (hlo : 0 < lo) (hhi : hi ≤ 2 ^ 44) (hold : Aligned old)
    (hclon : Clonable d m₀ (frame old) free₀) (hrec : n ≠ 0 → CloneSpec lo hi (d + 1) n) :
    ∃ more m', cloneEntry (clonePt n) old new i m = some (more, m') ∧
      (more = true → ∃ cs' free', Cloning lo hi d n m₀ free₀ old new is m' cs' free') := by
  obtain ⟨e, he⟩ : ∃ e, m₀.entry (frame old) i = e := ⟨_, rfl⟩
  have hload : m.load old i = e := by
    rw [hold.load_entry, h.within.entry (hclon.kept (p := []) rfl), he]
  simp only [cloneEntry, hload]
  cases hvalid : pteValid e with
  | false => exact ⟨true, m, by simp only [if_true], fun _ => ⟨cs, free, h.skip (he ▸ hvalid)⟩⟩
  | true =>
    cases hglobal : pteGlobal e with
    | true =>
      subst he
      exact ⟨true, _, by simp only [Bool.true_eq_false, if_false, if_true],
        fun _ => ⟨cs, free, h.share hd hnew hnd hvalid hglobal⟩⟩
    | false =>
      have hleaf := leaf_eq hd hclon he hvalid hglobal
      by_cases hn : n = 0
      · rw [decide_eq_true hn] at hleaf
        simp only [hleaf, Bool.true_eq_false, Bool.false_eq_true, if_false, if_true]
        exact h.copy_page hd hnew hnd hlo hhi hclon he hvalid hglobal hn
      · rw [decide_eq_false hn] at hleaf
        simp only [hleaf, Bool.true_eq_false, Bool.false_eq_true, if_false]
        exact h.copy_table hd hnew hnd hclon he hvalid hglobal hn (hrec hn)

end Entry

theorem loop (h : Cloning lo hi d n m₀ free₀ old new is m cs free) (hd : d + n = 2)
    (hlo : 0 < lo) (hhi : hi ≤ 2 ^ 44) (hold : Aligned old) (hnew : Aligned new) (hnd : is.Nodup)
    (hclon : Clonable d m₀ (frame old) free₀) (hrec : n ≠ 0 → CloneSpec lo hi (d + 1) n) :
    ∃ done m', cloneLoop (clonePt n) old new is m = some (done, m') ∧
      (done = true → ∃ cs' free', Cloning lo hi d n m₀ free₀ old new [] m' cs' free') := by
  induction is generalizing m cs free with
  | nil => exact ⟨true, m, rfl, fun _ => ⟨cs, free, h⟩⟩
  | cons i is ih =>
    rw [List.nodup_cons] at hnd
    obtain ⟨more, m1, heq, hmore⟩ := h.step hd hnew hnd.1 hlo hhi hold hclon hrec
    cases more with
    | false => exact ⟨false, m1, by rw [cloneLoop, heq]; rfl, nofun⟩
    | true =>
      obtain ⟨cs1, free1, h1⟩ := hmore rfl
      obtain ⟨done, m', heq', hdone⟩ := ih h1 hnd.2
      refine ⟨done, m', ?_, hdone⟩
      rw [cloneLoop, heq]
      exact heq'

end Cloning

/-- One level of `clone_pt`. -/
theorem clonePt_level {lo hi d n : Nat} (hlo : 0 < lo) (hhi : hi ≤ 2 ^ 44) (hd : d + n = 2)
    (hrec : n ≠ 0 → CloneSpec lo hi (d + 1) n) : CloneSpec lo hi d (n + 1) := by
  intro m cs free old hlist hold hclon
  rcases hlist.allocPhysPage hlo (by omega) with
    hnull | ⟨new, m1, cs1, heq, hnz, hnew, hmem, hlist1, hwithin⟩
  · exact ⟨0, m, by rw [clonePt, hnull]; rfl, fun hne => absurd rfl hne⟩
  obtain ⟨hlist', hzero⟩ := hlist1.zeroed hwithin hnew hmem
  have hstart : Cloning lo hi d n m free old new (List.finRange pteCnt) (m1.zeroPage new) cs1
      (free.erase (frame new)) := by
    refine ⟨hlist', Finset.erase_subset _ _, hzero, ?_,
      fun i hi => absurd (List.mem_finRange i) hi, fun i _ => entry_zeroPage m1 hnew i⟩
    rw [sdiff_erase_eq hmem]
    exact .barren fun i => by rw [entry_zeroPage m1 hnew, ownLinks_null]
  obtain ⟨done, m', hloop, hdone⟩ := hstart.loop hd hlo hhi hold hnew (List.nodup_finRange _) hclon hrec
  refine ⟨if done then new else 0, m', ?_, fun hne => ?_⟩
  · simp only [clonePt, heq, Option.bind_some, if_neg hnz, hloop, Option.map_some]
  · cases done with
    | false => exact absurd rfl hne
    | true =>
      obtain ⟨cs', free', h⟩ := hdone rfl
      exact ⟨cs', free', h.list, h.subset, h.within, hnew, (hlist.bounds hmem).2.trans_le hhi,
        fun i => h.done i List.not_mem_nil, h.tree⟩

/-- `clone_pt` copies the tree, or there is no memory left. -/
theorem clonePt_spec {lo hi : Nat} (hlo : 0 < lo) (hhi : hi ≤ 2 ^ 44) {d n : Nat} (hd : d + n = 2) :
    CloneSpec lo hi d (n + 1) := by
  induction n generalizing d with
  | zero => exact clonePt_level hlo hhi hd fun hne => absurd rfl hne
  | succ n ih => exact clonePt_level hlo hhi hd fun _ => ih (by omega)

end MiniOs
