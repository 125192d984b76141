import MiniOs.Memory.Clone
import MiniOs.Memory.Refinement

/-!
# Taking an address space apart

`free_user_pt` gives back the pages and tables below a table that are reached without passing a
global entry, and makes the entries to them null.  A subtable that holds a global entry is unlinked
like the others but stays allocated, and the table itself is left to the caller.  `Released` are
the pages that are given back.
-/

namespace MiniOs

open Memory Radix

/-- A table has a global entry. -/
def HasGlobal (m : Memory) (t : Nat) : Prop :=
  ∃ i, pteValid (m.entry t i) = true ∧ pteGlobal (m.entry t i) = true

/-- A page below entry `i` of the table `t` at depth `d` that is given back: a page of the space, or
a table with no global entry. -/
def ReleasedAt (m : Memory) (d t : Nat) (i : Fin pteCnt) (f : Nat) : Prop :=
  ∃ p, ownReach m d t (i :: p) = some f ∧ (d + p.length = 2 ∨ ¬ HasGlobal m f)

/-- A page below the table `t` that is given back. -/
def Released (m : Memory) (d t f : Nat) : Prop := ∃ i, ReleasedAt m d t i f

/-- The pages below an entry. -/
def Below (m : Memory) (d t : Nat) (i : Fin pteCnt) : Set Nat :=
  {f | ∃ p, ownReach m d t (i :: p) = some f}

/-! ## Subtrees -/

open Classical in
/-- The pages that are reached from a table. -/
noncomputable def subPages (m : Memory) (d g : Nat) (U : Finset Nat) : Finset Nat :=
  U.filter fun f => ∃ p, ownReach m d g p = some f

theorem mem_subPages {m : Memory} {d g f : Nat} {U : Finset Nat} :
    f ∈ subPages m d g U ↔ f ∈ U ∧ ∃ p, ownReach m d g p = some f := by
  classical
  rw [subPages, Finset.mem_filter]

/-- A tree that `free_user_pt` can take apart: `U` are its pages and tables, in the pool and not
free. -/
structure Discardable (lo hi d : Nat) (m : Memory) (t : Nat) (U free : Finset Nat) : Prop where
  tree : Tree d m t U
  clonable : Clonable d m t free
  pool : ∀ f ∈ U, lo ≤ f ∧ f < hi

theorem Tree.sub {d t g : Nat} {m : Memory} {U : Finset Nat} {i : Fin pteCnt} (h : Tree d m t U)
    (hlink : ownLinks d (m.entry t i) = some g) : Tree (d + 1) m g (subPages m (d + 1) g U) := by
  have hreach := Tree.reach_through hlink
  refine ⟨⟨fun _ _ _ => trivial, fun {_ _ p q f} _ _ hp hq => ?_, fun _ _ => trivial⟩, fun f => ?_⟩
  · have heq := h.unshared ((hreach p).trans hp) ((hreach q).trans hq)
    exact ⟨rfl, (List.cons.inj heq).2⟩
  · rw [mem_subPages]
    refine ⟨fun hf => hf.2, fun hf => ⟨?_, hf⟩⟩
    obtain ⟨p, hp⟩ := hf
    rw [← hreach] at hp
    exact h.inside hp

/-- What `free_user_pt` does with a tree of `levels` levels. -/
def FreesSpec (lo hi d levels : Nat) : Prop :=
  ∀ {m : Memory} {cs : List Ptr} {U free : Finset Nat} {pt : Ptr}, FreeList lo hi m cs free →
    Aligned pt → Discardable lo hi d m (frame pt) U free →
    ∃ b m' cs' free', freeUserPt levels pt m = some (b, m') ∧ (b = true ↔ HasGlobal m (frame pt)) ∧
      FreeList lo hi m' cs' free' ∧ Within U m m' ∧
      ∀ f, f ∈ free' ↔ f ∈ free ∨ Released m d (frame pt) f

/-! ## The loop -/

/-- The loop of `free_user_pt` has the entries `is` before it; the memory was `m₀`, with the pages
`free₀` free. -/
structure Freeing (lo hi d : Nat) (m₀ : Memory) (U free₀ : Finset Nat) (pt : Ptr)
    (is : List (Fin pteCnt)) (hasGlobal : Bool) (m : Memory) (cs : List Ptr) (free : Finset Nat) :
    Prop where
  list : FreeList lo hi m cs free
  within : Within U m₀ m
  todo : ∀ i ∈ is, m.entry (frame pt) i = m₀.entry (frame pt) i
  below : ∀ i ∈ is, ∀ {p f}, ownReach m₀ d (frame pt) (i :: p) = some f → m.entry f = m₀.entry f
  global : hasGlobal = true ↔ ∃ i, i ∉ is ∧ pteValid (m₀.entry (frame pt) i) = true ∧
    pteGlobal (m₀.entry (frame pt) i) = true
  mem_iff : ∀ f, f ∈ free ↔ f ∈ free₀ ∨ ∃ i, i ∉ is ∧ ReleasedAt m₀ d (frame pt) i f

namespace Freeing

variable {lo hi d n : Nat} {m₀ m m1 : Memory} {U free₀ free free1 : Finset Nat} {pt : Ptr}
  {i : Fin pteCnt} {is : List (Fin pteCnt)} {b : Bool} {cs cs1 : List Ptr}

section Done

variable (h : Freeing lo hi d m₀ U free₀ pt is b m cs free)
  (hd : Discardable lo hi d m₀ (frame pt) U free₀)

include h hd

/-- Pages below entries that come later are not free. -/
theorem fresh {p : List (Fin pteCnt)} {f : Nat} (hi : i ∈ is)
    (hf : ownReach m₀ d (frame pt) (i :: p) = some f) : f ∉ free := by
  rw [h.mem_iff]
  rintro (hfree | ⟨j, hj, q, hq, -⟩)
  · exact hd.clonable.kept hf hfree
  · obtain ⟨rfl, -⟩ := List.cons.inj (hd.tree.unshared hf hq)
    exact hj hi

/-- The table itself is not given back. -/
theorem root_not_mem : frame pt ∉ free := by
  rw [h.mem_iff]
  rintro (hfree | ⟨j, -, q, hq, -⟩)
  · exact hd.clonable.kept (p := []) rfl hfree
  · exact hd.tree.root_unshared hq rfl

end Done

/-- The entries that are done, with one more. -/
theorem exists_done {P : Fin pteCnt → Prop} (hnd : i ∉ is) :
    (∃ j, j ∉ is ∧ P j) ↔ (∃ j, j ∉ i :: is ∧ P j) ∨ P i := by
  constructor
  · rintro ⟨j, hj, hP⟩
    by_cases hji : j = i
    · exact .inr (hji ▸ hP)
    · exact .inl ⟨j, fun hmem => (List.mem_cons.mp hmem).elim hji hj, hP⟩
  · rintro (⟨j, hj, hP⟩ | hP)
    · exact ⟨j, fun hmem => hj (.tail _ hmem), hP⟩
    · exact ⟨i, hnd, hP⟩

section Entry

variable (h : Freeing lo hi d m₀ U free₀ pt (i :: is) b m cs free) (hnd : i ∉ is)
  (hd : Discardable lo hi d m₀ (frame pt) U free₀) (hpt : Aligned pt)

include h hnd

/-- An entry that is not valid, or global, is passed over. -/
theorem skip (hlink : ownLinks d (m₀.entry (frame pt) i) = none) {isGlobal : Bool}
    (hglobal : isGlobal = true ↔ pteValid (m₀.entry (frame pt) i) = true ∧
      pteGlobal (m₀.entry (frame pt) i) = true) :
    Freeing lo hi d m₀ U free₀ pt is (b || isGlobal) m cs free := by
  refine ⟨h.list, h.within, fun j hj => h.todo j (.tail _ hj), fun j hj => h.below j (.tail _ hj), ?_,
    fun f => ?_⟩
  · rw [exists_done hnd, Bool.or_eq_true, h.global, hglobal]
  · have hnone : ¬ ReleasedAt m₀ d (frame pt) i f := by
      rintro ⟨p, hp, -⟩
      rw [Tree.reach_none hlink] at hp
      cases hp
    rw [h.mem_iff, exists_done hnd]
    simp only [hnone, or_false]

include hd hpt

/-- What is below an entry was given back; the entry is made null. -/
theorem unlink (hown : pteGlobal (m₀.entry (frame pt) i) = false)
    (hlist : FreeList lo hi m1 cs1 free1) (hwithin : Within (Below m₀ d (frame pt) i) m m1)
    (hmem : ∀ f, f ∈ free1 ↔ f ∈ free ∨ ReleasedAt m₀ d (frame pt) i f) :
    Freeing lo hi d m₀ U free₀ pt is b (m1.store pt i nullPte) cs1 free1 := by
  have hself : frame pt ∉ Below m₀ d (frame pt) i := fun ⟨p, hp⟩ => hd.tree.root_unshared hp rfl
  have hstore : Within {frame pt} m1 (m1.store pt i nullPte) :=
    .store m1 hpt (Set.mem_singleton _) i.isLt _
  have hnot : frame pt ∉ free1 := by
    rw [hmem]
    rintro (hf | ⟨p, hp, -⟩)
    · exact h.root_not_mem hd hf
    · exact hself ⟨p, hp⟩
  refine ⟨?_, ?_, fun j hj => ?_, fun j hj p f hf => ?_, ?_, fun f => ?_⟩
  · refine hlist.congr rfl fun k hk => hstore.word k fun hin => ?_
    rw [Set.mem_singleton_iff.mp hin] at hk
    exact hnot hk
  · refine (h.within.trans (hwithin.mono ?_)).trans (hstore.mono ?_)
    · rintro f ⟨p, hp⟩
      exact hd.tree.inside hp
    · exact Set.singleton_subset_iff.mpr hd.tree.root_mem
  · have hne : j ≠ i := fun hji => hnd (hji ▸ hj)
    rw [entry_store_ne hpt _ fun _ => hne, hwithin.entry hself]
    exact h.todo j (.tail _ hj)
  · have hother : f ∉ Below m₀ d (frame pt) i := by
      rintro ⟨q, hq⟩
      obtain ⟨rfl, -⟩ := List.cons.inj (hd.tree.unshared hf hq)
      exact hnd hj
    rw [hstore.entry (hd.tree.root_unshared hf), hwithin.entry hother]
    exact h.below j (.tail _ hj) hf
  · rw [exists_done hnd, h.global, hown]
    simp
  · rw [hmem, h.mem_iff, exists_done hnd, or_assoc]

section Valid

variable (hdepth : d + n = 2) (hlo : 0 < lo) {e : Word} (he : m₀.entry (frame pt) i = e)
  (hvalid : pteValid e = true) (hown : pteGlobal e = false)

include hdepth hlo he hvalid hown

/-- A page of the space is given back. -/
theorem release_page (hn : n = 0) : ∃ cs' free', Freeing lo hi d m₀ U free₀ pt is b
    ((m.freePhysPage (pageptr (ptePpn e))).store pt i nullPte) cs' free' := by
  subst hn
  have hlink := Cloning.own_link hdepth hd.clonable he hvalid hown
  have hreach : ∀ {p f}, ownReach m₀ d (frame pt) (i :: p) = some f ↔
      p = [] ∧ f = (ptePpn e).toNat := by
    intro p f
    rw [Tree.reach_through hlink]
    obtain rfl : d = 2 := hdepth
    cases p with
    | nil => simp [ownReach, eq_comm]
    | cons j p =>
      have hnone : ∀ e, ownLinks (2 + 1) e = none := fun e => by
        rw [ownLinks]
        split <;> rfl
      rw [Tree.reach_none (hnone _)]
      simp
  have hpage := hreach.mpr ⟨rfl, rfl⟩
  have hpool := hd.pool _ (hd.tree.inside hpage)
  have hnot := h.fresh hd (.head _) hpage
  rw [← frame_pageptr] at hpool hnot
  obtain ⟨hlist, hwithin⟩ := h.list.freePhysPage hlo (aligned_pageptr _) hpool hnot
  rw [frame_pageptr] at hlist hwithin
  refine ⟨_, _, h.unlink hnd hd hpt (he ▸ hown) hlist (hwithin.mono ?_) fun f => ?_⟩
  · exact Set.singleton_subset_iff.mpr ⟨[], hpage⟩
  · rw [Finset.mem_insert, or_comm]
    refine or_congr_right ⟨?_, ?_⟩
    · rintro rfl
      exact ⟨[], hpage, .inl hdepth⟩
    · rintro ⟨p, hp, -⟩
      exact (hreach.mp hp).2

/-- A subtable is taken apart, and given back if it has no global entry. -/
theorem release_table (hn : n ≠ 0) (hrec : FreesSpec lo hi (d + 1) n) :
    ∃ m' cs' free', ((freeUserPt n (pageptr (ptePpn e)) m).map fun (childHasGlobal, m) =>
          let m := if childHasGlobal then m else m.freePhysPage (pageptr (ptePpn e))
          (false, m.store pt i nullPte)) = some (false, m') ∧
      Freeing lo hi d m₀ U free₀ pt is b m' cs' free' := by
  have hlink := Cloning.own_link hdepth hd.clonable he hvalid hown
  have hown : pteGlobal (m₀.entry (frame pt) i) = false := he ▸ hown
  generalize ptePpn e = child at hlink ⊢
  have hreach := fun p => Tree.reach_through (p := p) hlink
  have hbelow : ∀ {p f}, ownReach m₀ (d + 1) child.toNat p = some f → m.entry f = m₀.entry f :=
    fun {p f} hf => h.below i (.head _) ((hreach p).trans hf)
  have hsame : ∀ p, ownReach m (d + 1) child.toNat p = ownReach m₀ (d + 1) child.toNat p := by
    intro p
    refine Agree.reach_eq ?_
    rintro q j r f rfl hf
    rw [hbelow hf]
  have hglobal : ∀ {p f}, ownReach m₀ (d + 1) child.toNat p = some f →
      (HasGlobal m f ↔ HasGlobal m₀ f) := fun hf => by rw [HasGlobal, HasGlobal, hbelow hf]
  have hsub : Discardable lo hi (d + 1) m (frame (pageptr child))
      (subPages m₀ (d + 1) child.toNat U) free := by
    rw [frame_pageptr]
    refine ⟨(hd.tree.sub hlink).congr fun f hf => ?_, ⟨fun {p f} hf => ?_, fun {p f j} hf hlen => ?_⟩,
      fun f hf => hd.pool f (mem_subPages.mp hf).1⟩
    · obtain ⟨p, hp⟩ := (mem_subPages.mp hf).2
      exact hbelow hp
    · rw [hsame, ← hreach] at hf
      exact h.fresh hd (.head _) hf
    · rw [hsame] at hf
      rw [hbelow hf]
      exact (hd.clonable.sub hlink).shape hf hlen
  obtain ⟨g, m1, cs1, free1, hcall, hg, hlist, hwithin, hmem⟩ :=
    hrec h.list (aligned_pageptr child) hsub
  rw [frame_pageptr] at hg hmem
  have hreleased : ∀ {f}, Released m (d + 1) child.toNat f ↔
      ∃ j p, ownReach m₀ d (frame pt) (i :: j :: p) = some f ∧
        (d + (j :: p).length = 2 ∨ ¬ HasGlobal m₀ f) := by
    intro f
    refine exists_congr fun j => exists_congr fun p => ?_
    rw [hreach, hsame, List.length_cons, ← Nat.add_assoc, Nat.add_right_comm]
    refine and_congr_right fun hf => ?_
    rw [hglobal hf]
  have hthrough : Within (Below m₀ d (frame pt) i) m m1 := by
    refine hwithin.mono fun f hf => ?_
    obtain ⟨p, hp⟩ := (mem_subPages.mp hf).2
    exact ⟨p, (hreach p).trans hp⟩
  have hchild : ownReach m₀ d (frame pt) [i] = some child.toNat := hreach []
  have hkept : g = true ↔ HasGlobal m₀ child.toNat := hg.trans (hglobal (p := []) rfl)
  have hbelow' : ∀ f, ReleasedAt m₀ d (frame pt) i f ↔
      f = child.toNat ∧ g ≠ true ∨ Released m (d + 1) child.toNat f := by
    intro f
    rw [hreleased]
    constructor
    · rintro ⟨p, hp, hgone⟩
      cases p with
      | nil =>
        rw [hchild, Option.some.injEq] at hp
        subst hp
        rw [List.length_nil] at hgone
        exact .inl ⟨rfl, fun htrue => hgone.elim (fun _ => by omega) fun hno => hno (hkept.mp htrue)⟩
      | cons j p => exact .inr ⟨j, p, hp, hgone⟩
    · rintro (⟨rfl, hno⟩ | ⟨j, p, hp⟩)
      · exact ⟨[], hchild, .inr fun hex => hno (hkept.mpr hex)⟩
      · exact ⟨j :: p, hp⟩
  rw [hcall]
  cases g with
  | true =>
    refine ⟨_, cs1, free1, rfl, h.unlink hnd hd hpt hown hlist hthrough fun f => ?_⟩
    rw [hmem, hbelow']
    simp
  | false =>
    have hpool := hd.pool _ (hd.tree.inside hchild)
    have hnot : child.toNat ∉ free1 := by
      rw [hmem, hreleased]
      rintro (hf | ⟨j, p, hp, -⟩)
      · exact h.fresh hd (.head _) hchild hf
      · cases hd.tree.unshared hchild hp
    rw [← frame_pageptr] at hpool hnot
    obtain ⟨hlist', hwithin'⟩ := hlist.freePhysPage hlo (aligned_pageptr _) hpool hnot
    rw [frame_pageptr] at hlist' hwithin'
    refine ⟨_, _, _, rfl, h.unlink hnd hd hpt hown hlist' (hthrough.trans (hwithin'.mono ?_))
      fun f => ?_⟩
    · exact Set.singleton_subset_iff.mpr ⟨[], hchild⟩
    · rw [Finset.mem_insert, hmem, hbelow', or_left_comm]
      simp

end Valid

/-- One turn of the loop. -/
theorem step (hdepth : d + n = 2) (hlo : 0 < lo) (hrec : n ≠ 0 → FreesSpec lo hi (d + 1) n) :
    ∃ isGlobal m' cs' free', freeUserEntry (freeUserPt n) pt i m = some (isGlobal, m') ∧
      Freeing lo hi d m₀ U free₀ pt is (b || isGlobal) m' cs' free' := by
  obtain ⟨e, he⟩ : ∃ e, m₀.entry (frame pt) i = e := ⟨_, rfl⟩
  have hload : m.load pt i = e := by rw [hpt.load_entry, h.todo i (.head _), he]
  simp only [freeUserEntry, hload]
  cases hvalid : pteValid e with
  | false =>
    have hlink : ownLinks d (m₀.entry (frame pt) i) = none := by
      rw [he, ownLinks]
      split
      · rfl
      · exact links_invalid true d hvalid
    exact ⟨false, m, cs, free, by simp, h.skip hnd hlink (by simp [he, hvalid])⟩
  | true =>
    cases hglobal : pteGlobal e with
    | true =>
      exact ⟨true, m, cs, free, by simp, h.skip hnd (ownLinks_global (he ▸ hglobal))
        (by simp [he, hvalid, hglobal])⟩
    | false =>
      have hleaf := Cloning.leaf_eq hdepth hd.clonable he hvalid hglobal
      by_cases hn : n = 0
      · obtain ⟨cs', free', hfreed⟩ := h.release_page hnd hd hpt hdepth hlo he hvalid hglobal hn
        rw [decide_eq_true hn] at hleaf
        refine ⟨false, _, cs', free', ?_, by rw [Bool.or_false]; exact hfreed⟩
        simp only [hleaf, Bool.true_eq_false, Bool.false_eq_true, if_false, if_true]
      · obtain ⟨m', cs', free', hcall, hfreed⟩ :=
          h.release_table hnd hd hpt hdepth hlo he hvalid hglobal hn (hrec hn)
        rw [decide_eq_false hn] at hleaf
        refine ⟨false, m', cs', free', ?_, by rw [Bool.or_false]; exact hfreed⟩
        simp only [hleaf, Bool.true_eq_false, Bool.false_eq_true, if_false]
        exact hcall

end Entry

theorem loop (h : Freeing lo hi d m₀ U free₀ pt is b m cs free)
    (hd : Discardable lo hi d m₀ (frame pt) U free₀) (hdepth : d + n = 2) (hlo : 0 < lo)
    (hpt : Aligned pt) (hnd : is.Nodup) (hrec : n ≠ 0 → FreesSpec lo hi (d + 1) n) :
    ∃ b' m' cs' free', freeUserLoop (freeUserPt n) pt is b m = some (b', m') ∧
      Freeing lo hi d m₀ U free₀ pt [] b' m' cs' free' := by
  induction is generalizing m cs free b with
  | nil => exact ⟨b, m, cs, free, rfl, h⟩
  | cons i is ih =>
    rw [List.nodup_cons] at hnd
    obtain ⟨isGlobal, m1, cs1, free1, hentry, h1⟩ := h.step hnd.1 hd hpt hdepth hlo hrec
    obtain ⟨b', m', cs', free', hloop, hdone⟩ := ih h1 hnd.2
    refine ⟨b', m', cs', free', ?_, hdone⟩
    rw [freeUserLoop, hentry]
    exact hloop

end Freeing

/-- One level of `free_user_pt`. -/
theorem freeUserPt_level {lo hi d n : Nat} (hlo : 0 < lo) (hdepth : d + n = 2)
    (hrec : n ≠ 0 → FreesSpec lo hi (d + 1) n) : FreesSpec lo hi d (n + 1) := by
  intro m cs U free pt hlist hpt hd
  have hstart : Freeing lo hi d m U free pt (List.finRange pteCnt) false m cs free := by
    have hall : ∀ i : Fin pteCnt, i ∈ List.finRange pteCnt := List.mem_finRange
    refine ⟨hlist, .refl _ m, fun _ _ => rfl, fun _ _ _ _ _ => rfl, ?_, fun f => ?_⟩
    · simp [hall]
    · simp [hall]
  obtain ⟨b, m', cs', free', hloop, hdone⟩ :=
    hstart.loop hd hdepth hlo hpt (List.nodup_finRange _) hrec
  refine ⟨b, m', cs', free', hloop, ?_, hdone.list, hdone.within, fun f => ?_⟩
  · rw [hdone.global, HasGlobal]
    simp
  · rw [hdone.mem_iff, Released]
    simp

/-- `free_user_pt` gives back the pages of the space below a table. -/
theorem freeUserPt_spec {lo hi : Nat} (hlo : 0 < lo) {d n : Nat} (hdepth : d + n = 2) :
    FreesSpec lo hi d (n + 1) := by
  induction n generalizing d with
  | zero => exact freeUserPt_level hlo hdepth fun hne => absurd rfl hne
  | succ n ih => exact freeUserPt_level hlo hdepth fun _ => ih (by omega)

/-! ## A clone -/

/-- The space of a tag is that of the root table. -/
theorem activeSpacePtab_switchMspace {m : Memory} {root : Ptr} (hal : Aligned root)
    (hlt : frame root < 2 ^ 44) : (m.switchMspace (ptabToMtag root)).activeSpacePtab = root := by
  refine (aligned_activeSpacePtab _).eq_of_frame hal ?_
  rw [frame_activeSpacePtab]
  show (ptabToMtag root).toNat % 2 ^ 44 = frame root
  rw [toNat_ptabToMtag, Nat.mod_eq_of_lt hlt]

/-- A tree does not depend on the active space. -/
theorem Discardable.switchMspace {lo hi d t : Nat} {m : Memory} {U free : Finset Nat}
    (h : Discardable lo hi d m t U free) (mtag : Word) :
    Discardable lo hi d (m.switchMspace mtag) t U free :=
  ⟨⟨h.tree.forest, h.tree.mem_iff⟩, ⟨h.clonable.kept, h.clonable.shape⟩, h.pool⟩

/-- The clone with the root table `root`, in `m'`, of the active space of `m`. -/
structure Cloned (lo hi : Nat) (m : Memory) (free : Finset Nat) (root : Ptr) (m' : Memory)
    (cs' : List Ptr) (free' : Finset Nat) : Prop where
  list : FreeList lo hi m' cs' free'
  subset : free' ⊆ free
  within : Within free m m'
  aligned : Aligned root
  lt : frame root < 2 ^ 44
  copy : Copy m m' 3 (activeRoot m) (frame root)
  tree : Discardable lo hi 0 m' (frame root) (free \ free') free'

section Clone

variable {lo hi : Nat} {m m' : Memory} {cs cs' : List Ptr} {free free' : Finset Nat} {root : Ptr}

theorem cloneActiveMspace_spec (hlo : 0 < lo) (hhi : hi ≤ 2 ^ 44) {mtag : Word} (hlist : FreeList lo hi m cs free)
    (hclon : Clonable 0 m (activeRoot m) free) (hcall : m.cloneActiveMspace = some (mtag, m'))
    (hne : mtag ≠ 0) :
    ∃ root cs' free', mtag = ptabToMtag root ∧ Cloned lo hi m free root m' cs' free' := by
  obtain ⟨root, m1, hpt, hspec⟩ :=
    clonePt_spec hlo hhi (Nat.zero_add 2) hlist (aligned_activeSpacePtab m) hclon
  rw [cloneActiveMspace, hpt, Option.map_some, Option.some.injEq, Prod.mk.injEq] at hcall
  obtain ⟨htag, rfl⟩ := hcall
  have hroot : root ≠ 0 := by
    rintro rfl
    exact hne htag.symm
  obtain ⟨cs', free', hlist', hsub, hwithin, hal, hlt, hcopy, htree⟩ := hspec hroot
  rw [if_neg hroot] at htag
  refine ⟨root, cs', free', htag.symm, hlist', hsub, hwithin, hal, hlt, hcopy, htree,
    ⟨fun hf => ?_, fun hf hlen => Copy.shape (n := 3) hcopy rfl hf hlen⟩, fun f hf => ?_⟩
  · exact (Finset.mem_sdiff.mp (htree.inside hf)).2
  · exact hlist.bounds (Finset.mem_sdiff.mp hf).1

/-- `reset_active_mspace` in the clone, and the switch back. -/
theorem Cloned.reset (h : Cloned lo hi m free root m' cs' free') (hlo : 0 < lo) :
    ∃ m'' cs'' free'', (m'.switchMspace (ptabToMtag root)).resetActiveMspace = some m'' ∧
      FreeList lo hi (m''.switchMspace m.satp) cs'' free'' ∧
      Within free m (m''.switchMspace m.satp) ∧
      ∀ f, f ∈ free'' ↔ f ∈ free' ∨ Released m' 0 (frame root) f := by
  have hlist : FreeList lo hi (m'.switchMspace (ptabToMtag root)) cs' free' :=
    h.list.congr rfl fun _ _ => rfl
  obtain ⟨b, m'', cs'', free'', hcall, -, hlist', hwithin, hmem⟩ :=
    freeUserPt_spec hlo (Nat.zero_add 2) hlist h.aligned (h.tree.switchMspace _)
  refine ⟨m'', cs'', free'', ?_, hlist'.congr rfl fun _ _ => rfl, ⟨fun j hj => ?_, rfl⟩, hmem⟩
  · rw [resetActiveMspace, activeSpacePtab_switchMspace h.aligned h.lt, hcall]
    rfl
  · rw [← h.within.word j hj]
    exact hwithin.word j fun hin => hj (Finset.mem_sdiff.mp hin).1

/-- The root table is not given back. -/
theorem Cloned.root_lost (h : Cloned lo hi m free root m' cs' free') :
    frame root ∈ free ∧ ¬ (frame root ∈ free' ∨ Released m' 0 (frame root) (frame root)) := by
  obtain ⟨hmem, hnot⟩ := Finset.mem_sdiff.mp h.tree.tree.root_mem
  refine ⟨hmem, ?_⟩
  rintro (hf | ⟨i, p, hp, -⟩)
  · exact hnot hf
  · exact h.tree.tree.root_unshared hp rfl

end Clone

end MiniOs
