import MiniOs.Memory.Clone
import MiniOs.Memory.Refinement

/-!
# What a clone takes

`clone_pt` takes a page for each table and each page that it copies, and stops when there is none.
What it has by then is not given back: a clone that fails leaves no free page.  `clonePages` is the
number of pages it needs, so a failure is harmless only when there was no free page to begin with.
-/

namespace MiniOs

open Memory Radix

/-- The pages for the copy of an entry; `sub` are those for the copy of a table. -/
def entryPages (sub : Nat → Nat) (e : Word) : Nat :=
  if pteValid e = false ∨ pteGlobal e = true then 0
  else if pteLeaf e = true then 1
  else sub (ptePpn e).toNat

/-- The pages for the copy of the table `t` with `levels` levels. -/
def clonePages (m : Memory) : Nat → Nat → Nat
  | 0, _ => 0
  | levels + 1, t =>
      1 + ((List.finRange pteCnt).map fun i => entryPages (clonePages m levels) (m.entry t i)).sum

/-! ## Pages taken from the free list -/

/-- Since the memory was `m`, with the pages `free` free, `cost` pages were taken.  When `ok` is
false there were not enough. -/
structure PagesTaken (lo hi : Nat) (m : Memory) (free : Finset Nat) (cost : Nat) (ok : Bool)
    (m' : Memory) (cs' : List Ptr) (free' : Finset Nat) : Prop where
  list : FreeList lo hi m' cs' free'
  subset : free' ⊆ free
  within : Within free m m'
  paid : ok = true → free'.card + cost = free.card
  short : ok = false → free' = ∅ ∧ free.card < cost

namespace PagesTaken

variable {lo hi a b : Nat} {ok : Bool} {m m1 m2 : Memory} {free free1 free2 : Finset Nat}
  {cs1 cs2 : List Ptr}

theorem trans (h1 : PagesTaken lo hi m free a true m1 cs1 free1)
    (h2 : PagesTaken lo hi m1 free1 b ok m2 cs2 free2) :
    PagesTaken lo hi m free (a + b) ok m2 cs2 free2 := by
  have hpaid := h1.paid rfl
  refine ⟨h2.list, h2.subset.trans h1.subset, h1.within.trans (h2.within.mono h1.subset),
    fun hok => ?_, fun hok => ?_⟩
  · have hrest := h2.paid hok
    omega
  · obtain ⟨hempty, hshort⟩ := h2.short hok
    exact ⟨hempty, by omega⟩

/-- There were not enough pages, and more would have been needed. -/
theorem stop (h : PagesTaken lo hi m free a false m1 cs1 free1) (b : Nat) :
    PagesTaken lo hi m free (a + b) false m1 cs1 free1 := by
  obtain ⟨hempty, hshort⟩ := h.short rfl
  exact ⟨h.list, h.subset, h.within, nofun, fun _ => ⟨hempty, by omega⟩⟩

/-- Pages that were taken are written to. -/
theorem write {fs : Set Nat} (h : PagesTaken lo hi m free a true m1 cs1 free1)
    (hwithin : Within fs m1 m2) (hlist : m2.freeChunkList = m1.freeChunkList)
    (htaken : ∀ f ∈ fs, f ∈ free ∧ f ∉ free1) :
    PagesTaken lo hi m free a true m2 cs1 free1 := by
  refine ⟨h.list.congr hlist fun j hj => hwithin.word j fun hin => (htaken _ hin).2 hj, h.subset,
    h.within.trans (hwithin.mono fun f hf => (htaken f hf).1), h.paid, nofun⟩

end PagesTaken

/-- `alloc_phys_page` takes a page. -/
theorem Memory.FreeList.takes_one {lo hi : Nat} {m : Memory} {cs : List Ptr} {free : Finset Nat}
    (h : FreeList lo hi m cs free) (hlo : 0 < lo) (hhi : hi < 2 ^ 52) :
    ∃ pp m' cs' free', m.allocPhysPage = some (pp, m') ∧
      PagesTaken lo hi m free 1 (decide (pp ≠ 0)) m' cs' free' ∧
      (pp ≠ 0 → Aligned pp ∧ frame pp ∈ free ∧ frame pp ∉ free') := by
  rcases h.allocPhysPage hlo hhi with hnull | ⟨pp, m', cs', heq, hnz, hal, hmem, hlist, hwithin⟩
  · have hempty := h.eq_empty_of_allocPhysPage hlo hhi hnull
    refine ⟨0, m, cs, free, hnull, ⟨h, Finset.Subset.refl _, .refl _ m, ?_, ?_⟩, ?_⟩
    · simp
    · intro _
      rw [hempty]
      exact ⟨rfl, Nat.zero_lt_one⟩
    · exact fun hne => absurd rfl hne
  · have hcard := Finset.card_erase_add_one hmem
    refine ⟨pp, m', cs', _, heq, ⟨hlist, Finset.erase_subset _ _, hwithin, fun _ => hcard, ?_⟩,
      fun _ => ⟨hal, hmem, Finset.notMem_erase _ _⟩⟩
    rw [decide_eq_true hnz]
    exact nofun

/-! ## The tables that are walked -/

/-- From the table `t` at depth `d` the tables end at level 0, and none of them is free. -/
structure Tables (d : Nat) (m : Memory) (t : Nat) (free : Finset Nat) : Prop where
  kept : ∀ {p f}, reach (links false) m.entry d t p = some f → f ∉ free
  leaf : ∀ {p f i}, reach (links false) m.entry d t p = some f → d + p.length = 2 →
    pteValid (m.entry f i) = true → pteLeaf (m.entry f i) = true

namespace Tables

variable {d n t g : Nat} {m m' : Memory} {free free' : Finset Nat} {i : Fin pteCnt}

section

variable (h : Tables d m t free)

include h

theorem root_not_mem : t ∉ free := h.kept (p := []) rfl

theorem reach_congr (hwithin : Within free m m') (p : List (Fin pteCnt)) :
    reach (links false) m'.entry d t p = reach (links false) m.entry d t p := by
  refine Agree.reach_eq ?_
  rintro q i r f rfl hf
  rw [hwithin.entry (h.kept hf)]

/-- The tables do not depend on free pages. -/
theorem congr (hwithin : Within free m m') (hsub : free' ⊆ free) :
    Tables d m' t free' := by
  refine ⟨fun {p f} hf hmem => ?_, fun {p f i} hf hlen => ?_⟩
  · rw [h.reach_congr hwithin] at hf
    exact h.kept hf (hsub hmem)
  · rw [h.reach_congr hwithin] at hf
    rw [hwithin.entry (h.kept hf)]
    exact h.leaf hf hlen

theorem sub (hlink : links false d (m.entry t i) = some g) :
    Tables (d + 1) m g free := by
  have hreach : ∀ p, reach (links false) m.entry d t (i :: p) =
      reach (links false) m.entry (d + 1) g p := fun p => by
    rw [reach_cons, hlink]
    rfl
  refine ⟨fun {p f} hf => h.kept (p := i :: p) (by rw [hreach]; exact hf), fun {p f j} hf hlen => ?_⟩
  refine h.leaf (p := i :: p) (by rw [hreach]; exact hf) ?_
  rw [List.length_cons]
  omega

/-- An entry that is neither a leaf nor global links to a table above level 0. -/
theorem link_of_table (hd : d + n = 2)
    (hvalid : pteValid (m.entry t i) = true) (hleaf : pteLeaf (m.entry t i) = false) :
    n ≠ 0 ∧ links false d (m.entry t i) = some (ptePpn (m.entry t i)).toNat := by
  have hn : n ≠ 0 := by
    rintro rfl
    have := h.leaf (p := []) (i := i) rfl hd hvalid
    rw [hleaf] at this
    cases this
  refine ⟨hn, ?_⟩
  rw [links_of_lt (by omega), tableLink, if_pos ⟨hvalid, hleaf⟩]

/-- The pages for a copy do not depend on free pages. -/
theorem clonePages_congr (hd : d + n = 3) (hwithin : Within free m m') :
    clonePages m' n t = clonePages m n t := by
  induction n generalizing d t with
  | zero => rfl
  | succ n ih =>
    have hterm : ∀ i, entryPages (clonePages m' n) (m.entry t i) =
        entryPages (clonePages m n) (m.entry t i) := by
      intro i
      rw [entryPages, entryPages]
      split_ifs with hskip hleaf
      · rfl
      · rfl
      · rw [not_or, Bool.not_eq_false, Bool.not_eq_true] at hskip
        rw [Bool.not_eq_true] at hleaf
        obtain ⟨-, hlink⟩ := h.link_of_table (n := n) (by omega) hskip.1 hleaf
        exact ih (h.sub hlink) (by omega)
    simp only [clonePages, hwithin.entry h.root_not_mem, hterm]

end

end Tables

/-- The tables of the active space. -/
theorem TableTree.activeTables {lo hi : Nat} {hlo : 0 < lo} {hhi : hi ≤ 2 ^ 44} {m : Memory}
    {cs : List Ptr} {free : Finset Nat} (h : TableTree lo hi hlo hhi m cs free) :
    Tables 0 m (activeRoot m) free := by
  refine ⟨fun hf => View.Spaces.kept h (k := ()) trivial hf, fun {p f i} hf hlen hvalid => ?_⟩
  rw [Nat.zero_add] at hlen
  have hok := (View.Spaces.forest h).ok (k := ()) (i := i) trivial hf
  exact hok (by rw [Nat.zero_add]; exact hlen) hvalid

/-! ## The loop -/

/-- What `clone_pt` takes for tables of `levels` levels. -/
def TakesSpec (lo hi d levels : Nat) : Prop :=
  ∀ {m : Memory} {cs : List Ptr} {free : Finset Nat} {old : Ptr}, FreeList lo hi m cs free →
    Aligned old → Tables d m (frame old) free →
    ∃ new m' cs' free', clonePt levels old m = some (new, m') ∧
      PagesTaken lo hi m free (clonePages m levels (frame old)) (decide (new ≠ 0)) m' cs' free'

namespace PagesTaken

variable {lo hi d n c : Nat} {m0 m : Memory} {free0 free : Finset Nat} {cs : List Ptr}
  {old new : Ptr} {i : Fin pteCnt}

section Entry

variable (h : PagesTaken lo hi m0 free0 c true m cs free) (hd : d + n = 2) (hlo : 0 < lo)
  (hhi : hi < 2 ^ 52) (hold : Aligned old) (htables : Tables d m0 (frame old) free0)
  (hnew : Aligned new) (hmem : frame new ∈ free0) (hnot : frame new ∉ free)

include h hnew hmem hnot in
/-- An entry of the new table is written. -/
theorem store (w : Word) : PagesTaken lo hi m0 free0 c true (m.store new i w) cs free := by
  refine h.write (.store m hnew (Set.mem_singleton _) i.isLt w) rfl fun f hf => ?_
  rw [Set.mem_singleton_iff.mp hf]
  exact ⟨hmem, hnot⟩

include h hd hlo hhi hold htables hnew hmem hnot

/-- One turn of the loop. -/
theorem cloneEntry (hrec : n ≠ 0 → TakesSpec lo hi (d + 1) n) :
    ∃ more m' cs' free', Memory.cloneEntry (clonePt n) old new i m = some (more, m') ∧
      PagesTaken lo hi m0 free0 (c + entryPages (clonePages m0 n) (m0.entry (frame old) i)) more
        m' cs' free' ∧ frame new ∉ free' := by
  have hload : m.load old i = m0.entry (frame old) i := by
    rw [hold.load_entry, h.within.entry htables.root_not_mem]
  simp only [Memory.cloneEntry, hload, entryPages]
  cases hvalid : pteValid (m0.entry (frame old) i) with
  | false => exact ⟨true, m, cs, free, by simp, by simpa using h, hnot⟩
  | true =>
    cases hglobal : pteGlobal (m0.entry (frame old) i) with
    | true =>
      refine ⟨true, _, cs, free, by simp; rfl, ?_, hnot⟩
      simpa using h.store hnew hmem hnot _
    | false =>
      cases hleaf : pteLeaf (m0.entry (frame old) i) with
      | true =>
        obtain ⟨pp, m1, cs1, free1, halloc, htaken, hpp⟩ := h.list.takes_one hlo hhi
        have hboth := h.trans htaken
        have hnot1 : frame new ∉ free1 := fun hf => hnot (htaken.subset hf)
        simp only [halloc, Option.map_some, Bool.true_eq_false, Bool.false_eq_true, or_self,
          if_false, if_true]
        by_cases hz : pp = 0
        · rw [if_pos hz]
          rw [decide_eq_false (not_not.mpr hz)] at hboth
          exact ⟨false, m1, cs1, free1, rfl, hboth, hnot1⟩
        · obtain ⟨hal, hppmem, hppnot⟩ := hpp hz
          rw [decide_eq_true hz] at hboth
          rw [if_neg hz]
          refine ⟨true, _, cs1, free1, rfl, store ?_ hnew hmem hnot1 _, hnot1⟩
          refine hboth.write (within_copyPage m1 _ hal) rfl fun f hf => ?_
          rw [Set.mem_singleton_iff.mp hf]
          exact ⟨h.subset hppmem, hppnot⟩
      | false =>
        obtain ⟨hn, hlink⟩ := htables.link_of_table hd hvalid hleaf
        have hsub := htables.sub hlink
        obtain ⟨child, m1, cs1, free1, hclone, htaken⟩ := hrec hn h.list
          (aligned_pageptr (ptePpn (m0.entry (frame old) i)))
          (by rw [frame_pageptr]; exact hsub.congr h.within h.subset)
        rw [frame_pageptr, hsub.clonePages_congr (by omega) h.within] at htaken
        have hboth := h.trans htaken
        have hnot1 : frame new ∉ free1 := fun hf => hnot (htaken.subset hf)
        simp only [hclone, Option.map_some, Bool.true_eq_false, Bool.false_eq_true, or_self, if_false]
        by_cases hz : child = 0
        · rw [if_pos hz]
          rw [decide_eq_false (not_not.mpr hz)] at hboth
          exact ⟨false, m1, cs1, free1, rfl, hboth, hnot1⟩
        · rw [decide_eq_true hz] at hboth
          rw [if_neg hz]
          exact ⟨true, _, cs1, free1, rfl, hboth.store hnew hmem hnot1 _, hnot1⟩

end Entry

theorem cloneLoop (h : PagesTaken lo hi m0 free0 c true m cs free) (hd : d + n = 2) (hlo : 0 < lo)
    (hhi : hi < 2 ^ 52) (hold : Aligned old) (htables : Tables d m0 (frame old) free0)
    (hnew : Aligned new) (hmem : frame new ∈ free0) (hnot : frame new ∉ free)
    (hrec : n ≠ 0 → TakesSpec lo hi (d + 1) n) (is : List (Fin pteCnt)) :
    ∃ done m' cs' free', Memory.cloneLoop (clonePt n) old new is m = some (done, m') ∧
      PagesTaken lo hi m0 free0
        (c + (is.map fun i => entryPages (clonePages m0 n) (m0.entry (frame old) i)).sum) done
        m' cs' free' := by
  induction is generalizing m cs free c with
  | nil => exact ⟨true, m, cs, free, rfl, h⟩
  | cons i is ih =>
    obtain ⟨more, m1, cs1, free1, hentry, htaken, hnot1⟩ :=
      h.cloneEntry (i := i) hd hlo hhi hold htables hnew hmem hnot hrec
    rw [List.map_cons, List.sum_cons, ← Nat.add_assoc]
    cases more with
    | false =>
      refine ⟨false, m1, cs1, free1, ?_, htaken.stop _⟩
      rw [Memory.cloneLoop, hentry]
      rfl
    | true =>
      obtain ⟨done, m', cs', free', hloop, hdone⟩ := ih htaken hnot1
      refine ⟨done, m', cs', free', ?_, hdone⟩
      rw [Memory.cloneLoop, hentry]
      exact hloop

end PagesTaken

/-- One level of `clone_pt`. -/
theorem clonePt_takes_level {lo hi d n : Nat} (hlo : 0 < lo) (hhi : hi < 2 ^ 52) (hd : d + n = 2)
    (hrec : n ≠ 0 → TakesSpec lo hi (d + 1) n) : TakesSpec lo hi d (n + 1) := by
  intro m cs free old hlist hold htables
  obtain ⟨new, m1, cs1, free1, halloc, htaken, hpp⟩ := hlist.takes_one hlo hhi
  by_cases hz : new = 0
  · rw [decide_eq_false (not_not.mpr hz)] at htaken
    refine ⟨0, m1, cs1, free1, ?_, ?_⟩
    · simp only [clonePt, halloc, Option.bind_some, if_pos hz]
    · rw [clonePages]
      exact htaken.stop _
  · obtain ⟨hnew, hmem, hnot⟩ := hpp hz
    rw [decide_eq_true hz] at htaken
    have hstart : PagesTaken lo hi m free 1 true (m1.zeroPage new) cs1 free1 := by
      refine htaken.write (within_zeroPage m1 hnew) rfl fun f hf => ?_
      rw [Set.mem_singleton_iff.mp hf]
      exact ⟨hmem, hnot⟩
    obtain ⟨done, m', cs', free', hloop, hdone⟩ :=
      hstart.cloneLoop hd hlo hhi hold htables hnew hmem hnot hrec (List.finRange pteCnt)
    refine ⟨if done then new else 0, m', cs', free', ?_, ?_⟩
    · simp only [clonePt, halloc, Option.bind_some, if_neg hz, hloop, Option.map_some]
    · rw [clonePages]
      cases done with
      | false => simpa using hdone
      | true =>
        rw [if_pos rfl, decide_eq_true hz]
        exact hdone

/-- `clone_pt` takes the pages that it needs, or all that there are. -/
theorem clonePt_takes {lo hi : Nat} (hlo : 0 < lo) (hhi : hi < 2 ^ 52) {d n : Nat} (hd : d + n = 2) :
    TakesSpec lo hi d (n + 1) := by
  induction n generalizing d with
  | zero => exact clonePt_takes_level hlo hhi hd fun hne => absurd rfl hne
  | succ n ih => exact clonePt_takes_level hlo hhi hd fun _ => ih (by omega)

/-! ## A clone that fails -/

/-- When `clone_active_mspace` fails, the free pages are the same, and so are the active space and
all pages that were not free. -/
def CloneKeeps (lo hi : Nat) (m : Memory) (free : Finset Nat) : Prop :=
  ∃ mtag m', m.cloneActiveMspace = some (mtag, m') ∧
    (mtag = 0 → (∃ cs', FreeList lo hi m' cs' free) ∧ m'.satp = m.satp ∧
      ∀ f, f ∉ free → m'.entry f = m.entry f)

/-- A failed clone is harmless exactly when there was no page that it could take. -/
theorem clone_keeps_iff {lo hi : Nat} {hlo : 0 < lo} {hhi : hi ≤ 2 ^ 44} {m : Memory}
    {cs : List Ptr} {free : Finset Nat} (h : TableTree lo hi hlo hhi m cs free) :
    CloneKeeps lo hi m free ↔ free = ∅ ∨ clonePages m 3 (activeRoot m) ≤ free.card := by
  obtain ⟨root, m', cs', free', hclone, htaken⟩ :=
    clonePt_takes hlo (View.Spaces.hi_lt h) (Nat.zero_add 2) h.list (aligned_activeSpacePtab m)
      h.activeTables
  have hcall : m.cloneActiveMspace = some (if root = 0 then 0 else ptabToMtag root, m') := by
    rw [cloneActiveMspace, hclone]
    rfl
  have hkeeps : CloneKeeps lo hi m free ↔ (root = 0 → free = free') := by
    constructor
    · rintro ⟨mtag, m'', heq, hlaw⟩ hz
      rw [hcall, Option.some.injEq, Prod.mk.injEq, if_pos hz] at heq
      obtain ⟨rfl, rfl⟩ := heq
      obtain ⟨⟨cs'', hlist⟩, -⟩ := hlaw rfl
      exact hlist.unique htaken.list
    · intro hsame
      refine ⟨_, m', hcall, fun hz => ?_⟩
      have hroot : root = 0 := by
        by_contra hne
        rw [if_neg hne] at hz
        exact ptabToMtag_ne_zero root hz
      refine ⟨⟨cs', ?_⟩, htaken.within.satp, fun f hf => htaken.within.entry hf⟩
      rw [hsame hroot]
      exact htaken.list
  rw [hkeeps]
  by_cases hz : root = 0
  · obtain ⟨hempty, hshort⟩ := htaken.short (decide_eq_false (not_not.mpr hz))
    subst hempty
    refine ⟨fun hsame => .inl (hsame hz), ?_⟩
    rintro (hfree | henough) -
    · exact hfree
    · exact absurd hshort (Nat.not_lt.mpr henough)
  · have hpaid := htaken.paid (decide_eq_true hz)
    refine ⟨fun _ => .inr ?_, fun _ hroot => absurd hroot hz⟩
    have hframe : clonePages m (2 + 1) (frame m.activeSpacePtab) = clonePages m 3 (activeRoot m) := rfl
    omega

/-- A space without entries needs one page. -/
theorem clone_keeps_emptySpace :
    clonePages emptySpace 3 1 = 1 ∧ CloneKeeps 2 8 emptySpace (Finset.Ico 5 8) := by
  have hpages : clonePages emptySpace 3 1 = 1 := by decide +kernel
  obtain ⟨cs, htree⟩ := emptySpace_tree
  refine ⟨hpages, (clone_keeps_iff htree).mpr (.inr ?_)⟩
  rw [emptySpace_root, hpages]
  decide

/-- Page 4 is mapped at the start of user memory, and page 7 is free. -/
def onePageSpace : Memory :=
  ((emptySpace.mapPage 0xC0000000 (pageptr 4) (PTE_R ||| PTE_W ||| PTE_U)).map Prod.snd).getD emptySpace

/-- The clone takes the last free page for the root table, and does not give it back. -/
theorem clone_leaks : ∃ cs free, TableTree 2 8 (by decide) (by decide) onePageSpace cs free ∧
    onePageSpace.freePhysPageCount = some 1 ∧
    (onePageSpace.cloneActiveMspace.map fun (mtag, m') => (mtag, m'.freePhysPageCount)) =
      some (0, some 0) ∧ ¬ CloneKeeps 2 8 onePageSpace free := by
  obtain ⟨cs0, htree0⟩ := emptySpace_tree
  obtain ⟨r, m, cs, free, heq, htree, -⟩ :=
    mapPage_tree htree0 (show Rwx (PTE_R ||| PTE_W ||| PTE_U) by decide) 0xC0000000 4
  obtain rfl : onePageSpace = m := by
    rw [onePageSpace, heq]
    rfl
  have hcount : onePageSpace.freePhysPageCount = some 1 := by decide +kernel
  have hclone : (onePageSpace.cloneActiveMspace.map fun (mtag, m') => (mtag, m'.freePhysPageCount)) =
      some (0, some 0) := by decide +kernel
  refine ⟨cs, free, htree, hcount, hclone, ?_⟩
  rintro ⟨mtag, m', hcall, hlaw⟩
  rw [hcall, Option.map_some, Option.some.injEq, Prod.mk.injEq] at hclone
  obtain ⟨⟨cs', hlist⟩, -⟩ := hlaw hclone.1
  have hbefore := FreeList.freePhysPageCount (View.Spaces.list htree) (by decide)
  have hafter := hlist.freePhysPageCount (by decide)
  rw [hcount, Option.map_some, Option.some.injEq] at hbefore
  rw [hclone.2, Option.map_some, Option.some.injEq, ← hbefore] at hafter
  cases hafter

end MiniOs
