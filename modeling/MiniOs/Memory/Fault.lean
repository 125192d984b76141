import Mathlib.Data.Set.Card
import MiniOs.Memory.Refinement
import MiniOs.Memory.Isolation

/-!
# Page faults

`handle_umode_page_fault` takes a free page, clears it and maps it at the page of the address; so
does `process_exec` for the stack.  Neither looks whether a page is mapped there.  The handler is
reached for a missing page and for an access that the flags of a mapped page forbid, and in the
second case it puts an empty page in the place of the mapped one.
-/

namespace MiniOs

open Memory Radix

/-- A free page is taken, cleared and mapped at `va`, or given back: whether it was mapped. -/
def Memory.mapZeroPage (m : Memory) (va : Word) (flags : BitVec 8) : Option (Bool × Memory) :=
  m.allocPhysPage.bind fun (pp, m) =>
    if pp = 0 then some (false, m)
    else
      ((m.zeroPage pp).mapPage va pp flags).map fun (r, m) =>
        if r = 0 then (false, m.freePhysPage pp) else (true, m)

/-- The address of the page that an address is in. -/
def pageOf (va : Word) : Word := va &&& ~~~BitVec.ofNat 64 (pageSize - 1)

/-- The flags of the pages that the handler maps. -/
abbrev faultFlags : BitVec 8 := PTE_R ||| PTE_W ||| PTE_X ||| PTE_U

theorem handleUmodePageFault_eq {m : Memory} {va : Word} (h : IsUser va) :
    m.handleUmodePageFault va = m.mapZeroPage (pageOf va) faultFlags := by
  have hrange : ¬ (va.toNat < umemStart ∨ umemEnd ≤ va.toNat) := by
    rw [IsUser] at h
    omega
  rw [handleUmodePageFault, if_neg hrange]
  rfl

section Tree

variable {lo hi t : Nat} {hlo : 0 < lo} {hhi : hi ≤ 2 ^ 44} {m m' : Memory} {cs cs' : List Ptr}
  {free free' : Finset Nat} {va vb : Word} {flags : BitVec 8} {i : Fin pteCnt} {x : Translation}

/-- The tables of the space with root table `root`. -/
def tables (root : Nat) (m : Memory) : Set Nat :=
  {f | ∃ p, Radix.reach (links false) m.entry 0 root p = some f}

theorem tables_congr {root : Nat}
    (h : ∀ p, reach (links false) m'.entry 0 root p = reach (links false) m.entry 0 root p) :
    tables root m' = tables root m := by
  ext f
  refine exists_congr fun p => ?_
  rw [h]

/-- The tree of the active space after writes to pages that are no tables. -/
theorem TableTree.congr {fs : Set Nat} (h : TableTree lo hi hlo hhi m cs free)
    (hwithin : Within fs m m') (hout : ∀ f ∈ tables (activeRoot m) m, f ∉ fs)
    (hlist : FreeList lo hi m' cs' free') (hsub : ∀ f ∈ free', f ∈ free ∨ f ∈ fs) :
    TableTree lo hi hlo hhi m' cs' free' ∧
      (∀ p, reach (links false) m'.entry 0 (activeRoot m) p =
        reach (links false) m.entry 0 (activeRoot m) p) ∧
      ∀ vb, translate m' (activeRoot m) vb = translate m (activeRoot m) vb := by
  obtain ⟨hspaces, hagree⟩ := View.Spaces.congr h hwithin (fun _ hf => hout _ ⟨_, hf⟩) hlist hsub
  refine ⟨?_, fun p => (hagree () p trivial).reach_eq, fun vb => ?_⟩
  · rw [TableTree, activeRoot_congr hwithin.satp]
    exact hspaces
  · rw [translate, translate]
    have hwalk : hwWalk m' vb 2 (activeRoot m) = hwWalk m vb 2 (activeRoot m) :=
      hwWalk_congr rfl (hagree () _ trivial)
    rw [hwalk]

theorem TableTree.kept (h : TableTree lo hi hlo hhi m cs free) :
    ∀ f ∈ tables (activeRoot m) m, f ∉ free := by
  rintro f ⟨p, hf⟩
  exact View.Spaces.kept h (k := ()) (p := p) trivial hf

theorem nodes_tree (root : Nat) (m : Memory) :
    (treeView root lo hi hlo hhi).nodes m () = tables root m := by
  ext f
  exact exists_congr fun p => ⟨fun hp => hp.2, fun hp => ⟨trivial, hp⟩⟩

/-- What an attempt to map an empty page at `va` does to the active space.  `done` is whether the
page was mapped. -/
structure Placed (lo hi : Nat) (hlo : 0 < lo) (hhi : hi ≤ 2 ^ 44) (m : Memory) (free : Finset Nat)
    (va : Word) (flags : BitVec 8) (done : Bool) (m' : Memory) (cs' : List Ptr)
    (free' : Finset Nat) : Prop where
  tree : TableTree lo hi hlo hhi m' cs' free'
  within : Within (free ∪ tables (activeRoot m) m) m m'
  subset : free' ⊆ free
  more : ∀ {p f}, reach (links false) m'.entry 0 (activeRoot m) p = some f →
    reach (links false) m.entry 0 (activeRoot m) p = some f ∨ f ∈ free
  failed : done = false → ∀ vb, translate m' (activeRoot m) vb = translate m (activeRoot m) vb
  placed : done = true → ∃ n : BitVec 44, n.toNat ∈ free ∧ n.toNat ∉ free' ∧
    n.toNat ∉ tables (activeRoot m) m' ∧ (∀ i, m'.entry n.toNat i = nullPte) ∧
    (∀ x, translate m (activeRoot m) va = some x → x.level = 0) ∧
    ∀ vb, translate m' (activeRoot m) vb =
      if wellformed vb = true ∧ vb.toNat / pageSize = va.toNat / pageSize
      then some ⟨0, n, leafFlags flags⟩ else translate m (activeRoot m) vb

/-- A page taken from the free list and cleared. -/
theorem TableTree.alloc (h : TableTree lo hi hlo hhi m cs free) :
    free = ∅ ∧ m.allocPhysPage = some (0, m) ∨
      ∃ n m1 cs1, m.allocPhysPage = some (pageptr n, m1) ∧ pageptr n ≠ 0 ∧ n.toNat ∈ free ∧
        Within free m (m1.zeroPage (pageptr n)) ∧
        (∀ i, (m1.zeroPage (pageptr n)).entry n.toNat i = nullPte) ∧
        FreeList lo hi (m1.zeroPage (pageptr n)) cs1 (free.erase n.toNat) := by
  have hhi' : hi < 2 ^ 52 := View.Spaces.hi_lt h
  rcases h.list.allocPhysPage hlo hhi' with hnull | ⟨pp, m1, cs1, heq, hnz, hal, hmem, hlist, hwithin⟩
  · exact .inl ⟨h.list.eq_empty_of_allocPhysPage hlo hhi' hnull, hnull⟩
  have hpp : pageptr (pagenum pp) = pp := by
    refine (aligned_pageptr _).eq_of_frame hal ?_
    rw [frame_pageptr, toNat_pagenum_of_lt (View.Spaces.frame_lt h hmem)]
  have hframe : frame pp = (pagenum pp).toNat := by
    rw [← frame_pageptr, hpp]
  refine .inr ⟨pagenum pp, m1, cs1, ?_⟩
  rw [hpp, ← hframe]
  obtain ⟨hlist', hzero⟩ := hlist.zeroed hwithin hal hmem
  exact ⟨heq, hnz, hmem, hzero, entry_zeroPage m1 hal, hlist'⟩

/-- A page is mapped, or there is none, or there is no place for it and it is given back. -/
theorem mapZeroPage_placed (h : TableTree lo hi hlo hhi m cs free) (hrwx : Rwx flags)
    (hva : va ≠ 0) :
    ∃ done m' cs' free', m.mapZeroPage va flags = some (done, m') ∧
      Placed lo hi hlo hhi m free va flags done m' cs' free' := by
  rcases h.alloc with ⟨-, hnull⟩ | ⟨n, m1, cs1, halloc, hnz, hmem, hfirst, hzero, hlist⟩
  · refine ⟨false, m, cs, free, ?_, h, .refl _ m, Finset.Subset.refl _, .inl, fun _ _ => rfl, nofun⟩
    rw [mapZeroPage, hnull]
    rfl
  obtain ⟨htree2, hreach2, htr2⟩ := h.congr hfirst h.kept hlist
    fun f hf => .inl (Finset.mem_of_mem_erase hf)
  have hroot2 : activeRoot (m1.zeroPage (pageptr n)) = activeRoot m := activeRoot_congr hfirst.satp
  obtain ⟨r, m3, cs3, free3, hmap, htree3, hsub3, hnew3, hwithin3, hcase⟩ :=
    mapPage_tree htree2 hrwx va n
  rw [hroot2] at hnew3 hwithin3 hcase
  rw [nodes_tree, tables_congr hreach2] at hwithin3
  have hroot3 : activeRoot m3 = activeRoot m := (activeRoot_congr hwithin3.satp).trans hroot2
  have hsub : free3 ⊆ free := hsub3.trans (Finset.erase_subset _ _)
  have hwithin : Within (free ∪ tables (activeRoot m) m) m m3 := by
    refine (hfirst.mono Set.subset_union_left).trans (hwithin3.mono ?_)
    exact Set.union_subset_union_left _ (Finset.erase_subset _ _)
  -- the page is neither free nor a table while it is being mapped
  have hn3 : n.toNat ∉ free3 := fun hf => Finset.notMem_erase _ _ (hsub3 hf)
  have hntab : n.toNat ∉ tables (activeRoot m) m := fun hf => h.kept _ hf hmem
  have hnew : ∀ {p f}, reach (links false) m3.entry 0 (activeRoot m) p = some f →
      reach (links false) m.entry 0 (activeRoot m) p = some f ∨ f ∈ free.erase n.toNat := by
    intro p f hf
    exact (hnew3 hf).imp_left fun hold => (hreach2 p).symm.trans hold
  have hntab3 : n.toNat ∉ tables (activeRoot m) m3 := fun ⟨p, hf⟩ =>
    (hnew hf).elim (fun hold => hntab ⟨p, hold⟩) (Finset.notMem_erase _ _)
  have hmore : ∀ {p f}, reach (links false) m3.entry 0 (activeRoot m) p = some f →
      reach (links false) m.entry 0 (activeRoot m) p = some f ∨ f ∈ free := fun hf =>
    (hnew hf).imp_right fun hmem => Finset.mem_of_mem_erase hmem
  have hstep : m.mapZeroPage va flags =
      some (if r = 0 then (false, m3.freePhysPage (pageptr n)) else (true, m3)) := by
    simp only [mapZeroPage, halloc, Option.bind_some, if_neg hnz, hmap, Option.map_some]
  rcases hcase with ⟨rfl, hsame⟩ | ⟨rfl, hsmall, hset⟩
  · have hlist3 : FreeList lo hi m3 cs3 free3 := htree3.list
    have hpool : lo ≤ n.toNat ∧ n.toNat < hi := h.list.bounds hmem
    rw [← frame_pageptr n] at hpool hn3
    obtain ⟨hlist', hback⟩ := hlist3.freePhysPage hlo (aligned_pageptr n) hpool hn3
    rw [frame_pageptr] at hlist' hback
    obtain ⟨htree', hreach', htr'⟩ := htree3.congr hback
      (by rw [hroot3]; rintro f hf rfl; exact hntab3 hf) hlist'
      fun f hf => ((Finset.mem_insert.mp hf).symm).imp_right Set.mem_singleton_iff.mpr
    rw [hroot3] at hreach' htr'
    refine ⟨false, _, _, _, by rw [hstep, if_pos rfl], htree', ?_, ?_, ?_, fun _ vb => ?_, nofun⟩
    · exact hwithin.trans (hback.mono (Set.singleton_subset_iff.mpr (.inl hmem)))
    · exact Finset.insert_subset hmem hsub
    · exact fun {p f} hf => hmore ((hreach' p).symm.trans hf)
    · rw [htr', hsame, htr2]
  · refine ⟨true, m3, cs3, free3, by rw [hstep, if_neg hva], htree3, hwithin, hsub, hmore, nofun,
      fun _ => ⟨n, hmem, hn3, hntab3, fun i => ?_, fun x hx => ?_, fun vb => ?_⟩⟩
    · rw [← hzero i, hwithin3.entry]
      exact fun hf => hf.elim (Finset.notMem_erase _ _) hntab
    · exact hsmall x (by rw [htr2]; exact hx)
    · rw [hset, htr2]

/-! ## A table that exists -/

/-- One level of `walk`, at an entry that links to a table. -/
theorem descend_link {pt : Ptr} (hpt : Aligned pt)
    (h : tableLink (m.entry (frame pt) i) = some t) (alloc : Bool) :
    ∃ pt', m.descend pt i alloc = some (some pt', m) ∧ Aligned pt' ∧ frame pt' = t := by
  rw [← hpt.load_entry, tableLink] at h
  split at h
  case isTrue hlink =>
    cases h
    refine ⟨pageptr (ptePpn (m.load pt i)), ?_, aligned_pageptr _, frame_pageptr _⟩
    simp [descend, needEntry, hlink]
  case isFalse => cases h

/-- `walk` makes no table when there is one. -/
theorem walk_found
    (h : reach (links false) m.entry 0 (activeRoot m) [vpnIndex 2 va, vpnIndex 1 va] = some t)
    (alloc : Bool) : ∃ pt, m.walk va alloc = some (some pt, m) ∧ Aligned pt ∧ frame pt = t := by
  rw [reach_cons, links_of_lt (by decide)] at h
  obtain ⟨t1, hlink1, h⟩ := Option.bind_eq_some_iff.mp h
  rw [reach_cons, links_of_lt (by decide)] at h
  obtain ⟨t0, hlink0, h⟩ := Option.bind_eq_some_iff.mp h
  cases h
  obtain ⟨pt1, hdesc1, hal1, rfl⟩ := descend_link (aligned_activeSpacePtab m) hlink1 alloc
  obtain ⟨pt0, hdesc0, hal0, rfl⟩ := descend_link hal1 hlink0 alloc
  refine ⟨pt0, ?_, hal0, rfl⟩
  rw [walk, hdesc1]
  exact hdesc0

/-- With a table for it and a free page, the page is mapped. -/
theorem mapZeroPage_found (h : TableTree lo hi hlo hhi m cs free)
    (hreach : reach (links false) m.entry 0 (activeRoot m) [vpnIndex 2 va, vpnIndex 1 va] = some t)
    (hfree : free ≠ ∅) (hva : va ≠ 0) (hwf : wellformed va = true)
    (hpage : va.toNat % pageSize = 0) (flags : BitVec 8) :
    ∃ m' cs' n, m.mapZeroPage va flags = some (true, m') ∧ n ∈ free ∧
      FreeList lo hi m' cs' (free.erase n) := by
  rcases h.alloc with ⟨hempty, -⟩ | ⟨n, m1, cs1, halloc, hnz, hmem, hfirst, -, hlist⟩
  · exact absurd hempty hfree
  have hagree := View.Spaces.agree_of_free h (l := ()) (p := [vpnIndex 2 va, vpnIndex 1 va]) hfirst trivial
  have hreach2 : reach (links false) (m1.zeroPage (pageptr n)).entry 0 (activeRoot m)
      [vpnIndex 2 va, vpnIndex 1 va] = some t := hagree.reach_eq.trans hreach
  rw [← activeRoot_congr hfirst.satp] at hreach2
  obtain ⟨pt, hwalk, hal, rfl⟩ := walk_found hreach2 true
  refine ⟨(m1.zeroPage (pageptr n)).store pt (vpnIndex 0 va) (leafPte (pageptr n) flags), cs1, n.toNat,
    ?_, hmem, hlist.store hal (fun hf => h.kept _ ⟨_, hreach⟩ (Finset.mem_of_mem_erase hf)) _ _⟩
  have hbad : ¬ (wellformed va = false ∨ va.toNat % pageSize ≠ 0) := by simp [hwf, hpage]
  simp only [mapZeroPage, halloc, Option.bind_some, if_neg hnz, mapPage, if_neg hbad, hwalk,
    Option.map_some, if_neg hva]

/-! ## No table and no page for one -/

/-- One level of `walk` fails because there is no page, or at a leaf. -/
theorem descend_failed {pt : Ptr} (h : m.descend pt i true = some (none, m')) :
    m.allocPhysPage = some (0, m') ∨ pteValid (m'.load pt i) = true ∧ pteLeaf (m'.load pt i) = true := by
  obtain ⟨⟨found, m1⟩, hneed, hpair⟩ := Option.map_eq_some_iff.mp h
  dsimp only at hpair
  split at hpair
  case isFalse => cases hpair
  case isTrue hcase =>
    cases hpair
    rw [needEntry] at hneed
    split at hneed
    case isTrue hvalid =>
      cases hneed
      exact .inr ⟨hvalid, hcase.resolve_left (by simp)⟩
    case isFalse =>
      rw [if_neg (by simp)] at hneed
      obtain ⟨⟨sub, m2⟩, halloc, hpair⟩ := Option.map_eq_some_iff.mp hneed
      dsimp only at hpair
      split at hpair
      case isTrue hsub =>
        cases hpair
        subst hsub
        exact .inl halloc
      case isFalse =>
        cases hpair
        exact .inr ⟨by rw [load_store_self, pteValid_ptabPte], hcase.resolve_left (by simp)⟩

/-- `walk` fails below no leaf when the free list is at its end. -/
theorem walk_starved (h : TableTree lo hi hlo hhi m cs free)
    (hleaf : ∀ x, hwWalk m va 2 (activeRoot m) = some x → x.level = 0)
    (heq : m.walk va true = some (none, m')) (hlist : FreeList lo hi m' cs' free') : free' = ∅ := by
  -- an entry that is a leaf would be a page that is too large
  have hstop : ∀ {m1 : Memory} {pt : Ptr} {level t : Nat}, Aligned pt → frame pt = t → level ≠ 0 →
      pteValid (m1.load pt (vpnIndex level va)) = true ∧
        pteLeaf (m1.load pt (vpnIndex level va)) = true →
      hwWalk m va 2 (activeRoot m) = hwWalk m1 va level t → False := by
    intro m1 pt level t hpt hframe hlevel hentry hwalk
    obtain ⟨n, rfl⟩ := Nat.exists_eq_succ_of_ne_zero hlevel
    rw [hpt.load_entry, hframe] at hentry
    have hnolink : tableLink (m1.entry t (vpnIndex (n + 1) va)) = none := by
      rw [tableLink, if_neg (by simp [hentry.2])]
    rw [hwWalk_stop hnolink, leafOf, if_pos hentry] at hwalk
    exact hlevel (hleaf _ hwalk)
  have hhi' : hi < 2 ^ 52 := View.Spaces.hi_lt h
  obtain ⟨r, m1, cs1, free1, hdesc, hgrown, -, hal, hr⟩ := View.Spaces.descend h (k := ())
    (q := []) (i := vpnIndex 2 va) (aligned_activeSpacePtab m) rfl trivial Nat.zero_lt_two true
  have hwalks : hwWalk m va 2 (activeRoot m) = hwWalk m1 va 2 (activeRoot m) :=
    (hgrown.walks () va trivial).symm
  rw [walk, hdesc] at heq
  cases r with
  | none =>
    cases heq
    rcases descend_failed hdesc with hnull | hentry
    · have hempty := h.list.eq_empty_of_allocPhysPage hlo hhi' hnull
      have hsub := hgrown.subset
      rw [hempty, Finset.subset_empty] at hsub
      exact (hlist.unique hgrown.spaces.list).trans hsub
    · exact (hstop (aligned_activeSpacePtab m) rfl (by decide) hentry hwalks).elim
  | some pt =>
    have hlist1 : FreeList lo hi m1 cs1 free1 := hgrown.spaces.list
    obtain ⟨r, m2, cs2, free2, hdesc2, hgrown2, -, -, -⟩ := View.Spaces.descend hgrown.spaces (k := ())
      (q := [vpnIndex 2 va]) (i := vpnIndex 1 va) (hal pt rfl) hr.symm trivial Nat.one_lt_two true
    change m1.descend pt (vpnIndex 1 va) true = some (none, m') at heq
    rw [hdesc2] at heq
    cases heq
    rcases descend_failed hdesc2 with hnull | hentry
    · have hempty := hlist1.eq_empty_of_allocPhysPage hlo hhi' hnull
      have hsub := hgrown2.subset
      rw [hempty, Finset.subset_empty] at hsub
      exact (hlist.unique hgrown2.spaces.list).trans hsub
    · refine (hstop (hal pt rfl) rfl (by decide) hentry ?_).elim
      have hold := hgrown2.old (l := ()) (p := [vpnIndex 2 va]) trivial hr.symm
      have hlast : hwWalk m' va 2 (activeRoot m) = hwWalk m' va 1 (frame pt) :=
        hwWalk_reach (q := [vpnIndex 2 va]) (r := [vpnIndex 1 va, vpnIndex 0 va]) rfl rfl (Nat.le_succ 1) hold
      rw [hwalks, ← hlast]
      exact (hgrown2.walks () va trivial).symm

/-- A page that is given back for want of a table is the last one. -/
theorem mapZeroPage_starved (h : TableTree lo hi hlo hhi m cs free)
    (hleaf : ∀ x, translate m (activeRoot m) va = some x → x.level = 0) (hva : va ≠ 0)
    (hwf : wellformed va = true) (hpage : va.toNat % pageSize = 0)
    (heq : m.mapZeroPage va flags = some (false, m')) (hlist : FreeList lo hi m' cs' free') :
    free = ∅ ∨ ∃ n ∈ free, free' = {n} := by
  rcases h.alloc with ⟨hempty, -⟩ | ⟨n, m1, cs1, halloc, hnz, hmem, hfirst, -, hlist1⟩
  · exact .inl hempty
  refine .inr ⟨n.toNat, hmem, ?_⟩
  obtain ⟨htree1, -, htr1⟩ := h.congr hfirst h.kept hlist1 fun f hf => .inl (Finset.mem_of_mem_erase hf)
  have hroot1 : activeRoot (m1.zeroPage (pageptr n)) = activeRoot m := activeRoot_congr hfirst.satp
  have hleaf1 : ∀ x, hwWalk (m1.zeroPage (pageptr n)) va 2 (activeRoot (m1.zeroPage (pageptr n))) =
      some x → x.level = 0 := by
    intro x hx
    refine hleaf x ?_
    rw [← htr1, translate, if_pos hwf, ← hroot1, hx]
  have hbad : ¬ (wellformed va = false ∨ va.toNat % pageSize ≠ 0) := by simp [hwf, hpage]
  have hdom : (treeView (activeRoot (m1.zeroPage (pageptr n))) lo hi hlo hhi).dom (vpnPath va) := trivial
  obtain ⟨r, m2, cs2, free2, hwalk, hgrown, -, -, -⟩ :=
    View.Spaces.walk htree1 (k := ()) rfl hdom true
  simp only [mapZeroPage, halloc, Option.bind_some, if_neg hnz, mapPage, if_neg hbad, hwalk,
    Option.map_some, Option.some.injEq] at heq
  cases r with
  | some pt =>
    rw [if_neg hva] at heq
    cases heq
  | none =>
    rw [if_pos rfl] at heq
    cases heq
    have hlist2 : FreeList lo hi m2 cs2 free2 := hgrown.spaces.list
    obtain rfl := walk_starved htree1 hleaf1 hwalk hlist2
    have hpool : lo ≤ n.toNat ∧ n.toNat < hi := h.list.bounds hmem
    rw [← frame_pageptr n] at hpool
    have hback := (hlist2.freePhysPage hlo (aligned_pageptr n) hpool (Finset.notMem_empty _)).1
    rw [frame_pageptr] at hback
    exact hlist.unique hback

/-- A page of 4 KB is in a table. -/
theorem reach_of_level (h : hwWalk m va 2 (activeRoot m) = some x) (hlevel : x.level = 0) :
    ∃ t, reach (links false) m.entry 0 (activeRoot m) [vpnIndex 2 va, vpnIndex 1 va] = some t := by
  cases hreach : reach (links false) m.entry 0 (activeRoot m) [vpnIndex 2 va, vpnIndex 1 va] with
  | none =>
    have hno : (treeView (activeRoot m) 1 1 (by decide) (by decide)).reach m ()
      [vpnIndex 2 va, vpnIndex 1 va] = none := hreach
    exact absurd hlevel (level_of_no_table hno h)
  | some t => exact ⟨t, rfl⟩

/-! ## The handler -/

theorem pageOf_toNat (va : Word) : (pageOf va).toNat = va.toNat / pageSize * pageSize :=
  UserSpaces.toNat_page va

theorem pageOf_div (va : Word) : (pageOf va).toNat / pageSize = va.toNat / pageSize :=
  UserSpaces.toNat_page_div va

theorem pageOf_mod (va : Word) : (pageOf va).toNat % pageSize = 0 := by
  rw [pageOf_toNat]
  exact Nat.mul_mod_left _ _

theorem IsUser.pageOf (h : IsUser va) : IsUser (pageOf va) := UserSpaces.isUser_page h

/-- An address of user memory and its page have the same translation. -/
theorem translate_pageOf (h : IsUser va) (m : Memory) (root : Nat) :
    translate m root (MiniOs.pageOf va) = translate m root va := by
  rw [translate, translate, if_pos h.wellformed, if_pos h.pageOf.wellformed,
    UserSpaces.hwWalk_page m 2 root (pageOf_div va)]

/-- The pages that addresses of the space are in. -/
def mappedFrames (m : Memory) (root : Nat) : Set Nat :=
  {f | ∃ va x, translate m root va = some x ∧ physPage x va = f}

/-- What `handle_umode_page_fault` is to do: no page that is mapped gets another translation or
other contents; a fault that is handled was at an address with no page, and there is an empty page
from the free list now; and a fault that is not handled changes no translation. -/
def FaultLaw (lo hi : Nat) (m : Memory) (free : Finset Nat) (va : Word) : Prop :=
  ∃ done m' cs' free', m.handleUmodePageFault va = some (done, m') ∧ FreeList lo hi m' cs' free' ∧
    (∀ vb x, translate m (activeRoot m) vb = some x → translate m' (activeRoot m) vb = some x ∧
      (IsUser vb → m'.word (physWord x vb) = m.word (physWord x vb))) ∧
    (done = true → translate m (activeRoot m) va = none ∧
      ∃ n : BitVec 44, n.toNat ∈ free ∧ n.toNat ∉ free' ∧ (∀ i, m'.entry n.toNat i = 0) ∧
        ∀ vb, translate m' (activeRoot m) vb =
          if wellformed vb = true ∧ vb.toNat / pageSize = va.toNat / pageSize
          then some ⟨0, n, leafFlags faultFlags⟩ else translate m (activeRoot m) vb) ∧
    (done = false → (∀ vb, translate m' (activeRoot m) vb = translate m (activeRoot m) vb) ∧
      (mappedFrames m' (activeRoot m)).encard = (mappedFrames m (activeRoot m)).encard)

theorem physWord_div (x : Translation) (va : Word) : physWord x va / pteCnt = physPage x va := by
  rw [physWord]
  simp only [pteCnt, pageSize]
  omega

theorem physPage_small (h : x.level = 0) : physPage x va = x.ppn.toNat := by
  rw [physPage, h, Nat.pow_zero, Nat.div_one, Nat.mul_one, Nat.mod_one, Nat.add_zero]

/-- The handler keeps to its law except at a page of 4 KB that is mapped, while there is a free
page. -/
theorem faultLaw_iff (h : TableTree lo hi hlo hhi m cs free)
    (hheld : ∀ vb x, IsUser vb → translate m (activeRoot m) vb = some x →
      physPage x vb ∉ free ∧ physPage x vb ∉ tables (activeRoot m) m)
    (hva : IsUser va) :
    FaultLaw lo hi m free va ↔
      ∀ x, translate m (activeRoot m) va = some x → x.level = 0 → free = ∅ := by
  constructor
  · rintro ⟨done, m', _, _, heq, -, -, hdone, -⟩ x hx hlevel
    by_contra hfree
    have hwalk := hx
    rw [← translate_pageOf hva, translate, if_pos hva.pageOf.wellformed] at hwalk
    obtain ⟨t, hreach⟩ := reach_of_level hwalk hlevel
    obtain ⟨m1, -, -, hmap, -⟩ := mapZeroPage_found h hreach hfree hva.pageOf.ne_zero
      hva.pageOf.wellformed (pageOf_mod va) faultFlags
    rw [handleUmodePageFault_eq hva, hmap] at heq
    cases heq
    rw [(hdone rfl).1] at hx
    cases hx
  · intro hcond
    have hrwx : Rwx faultFlags := by decide
    obtain ⟨done, m', cs', free', heq, hplaced⟩ := mapZeroPage_placed h hrwx hva.pageOf.ne_zero
    -- where a page was mapped there was none
    have hnone : done = true → translate m (activeRoot m) va = none := by
      intro hdone
      obtain ⟨n, hmem, -, -, -, hsmall, -⟩ := hplaced.placed hdone
      cases hx : translate m (activeRoot m) va with
      | none => rfl
      | some x =>
        rw [translate_pageOf hva, hx] at hsmall
        rw [hcond x hx (hsmall x rfl)] at hmem
        exact absurd hmem (Finset.notMem_empty _)
    have hkeep : ∀ vb x, translate m (activeRoot m) vb = some x →
        translate m' (activeRoot m) vb = some x := by
      intro vb x hx
      cases hdone : done with
      | false => rw [hplaced.failed hdone, hx]
      | true =>
        obtain ⟨n, -, -, -, -, -, hset⟩ := hplaced.placed hdone
        rw [hset, if_neg, hx]
        rintro ⟨hwf, hpage⟩
        rw [pageOf_div] at hpage
        rw [translate, if_pos hwf, UserSpaces.hwWalk_page m 2 _ hpage] at hx
        have := hnone hdone
        rw [translate, if_pos hva.wellformed, hx] at this
        cases this
    refine ⟨done, m', cs', free', (handleUmodePageFault_eq hva).trans heq, hplaced.tree.list,
      fun vb x hx => ⟨hkeep vb x hx, fun hvb => ?_⟩, fun hdone => ⟨hnone hdone, ?_⟩, fun hdone => ?_⟩
    · obtain ⟨hfree, htab⟩ := hheld vb x hvb hx
      refine hplaced.within.word _ ?_
      rw [physWord_div]
      exact fun hin => hin.elim hfree htab
    · obtain ⟨n, hmem, hfree', -, hzero, -, hset⟩ := hplaced.placed hdone
      rw [pageOf_div] at hset
      exact ⟨n, hmem, hfree', hzero, hset⟩
    · have hsame := hplaced.failed hdone
      refine ⟨hsame, ?_⟩
      simp only [mappedFrames, hsame]

end Tree

theorem emptySpace_translate (va : Word) : translate emptySpace 1 va = none :=
  translate_barren emptySpace_entry va

/-- The first access to user memory. -/
theorem faultLaw_emptySpace : FaultLaw 2 8 emptySpace (Finset.Ico 5 8) 0xC0000000 := by
  obtain ⟨cs, htree⟩ := emptySpace_tree
  have hnone : ∀ va x, translate emptySpace (activeRoot emptySpace) va ≠ some x := by
    intro va x
    rw [emptySpace_root, emptySpace_translate]
    exact nofun
  refine (faultLaw_iff htree (fun vb x _ hx => absurd hx (hnone vb x)) ⟨by decide, by decide⟩).mpr ?_
  exact fun x hx => absurd hx (hnone _ x)

/-- `emptySpace` with page 4 mapped as the stack of a process, as `process_exec` does. -/
def stackSpace : Memory :=
  ((emptySpace.mapPage 0xEFFFF000 (pageptr 4) (PTE_R ||| PTE_W ||| PTE_U)).getD (0, emptySpace)).2

/-- An instruction fetch from the stack puts an empty page in the place of the stack's page. -/
theorem fault_replaces_page :
    (∃ cs free, TableTree 2 8 (by decide) (by decide) stackSpace cs free ∧
      (∀ vb x, IsUser vb → translate stackSpace (activeRoot stackSpace) vb = some x →
        physPage x vb ∉ free ∧ physPage x vb ∉ tables (activeRoot stackSpace) stackSpace) ∧
      ¬ FaultLaw 2 8 stackSpace free 0xEFFFFFF0) ∧
    translate stackSpace 1 0xEFFFFFF0 = some ⟨0, 4, leafFlags (PTE_R ||| PTE_W ||| PTE_U)⟩ ∧
    (stackSpace.handleUmodePageFault 0xEFFFFFF0).map
        (fun (done, m') => (done, translate m' 1 0xEFFFFFF0)) =
      some (true, some ⟨0, 7, leafFlags faultFlags⟩) := by
  obtain ⟨cs0, htree0⟩ := emptySpace_tree
  have hfirst : (emptySpace.mapPage 0xEFFFF000 (pageptr 4) (PTE_R ||| PTE_W ||| PTE_U)).map Prod.fst =
      some 0xEFFFF000 := by
    decide +kernel
  have hbefore : translate stackSpace 1 0xEFFFFFF0 = some ⟨0, 4, leafFlags (PTE_R ||| PTE_W ||| PTE_U)⟩ := by
    decide +kernel
  have hafter : (stackSpace.handleUmodePageFault 0xEFFFFFF0).map
        (fun (done, m') => (done, translate m' 1 0xEFFFFFF0)) =
      some (true, some ⟨0, 7, leafFlags faultFlags⟩) := by
    decide +kernel
  have hrwx : Rwx (PTE_R ||| PTE_W ||| PTE_U) := by decide
  obtain ⟨r, m, cs, free, heq, htree, hsub, hnew, hwithin, hcase⟩ :=
    mapPage_tree htree0 hrwx 0xEFFFF000 4
  obtain rfl : stackSpace = m := by rw [stackSpace, heq]; rfl
  rw [heq, Option.map_some, Option.some.injEq] at hfirst
  subst hfirst
  have hroot : activeRoot stackSpace = 1 := (activeRoot_congr hwithin.satp).trans emptySpace_root
  rw [emptySpace_root] at hcase hnew
  refine ⟨⟨cs, free, htree, fun vb x _ hx => ?_, ?_⟩, hbefore, hafter⟩
  · rcases hcase with ⟨h0, -⟩ | ⟨-, -, hset⟩
    · exact absurd h0 (by decide)
    rw [hroot, hset] at hx
    split at hx
    case isTrue =>
      cases hx
      have hpage : physPage ⟨0, 4, leafFlags (PTE_R ||| PTE_W ||| PTE_U)⟩ vb = 4 :=
        physPage_small rfl
      rw [hpage, hroot]
      refine ⟨fun hmem => absurd (hsub hmem) (by decide), ?_⟩
      rintro ⟨p, hp⟩
      rcases hnew hp with hold | hold
      · exact absurd (emptySpace_reach hold) (by decide)
      · exact absurd hold (by decide)
    case isFalse =>
      rw [emptySpace_translate] at hx
      cases hx
  · rintro ⟨done, m', -, -, hcall, -, hkeep, -⟩
    have hsame := (hkeep 0xEFFFFFF0 _ (by rw [hroot]; exact hbefore)).1
    rw [hcall, Option.map_some, Option.some.injEq, Prod.mk.injEq] at hafter
    rw [hroot, hafter.2] at hsame
    exact absurd hsame (by decide)

end MiniOs
