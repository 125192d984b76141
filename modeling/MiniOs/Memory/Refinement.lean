import MiniOs.Memory.Mapping

/-!
# The tables of a space as a map from pages to translations

For the tree of the active space, each call of the memory manager is a change of a finite map: the
map that takes a page of addresses to its translation.  `map_page` sets one page,
`set_range_flags` changes the flags of the mapped pages of a range, and `unmap_and_free_range`
removes them.  Superpages are not touched.
-/

namespace MiniOs

open Memory Radix

/-- The tables of one space.  Entries of level 0 are leaves when they are valid. -/
def treeView (root lo hi : Nat) (hlo : 0 < lo) (hhi : hi ≤ 2 ^ 44) : View Unit where
  root := fun _ => root
  dom := fun _ => True
  pages := false
  ok := fun d e => d = 2 → pteValid e = true → pteLeaf e = true
  lo := lo
  hi := hi
  closed := fun _ _ _ => trivial
  ok_null := fun _ _ hv => absurd hv (by decide)
  ok_ptab := fun d _ hd hd2 => by omega
  lo_pos := hlo
  hi_le := hhi

/-- The root table of the active space. -/
def activeRoot (m : Memory) : Nat := frame m.activeSpacePtab

theorem activeRoot_congr {m m' : Memory} (h : m'.satp = m.satp) : activeRoot m' = activeRoot m := by
  rw [activeRoot, activeRoot, frame_activeSpacePtab, frame_activeSpacePtab, h]

/-- The active space has a tree of tables, with none of them on the free list. -/
def TableTree (lo hi : Nat) (hlo : 0 < lo) (hhi : hi ≤ 2 ^ 44) (m : Memory) (cs : List Ptr)
    (free : Finset Nat) : Prop :=
  (treeView (activeRoot m) lo hi hlo hhi).Spaces m cs free

/-- Address `va` is in a page of the range of `size` bytes at `vma`. -/
def InRange (vma size va : Word) : Prop :=
  ∃ i < (size.toNat + (pageSize - 1)) / pageSize, va.toNat / pageSize = (pageAt vma i).toNat / pageSize

/-- The pages of the range have canonical addresses. -/
def Canonical (vma size : Word) : Prop :=
  ∀ i < (size.toNat + (pageSize - 1)) / pageSize, wellformed (pageAt vma i) = true

variable {upd : Option Translation → Option Translation}

section Walks

variable {m m' : Memory} {va vb : Word} {root : Nat}

theorem hwWalk_path (h : vpnPath va = vpnPath vb) : hwWalk m va 2 root = hwWalk m vb 2 root := by
  simp only [vpnPath, vpnPathFrom, List.cons.injEq, and_true] at h
  simp only [hwWalk, h.1, h.2.1, h.2.2]

end Walks

section Tree

variable {root lo hi : Nat} {hlo : 0 < lo} {hhi : hi ≤ 2 ^ 44} {m m' : Memory} {cs : List Ptr}
  {free : Finset Nat} {va vb vma size : Word} {flags : BitVec 8} {x : Translation}

/-- Without a table of level 0 there is no page of 4 KB. -/
theorem level_of_no_table {v : View Unit} (h : v.reach m () [vpnIndex 2 va, vpnIndex 1 va] = none)
    (hx : hwWalk m va 2 (v.root ()) = some x) : x.level ≠ 0 := by
  rw [View.reach, reach_cons, links_of_lt (by decide)] at h
  cases hlink : tableLink (m.entry (v.root ()) (vpnIndex 2 va)) with
  | none =>
    rw [hwWalk_stop hlink] at hx
    rw [level_of_leafOf hx]
    decide
  | some t =>
    rw [hlink, Option.bind_some, reach_cons, links_of_lt (by decide)] at h
    cases hlink1 : tableLink (m.entry t (vpnIndex 1 va)) with
    | none =>
      rw [hwWalk_link hlink, hwWalk_stop hlink1] at hx
      rw [level_of_leafOf hx]
      decide
    | some t' =>
      rw [hlink1] at h
      cases h

/-- A valid entry of level 0 in the tree is a mapped page. -/
theorem leafOf_tree {e : Word} (hok : (treeView root lo hi hlo hhi).ok 2 e)
    (hvalid : pteValid e = true) : leafOf 0 e = some ⟨0, ptePpn e, pteFlags e⟩ := by
  rw [leafOf, if_pos ⟨hvalid, hok rfl hvalid⟩]

theorem ok_leaf {e : Word} (hrwx : Rwx flags) (he : pteFlags e = leafFlags flags) (d : Nat) :
    (treeView root lo hi hlo hhi).ok d e := by
  intro _ _
  rw [pteLeaf, he]
  exact decide_eq_true (leafFlags_rwx flags hrwx)

/-- The pages mapped at the next `n` pages of addresses are held: they are in the pool, not free,
no tables, and mapped once. -/
structure HeldPages (root lo hi : Nat) (hlo : 0 < lo) (hhi : hi ≤ 2 ^ 44) (m : Memory)
    (free : Finset Nat) (n : Nat) (vma : Word) : Prop where
  pool : ∀ {va x}, (∃ i < n, vpnPath va = vpnPath (pageAt vma i)) → hwWalk m va 2 root = some x →
    x.level = 0 → (lo ≤ x.ppn.toNat ∧ x.ppn.toNat < hi) ∧ x.ppn.toNat ∉ free ∧
      ∀ p, (treeView root lo hi hlo hhi).reach m () p ≠ some x.ppn.toNat
  once : ∀ {va vb x y}, (∃ i < n, vpnPath va = vpnPath (pageAt vma i)) →
    (∃ i < n, vpnPath vb = vpnPath (pageAt vma i)) → hwWalk m va 2 root = some x →
    hwWalk m vb 2 root = some y → x.level = 0 → y.level = 0 → x.ppn = y.ppn →
    vpnPath va = vpnPath vb

/-- The pages `fs` were unmapped and freed, in this order, since the memory was `m₀`. -/
structure Freed (root lo hi : Nat) (hlo : 0 < lo) (hhi : hi ≤ 2 ^ 44) (m₀ : Memory) (cs : List Ptr)
    (free : Finset Nat) (m : Memory) (fs : List Ptr) : Prop where
  spaces : (treeView root lo hi hlo hhi).Spaces m (fs.reverse ++ cs)
    (free ∪ (fs.map frame).toFinset)
  active : activeRoot m = root
  less : ∀ {va x}, hwWalk m va 2 root = some x → hwWalk m₀ va 2 root = some x
  mem_iff : ∀ pp, pp ∈ fs ↔ ∃ va x, hwWalk m₀ va 2 root = some x ∧ x.level = 0 ∧
    pageptr x.ppn = pp ∧ hwWalk m va 2 root = none

/-- A page of 4 KB goes. -/
def dropPage (x : Option Translation) : Option Translation := x.filter fun x => x.level ≠ 0

theorem HeldPages.tail {free' : Finset Nat} {n : Nat} (h : HeldPages root lo hi hlo hhi m free (n + 1) vma)
    (hless : ∀ {va x}, hwWalk m' va 2 root = some x → hwWalk m va 2 root = some x)
    (hreach : ∀ {p f}, (treeView root lo hi hlo hhi).reach m' () p = some f →
      (treeView root lo hi hlo hhi).reach m () p = some f)
    (hfree : ∀ {va x}, (∃ i < n + 1, vpnPath va = vpnPath (pageAt vma i)) →
      hwWalk m' va 2 root = some x → x.level = 0 → x.ppn.toNat ∉ free') :
    HeldPages root lo hi hlo hhi m' free' n (nextPage vma) := by
  have hin : ∀ {va}, (∃ i < n, vpnPath va = vpnPath (pageAt (nextPage vma) i)) →
      ∃ i < n + 1, vpnPath va = vpnPath (pageAt vma i) := by
    rintro va ⟨i, hi, hpath⟩
    exact ⟨i + 1, Nat.succ_lt_succ hi, by rw [pageAt_succ]; exact hpath⟩
  refine ⟨fun hva hx hlevel => ?_, fun hva hvb hx hy => ?_⟩
  · obtain ⟨hpool, -, htab⟩ := h.pool (hin hva) (hless hx) hlevel
    exact ⟨hpool, hfree (hin hva) hx hlevel, fun p hp => htab p (hreach hp)⟩
  · exact h.once (hin hva) (hin hvb) (hless hx) (hless hy)

theorem dropPage_eq_some {o : Option Translation} (h : dropPage o = some x) :
    o = some x := (Option.filter_eq_some_iff.mp h).1

/-- The next page of the range is unmapped. -/
theorem Freed.step {m₀ : Memory} {fs : List Ptr} {n : Nat}
    (h : Freed root lo hi hlo hhi m₀ cs free m fs)
    (hheld : HeldPages root lo hi hlo hhi m (free ∪ (fs.map frame).toFinset) (n + 1) vma) :
    ∃ m' fs', m.unmapPage vma = some m' ∧ Freed root lo hi hlo hhi m₀ cs free m' fs' ∧
      HeldPages root lo hi hlo hhi m' (free ∪ (fs'.map frame).toFinset) n (nextPage vma) ∧
      hwWalk m' vma 2 root = dropPage (hwWalk m vma 2 root) ∧
      ∀ va, vpnPath va ≠ vpnPath vma → hwWalk m' va 2 root = hwWalk m va 2 root := by
  have hdom : (treeView root lo hi hlo hhi).dom (vpnPath vma) := trivial
  have hfirst : ∃ i < n + 1, vpnPath vma = vpnPath (pageAt vma i) :=
    ⟨0, Nat.succ_pos n, by rw [pageAt_zero]⟩
  obtain ⟨m', cs', free', heq, hchanged, hcase⟩ := h.spaces.unmapPage (k := ()) h.active hdom
    fun e hok hold _ hvalid => by
      rw [leafOf_tree hok hvalid] at hold
      obtain ⟨hpool, hfree, htab⟩ := hheld.pool hfirst hold rfl
      exact ⟨hpool, hfree, fun {_ p} _ _ => htab p⟩
  have hother : ∀ va, vpnPath va ≠ vpnPath vma → hwWalk m' va 2 root = hwWalk m va 2 root :=
    fun va hva => hchanged.other () va trivial fun hand => hva hand.2
  have hactive : activeRoot m' = root := (activeRoot_congr hchanged.satp).trans h.active
  have hless : ∀ {va x}, hwWalk m' vma 2 root = dropPage (hwWalk m vma 2 root) →
      hwWalk m' va 2 root = some x → hwWalk m va 2 root = some x := by
    intro va x hself hx
    by_cases hva : vpnPath va = vpnPath vma
    · rw [hwWalk_path hva, hself] at hx
      rw [hwWalk_path hva, dropPage_eq_some hx]
    · rw [← hother va hva, hx]
  -- no page goes
  have hkeep : hwWalk m' vma 2 root = dropPage (hwWalk m vma 2 root) →
      hwWalk m' vma 2 root = hwWalk m vma 2 root → cs' = fs.reverse ++ cs →
      free' = free ∪ (fs.map frame).toFinset → Freed root lo hi hlo hhi m₀ cs free m' fs ∧
        HeldPages root lo hi hlo hhi m' (free ∪ (fs.map frame).toFinset) n (nextPage vma) := by
    rintro hself hvma rfl rfl
    have hsame : ∀ va, hwWalk m' va 2 root = hwWalk m va 2 root := by
      intro va
      by_cases hva : vpnPath va = vpnPath vma
      · rw [hwWalk_path hva, hwWalk_path hva, hvma]
      · exact hother va hva
    refine ⟨⟨hchanged.spaces, hactive, fun hx => h.less (hless hself hx), fun pp => ?_⟩,
      hheld.tail (hless hself) (hchanged.old trivial) fun hva hx hlevel => ?_⟩
    · simp only [hsame]
      exact h.mem_iff pp
    · exact (hheld.pool hva (hless hself hx) hlevel).2.1
  rcases hcase with ⟨rfl, hcs, hfree, hnone⟩ | ⟨e, hok, hold, hnew, hfate⟩
  · have hself : hwWalk m' vma 2 root = dropPage (hwWalk m' vma 2 root) := by
      cases hx : hwWalk m' vma 2 root with
      | none => rfl
      | some x =>
        rw [dropPage, Option.filter_some, if_pos (decide_eq_true (level_of_no_table hnone hx))]
    obtain ⟨hfreed, hrest⟩ := hkeep hself rfl hcs hfree
    exact ⟨m', fs, heq, hfreed, hrest, hself, hother⟩
  · change hwWalk m vma 2 root = _ at hold
    change hwWalk m' vma 2 root = _ at hnew
    rcases hfate with ⟨hvalid, hcs, hfree⟩ | ⟨hvalid, rfl, rfl⟩
    · rw [leafOf_invalid hvalid] at hold
      have hself : hwWalk m' vma 2 root = dropPage (hwWalk m vma 2 root) := by
        rw [hold, hnew]
        rfl
      obtain ⟨hfreed, hrest⟩ := hkeep hself (by rw [hold, hnew]) hcs hfree
      exact ⟨m', fs, heq, hfreed, hrest, hself, hother⟩
    · rw [leafOf_tree hok hvalid] at hold
      have hself : hwWalk m' vma 2 root = dropPage (hwWalk m vma 2 root) := by
        rw [hold, hnew]
        rfl
      have hset : free ∪ ((fs ++ [pageptr (ptePpn e)]).map frame).toFinset =
          insert (ptePpn e).toNat (free ∪ (fs.map frame).toFinset) := by
        ext f
        simp only [Finset.mem_union, List.mem_toFinset, List.map_append, List.mem_append,
          List.map_cons, List.map_nil, List.mem_singleton, frame_pageptr, Finset.mem_insert]
        tauto
      have hlist : (fs ++ [pageptr (ptePpn e)]).reverse ++ cs =
          pageptr (ptePpn e) :: (fs.reverse ++ cs) := by
        rw [List.reverse_append]
        rfl
      refine ⟨m', fs ++ [pageptr (ptePpn e)], heq,
        ⟨by rw [hset, hlist]; exact hchanged.spaces, hactive, fun hx => h.less (hless hself hx),
          fun pp => ?_⟩, ?_, hself, hother⟩
      · rw [List.mem_append, List.mem_singleton, h.mem_iff]
        constructor
        · rintro (⟨va, x, hx, hlevel, hpp, hgone⟩ | rfl)
          · refine ⟨va, x, hx, hlevel, hpp, ?_⟩
            cases hx' : hwWalk m' va 2 root with
            | none => rfl
            | some y => rw [hless hself hx'] at hgone; cases hgone
          · exact ⟨vma, _, h.less hold, rfl, rfl, hnew⟩
        · rintro ⟨va, x, hx, hlevel, hpp, hgone⟩
          by_cases hva : vpnPath va = vpnPath vma
          · rw [hwWalk_path hva, h.less hold] at hx
            cases hx
            exact .inr hpp.symm
          · rw [hother va hva] at hgone
            exact .inl ⟨va, x, hx, hlevel, hpp, hgone⟩
      · refine hheld.tail (hless hself) (hchanged.old trivial) fun {va x} hva hx hlevel => ?_
        rw [hset, Finset.mem_insert]
        rintro (hppn | hmem)
        · have hpath := hheld.once hva hfirst (hless hself hx) hold hlevel rfl
            (BitVec.eq_of_toNat_eq hppn)
          rw [hwWalk_path hpath, hnew] at hx
          cases hx
        · exact (hheld.pool hva (hless hself hx) hlevel).2.1 hmem

theorem pagenum_pageptr (n : BitVec 44) : pagenum (pageptr n) = n := by
  apply BitVec.eq_of_toNat_eq
  rw [toNat_pagenum, frame_pageptr]
  exact Nat.mod_eq_of_lt n.isLt

theorem leafOf_leafPte (hrwx : Rwx flags) (n : BitVec 44) :
    leafOf 0 (leafPte (pageptr n) flags) = some ⟨0, n, leafFlags flags⟩ := by
  rw [leafPte, leafOf_rwx hrwx (pteFlags_mkPte _ _), ptePpn_mkPte, pagenum_pageptr]

/-- `map_page` keeps the tree, and sets the translation of the page or changes none. -/
theorem mapPage_tree (h : TableTree lo hi hlo hhi m cs free) (hrwx : Rwx flags) (va : Word)
    (n : BitVec 44) :
    ∃ r m' cs' free', m.mapPage va (pageptr n) flags = some (r, m') ∧
      TableTree lo hi hlo hhi m' cs' free' ∧ free' ⊆ free ∧
      (∀ {p f}, (treeView (activeRoot m) lo hi hlo hhi).reach m' () p = some f →
        (treeView (activeRoot m) lo hi hlo hhi).reach m () p = some f ∨ f ∈ free) ∧
      Within (free ∪ (treeView (activeRoot m) lo hi hlo hhi).nodes m ()) m m' ∧
      (r = 0 ∧ (∀ vb, translate m' (activeRoot m) vb = translate m (activeRoot m) vb) ∨
        r = va ∧ (∀ x, translate m (activeRoot m) va = some x → x.level = 0) ∧
        ∀ vb, translate m' (activeRoot m) vb =
          if wellformed vb = true ∧ vb.toNat / pageSize = va.toNat / pageSize
          then some ⟨0, n, leafFlags flags⟩ else translate m (activeRoot m) vb) := by
  have hdom : (treeView (activeRoot m) lo hi hlo hhi).dom (vpnPath va) := trivial
  obtain ⟨m1, cs', free', hgrown, hcase⟩ :=
    View.Spaces.mapPage_cases h (k := ()) rfl hdom (pageptr n) flags
  have hsame : ∀ vb, translate m1 (activeRoot m) vb = translate m (activeRoot m) vb := fun vb => by
    rw [translate, translate, show hwWalk m1 vb 2 (activeRoot m) = _ from hgrown.walks () vb trivial]
    rfl
  rcases hcase with heq | ⟨pt, hwf, hpt, hreach, heq⟩
  · refine ⟨0, m1, cs', free', heq, ?_, hgrown.subset, hgrown.new trivial, hgrown.within, .inl ⟨rfl, hsame⟩⟩
    rw [TableTree, activeRoot_congr hgrown.within.satp]
    exact hgrown.spaces
  · have hok : (treeView (activeRoot m) lo hi hlo hhi).ok 2 (leafPte (pageptr n) flags) :=
      ok_leaf hrwx (pteFlags_mkPte _ _) 2
    obtain ⟨hkeep, hreached⟩ := hgrown.spaces.keep_leaf hpt hreach hdom _ hok rfl
    have hroot : activeRoot (m1.store pt (vpnIndex 0 va) (leafPte (pageptr n) flags)) = activeRoot m :=
      activeRoot_congr hgrown.within.satp
    have hnode : frame pt ∈ (free ∪ (treeView (activeRoot m) lo hi hlo hhi).nodes m () : Set Nat) :=
      (hgrown.new trivial hreach).symm.imp_right fun hold => ⟨_, trivial, hold⟩
    have hwithin := hgrown.within.trans
      (.store m1 hpt hnode (vpnIndex 0 va).isLt (leafPte (pageptr n) flags))
    refine ⟨va, _, cs', free', heq, by rw [TableTree, hroot]; exact hkeep, hgrown.subset,
      fun hf => hgrown.new trivial (hreached trivial ▸ hf),
      hwithin, .inr ⟨rfl, fun x hx => ?_, fun vb => ?_⟩⟩
    · rw [← hsame, translate, if_pos hwf] at hx
      exact level_of_leafOf ((View.Spaces.walk_leaf hpt hreach).symm.trans hx)
    by_cases hvb : wellformed vb = true ∧ vb.toNat / pageSize = va.toNat / pageSize
    · rw [if_pos hvb, translate, if_pos hvb.1, hwWalk_path (path_eq_of_page hvb.2),
        ← leafOf_leafPte hrwx n]
      exact hgrown.spaces.walk_store_self hpt hreach hdom _
    · rw [if_neg hvb, ← hsame vb, translate, translate]
      cases hwb : wellformed vb with
      | false => rfl
      | true =>
        refine hgrown.spaces.walk_store_other (l := ()) hpt hreach hdom _ trivial fun hpath => ?_
        exact hvb ⟨hwb, page_eq_of_path hwb hwf hpath.2⟩

theorem pageCount_eq (h : Canonical vma size) :
    pageCount size = (size.toNat + (pageSize - 1)) / pageSize := by
  have hlt := size.isLt
  by_cases hover : size.toNat + (pageSize - 1) < 2 ^ 64
  · rw [pageCount, BitVec.toNat_add, BitVec.toNat_ofNat]
    simp only [pageSize] at hover ⊢
    omega
  · -- a range of all pages has addresses that are not canonical
    exfalso
    have hvma := vma.isLt
    have hmiss := h ((2 ^ 39 / pageSize + 2 ^ 52 - vma.toNat / pageSize) % 2 ^ 52) (by
      simp only [pageSize] at hover ⊢
      omega)
    rw [wellformed_iff, toNat_pageAt] at hmiss
    simp only [pageSize] at hmiss
    omega

theorem inRange_iff (hcanon : Canonical vma size) (hva : wellformed va = true) :
    InRange vma size va ↔ ∃ i < pageCount size, vpnPath va = vpnPath (pageAt vma i) := by
  rw [pageCount_eq hcanon]
  constructor
  · rintro ⟨i, hi, hpage⟩
    exact ⟨i, hi, path_eq_of_page hpage⟩
  · rintro ⟨i, hi, hpath⟩
    exact ⟨i, hi, page_eq_of_path hva (hcanon i hi) hpath⟩

/-- The canonical address with the same indices. -/
theorem inRange_rep (hcanon : Canonical vma size)
    (h : ∃ i < pageCount size, vpnPath va = vpnPath (pageAt vma i)) :
    ∃ vb, InRange vma size vb ∧ vpnPath va = vpnPath vb ∧
      ∀ m, translate m root vb = hwWalk m va 2 root := by
  obtain ⟨i, hi, hpath⟩ := h
  have hwf := hcanon i (pageCount_eq hcanon ▸ hi)
  refine ⟨pageAt vma i, (inRange_iff hcanon hwf).mpr ⟨i, hi, rfl⟩, hpath, fun m => ?_⟩
  rw [translate, if_pos hwf, hwWalk_path hpath]

/-- The pages mapped in the range are held: they are pages of the pool that are not free, they
are no tables, and each is mapped once in the range. -/
structure HeldRange (lo hi : Nat) (hlo : 0 < lo) (hhi : hi ≤ 2 ^ 44) (m : Memory)
    (free : Finset Nat) (vma size : Word) : Prop where
  pool : ∀ {va x}, InRange vma size va → translate m (activeRoot m) va = some x → x.level = 0 →
    (lo ≤ x.ppn.toNat ∧ x.ppn.toNat < hi) ∧ x.ppn.toNat ∉ free ∧
      ∀ p, (treeView (activeRoot m) lo hi hlo hhi).reach m () p ≠ some x.ppn.toNat
  once : ∀ {va vb x y}, InRange vma size va → InRange vma size vb →
    translate m (activeRoot m) va = some x → translate m (activeRoot m) vb = some y →
    x.level = 0 → y.level = 0 → x.ppn = y.ppn → va.toNat / pageSize = vb.toNat / pageSize

theorem HeldRange.held (h : HeldRange lo hi hlo hhi m free vma size) (hcanon : Canonical vma size) :
    HeldPages (activeRoot m) lo hi hlo hhi m free (pageCount size) vma := by
  refine ⟨fun hva hx hlevel => ?_, fun hva hvb hx hy hlx hly hppn => ?_⟩
  · obtain ⟨va', hin, -, htr⟩ := inRange_rep hcanon hva
    exact h.pool hin ((htr m).trans hx) hlevel
  · obtain ⟨va', hina, hpa, htra⟩ := inRange_rep hcanon hva
    obtain ⟨vb', hinb, hpb, htrb⟩ := inRange_rep hcanon hvb
    rw [hpa, hpb]
    exact path_eq_of_page (h.once hina hinb ((htra m).trans hx) ((htrb m).trans hy) hlx hly hppn)

/-! ## The three calls -/

end Tree

/-! ## A root table without entries -/

variable {p : List (Fin pteCnt)}

section Barren

variable {lo hi : Nat} {hlo : 0 < lo} {hhi : hi ≤ 2 ^ 44} {m : Memory} {root : Nat}

theorem reach_barren {f : Nat} (hentry : ∀ i, m.entry root i = nullPte)
    (h : Radix.reach (links false) m.entry 0 root p = some f) : f = root := by
  cases p with
  | nil => exact (Option.some.inj h).symm
  | cons i p =>
    rw [reach_cons, hentry, links_null] at h
    cases h

theorem translate_barren (hentry : ∀ i, m.entry root i = nullPte) (va : Word) :
    translate m root va = none := by
  rw [translate]
  split
  case isTrue => exact hwWalk_invalid (by rw [hentry]; decide)
  case isFalse => rfl

theorem tableTree_barren {cs : List Ptr} {free : Finset Nat}
    (hentry : ∀ i, m.entry (activeRoot m) i = nullPte) (hlist : FreeList lo hi m cs free)
    (hroot : activeRoot m ∉ free) : TableTree lo hi hlo hhi m cs free := by
  rw [TableTree]
  generalize activeRoot m = root at hentry hroot ⊢
  refine ⟨hlist, .barren (fun i => ?_) fun i _ hv => ?_, fun _ hf => ?_⟩
  · rw [hentry, links_null]
  · rw [hentry] at hv
    exact absurd hv (by decide)
  · rw [reach_barren hentry hf]
    exact hroot

end Barren

/-- A space with an empty root table in page 1, and the free pages 5 to 7. -/
def emptySpace : Memory := Memory.initChunks ⟨fun _ => 0, 0, 1⟩ 0x5000 0x8000

theorem emptySpace_entry : ∀ i, emptySpace.entry 1 i = nullPte := by
  decide +kernel

theorem emptySpace_reach {f : Nat}
    (h : Radix.reach (links false) emptySpace.entry 0 1 p = some f) : f = 1 :=
  reach_barren emptySpace_entry h

theorem emptySpace_root : activeRoot emptySpace = 1 := by
  decide +kernel

theorem emptySpace_tree :
    ∃ cs, TableTree 2 8 (by decide) (by decide) emptySpace cs (Finset.Ico 5 8) := by
  have hheap : Aligned 0x5000 := by decide
  have hram : Aligned 0x8000 := by decide
  obtain ⟨cs, hlist⟩ := FreeList.initChunks ⟨fun _ => 0, 0, 1⟩ hheap hram (by decide)
  refine ⟨cs, tableTree_barren ?_ (hlist.mono (by decide) (by decide)) ?_⟩
  · rw [emptySpace_root]
    exact emptySpace_entry
  · rw [emptySpace_root]
    decide

end MiniOs
