import MiniOs.Memory.Tables

/-!
# Mapping, changing and unmapping pages

`map_page`, `set_range_flags` and `unmap_and_free_range` change entries of level 0 only, and in a
tree of tables an entry of level 0 belongs to one page of addresses.  So each call changes the
translation of the pages it is for.  The lemmas are about the calls for one page, in any `View`.
-/

namespace MiniOs

open Memory Radix

/-! ## Pages of addresses -/

theorem wellformed_iff {va : Word} :
    wellformed va = true ↔ va.toNat < 2 ^ 38 ∨ 2 ^ 64 - 2 ^ 38 ≤ va.toNat := by
  have hlt := va.isLt
  rw [wellformed]
  simp only [Bool.or_eq_true, decide_eq_true_eq]
  cases hmsb : va.msb with
  | false =>
    have hn := BitVec.msb_eq_false_iff_two_mul_lt.mp hmsb
    rw [BitVec.sshiftRight_eq_of_msb_false hmsb]
    have hs : (va >>> 38).toNat = va.toNat / 2 ^ 38 := by
      rw [BitVec.toNat_ushiftRight, Nat.shiftRight_eq_div_pow]
    rw [← BitVec.toNat_inj, ← BitVec.toNat_inj, BitVec.toNat_add, hs]
    simp only [BitVec.ofNat_eq_ofNat, BitVec.toNat_ofNat]
    omega
  | true =>
    have hn := BitVec.msb_eq_true_iff_two_mul_ge.mp hmsb
    rw [BitVec.sshiftRight_eq_of_msb_true hmsb]
    have hs : (~~~(~~~va >>> 38)).toNat = 2 ^ 64 - 1 - (2 ^ 64 - 1 - va.toNat) / 2 ^ 38 := by
      rw [BitVec.toNat_not, BitVec.toNat_ushiftRight, BitVec.toNat_not, Nat.shiftRight_eq_div_pow]
    rw [← BitVec.toNat_inj, ← BitVec.toNat_inj, BitVec.toNat_add, hs]
    simp only [BitVec.ofNat_eq_ofNat, BitVec.toNat_ofNat]
    omega

theorem page_eq_of_path {va va' : Word} (h : wellformed va = true) (h' : wellformed va' = true)
    (hpath : vpnPath va = vpnPath va') : va.toNat / pageSize = va'.toNat / pageSize := by
  rw [wellformed_iff] at h h'
  simp only [vpnPath, vpnPathFrom, List.cons.injEq, vpnIndex, Fin.mk.injEq, and_true,
    Nat.shiftRight_eq_div_pow, pageSize, pteCnt] at hpath ⊢
  omega

theorem path_eq_of_page {va va' : Word} (h : va.toNat / pageSize = va'.toNat / pageSize) :
    vpnPath va = vpnPath va' := by
  simp only [vpnPath, vpnPathFrom, vpnIndex, h]

namespace Memory

/-- The address `i` pages on. -/
def pageAt (vma : Word) (i : Nat) : Word := vma + BitVec.ofNat 64 (pageSize * i)

theorem pageAt_zero (vma : Word) : pageAt vma 0 = vma := BitVec.add_zero vma

theorem pageAt_succ (vma : Word) (i : Nat) : pageAt vma (i + 1) = pageAt (nextPage vma) i := by
  apply BitVec.eq_of_toNat_eq
  simp only [pageAt, nextPage, BitVec.toNat_add, BitVec.toNat_ofNat, pageSize]
  omega

theorem toNat_pageAt (vma : Word) (i : Nat) :
    (pageAt vma i).toNat = (vma.toNat + pageSize * i) % 2 ^ 64 := by
  simp only [pageAt, BitVec.toNat_add, BitVec.toNat_ofNat, pageSize]
  omega

end Memory

/-! ## Entries of level 0 -/

/-- The flags of the entry of a mapped page. -/
abbrev leafFlags (flags : BitVec 8) : BitVec 8 := flags ||| PTE_A ||| PTE_D ||| PTE_V

/-- The flags make an entry a leaf. -/
abbrev Rwx (flags : BitVec 8) : Prop := flags &&& (PTE_R ||| PTE_W ||| PTE_X) ≠ 0

theorem leafFlags_valid : ∀ flags : BitVec 8, leafFlags flags &&& PTE_V ≠ 0 := by
  decide +kernel

theorem leafFlags_rwx : ∀ flags : BitVec 8, Rwx flags → Rwx (leafFlags flags) := by
  decide +kernel

variable {flags : BitVec 8}

theorem leafOf_rwx {level : Nat} {e : Word} (h : Rwx flags) (he : pteFlags e = leafFlags flags) :
    leafOf level e = some ⟨level, ptePpn e, leafFlags flags⟩ := by
  have hvalid : pteValid e = true := by
    rw [pteValid, he]
    exact decide_eq_true (leafFlags_valid flags)
  have hleaf : pteLeaf e = true := by
    rw [pteLeaf, he]
    exact decide_eq_true (leafFlags_rwx flags h)
  rw [leafOf, if_pos ⟨hvalid, hleaf⟩, he]

namespace View

namespace Spaces

variable {K : Type} {v : View K} {m m' : Memory} {cs : List Ptr} {free : Finset Nat} {k l : K}
  {p : List (Fin pteCnt)} {va vb : Word} {pt : Ptr}

section Leaf

variable (h : v.Spaces m cs free) (hpt : Aligned pt)
  (hreach : v.reach m k [vpnIndex 2 va, vpnIndex 1 va] = some (frame pt))
  (hdom : v.dom (vpnPath va)) (w : Word)

include hpt hreach in
/-- The hardware's walk ends at the entry that `walk` finds. -/
theorem walk_leaf : hwWalk m va 2 (v.root k) = leafOf 0 (m.load pt (vpnIndex 0 va)) := by
  have hpath : vpnPathFrom 2 va = [vpnIndex 2 va, vpnIndex 1 va] ++ [vpnIndex 0 va] := rfl
  rw [hwWalk_reach rfl hpath (Nat.le_refl 2) hreach, hpt.load_entry]
  rfl

include hpt hreach in
theorem reach_leaf : v.reach m k (vpnPath va) = links v.pages 2 (m.load pt (vpnIndex 0 va)) := by
  have hconcat := v.reach_concat m k [vpnIndex 2 va, vpnIndex 1 va] (vpnIndex 0 va)
  rw [hreach, Option.bind_some, ← hpt.load_entry] at hconcat
  exact hconcat

include h hpt hreach hdom

theorem reach_store_table :
    v.reach (m.store pt (vpnIndex 0 va) w) k [vpnIndex 2 va, vpnIndex 1 va] = some (frame pt) :=
  h.forest.reach_table hdom hreach fun _ _ _ _ _ _ hne => entry_store_ne hpt w hne

theorem walk_store_self :
    hwWalk (m.store pt (vpnIndex 0 va) w) va 2 (v.root k) = leafOf 0 w := by
  rw [walk_leaf hpt (h.reach_store_table hpt hreach hdom w), load_store_self]

theorem walk_store_other (hvb : v.dom (vpnPath vb)) (hne : ¬ (l = k ∧ vpnPath vb = vpnPath va)) :
    hwWalk (m.store pt (vpnIndex 0 va) w) vb 2 (v.root l) = hwWalk m vb 2 (v.root l) := by
  refine hwWalk_congr rfl (h.agree_store hpt hreach hdom w hvb ?_)
  rintro ⟨hl, hpre⟩
  exact hne ⟨hl, (hpre.eq_of_length rfl).symm⟩

/-- The entry keeps its link. -/
theorem keep_leaf (hok : v.ok 2 w)
    (hlink : links v.pages 2 w = links v.pages 2 (m.load pt (vpnIndex 0 va))) :
    v.Spaces (m.store pt (vpnIndex 0 va) w) cs free ∧
      ∀ {l p}, v.dom p → v.reach (m.store pt (vpnIndex 0 va) w) l p = v.reach m l p := by
  have hentry : (m.store pt (vpnIndex 0 va) w).entry (frame pt) (vpnIndex 0 va) = w :=
    entry_store_self hpt _ w
  obtain ⟨hforest, hsame⟩ := h.forest.keep hdom hreach
    (fun _ _ _ _ _ _ hne => entry_store_ne hpt w hne) (by rw [hentry]; exact hok)
    (by rw [hentry, ← hpt.load_entry]; exact hlink)
  refine ⟨⟨h.list_store hpt hreach hdom w, hforest, fun hp hf => ?_⟩, hsame _ _⟩
  rw [reach, hsame _ _ hp] at hf
  exact h.kept hp hf

/-- The entry links to nothing afterwards. -/
theorem cut_leaf (hok : v.ok 2 w) (hlink : links v.pages 2 w = none) :
    v.Spaces (m.store pt (vpnIndex 0 va) w) cs free ∧
      ∀ {l p f}, v.dom p → v.reach (m.store pt (vpnIndex 0 va) w) l p = some f →
        v.reach m l p = some f ∧ ¬ (l = k ∧ p = vpnPath va) := by
  have hentry : (m.store pt (vpnIndex 0 va) w).entry (frame pt) (vpnIndex 0 va) = w :=
    entry_store_self hpt _ w
  have hstore : ∀ l p g j, v.dom (p ++ [j]) → v.reach m l p = some g →
      (g = frame pt → j ≠ vpnIndex 0 va) →
      (m.store pt (vpnIndex 0 va) w).entry g j = m.entry g j :=
    fun _ _ _ _ _ _ hne => entry_store_ne hpt w hne
  have hforest := h.forest.cut hdom hreach hstore (by rw [hentry]; exact hok)
    (by rw [hentry]; exact hlink)
  have hold : ∀ {l p f}, v.dom p → v.reach (m.store pt (vpnIndex 0 va) w) l p = some f →
      v.reach m l p = some f ∧ ¬ (l = k ∧ p = vpnPath va) := by
    intro l p f hp hf
    by_cases hthr : l = k ∧ [vpnIndex 2 va, vpnIndex 1 va] ++ [vpnIndex 0 va] <+: p
    · obtain ⟨rfl, r, rfl⟩ := hthr
      rw [List.append_assoc, List.singleton_append, reach,
        h.forest.reach_through hdom hreach hstore, reach_cons, hentry] at hf
      rw [show links v.pages (0 + [vpnIndex 2 va, vpnIndex 1 va].length) w = none from hlink] at hf
      cases hf
    · rw [reach, (h.agree_store hpt hreach hdom w hp hthr).reach_eq] at hf
      refine ⟨hf, ?_⟩
      rintro ⟨rfl, rfl⟩
      exact hthr ⟨rfl, List.prefix_rfl⟩
  exact ⟨⟨h.list_store hpt hreach hdom w, hforest, fun hp hf => h.kept hp (hold hp hf).1⟩, hold⟩

end Leaf

/-! ## One page -/

/-- The entry for `va` in space `k` has changed, and what was reached is at most less. -/
structure Changed (v : View K) (k : K) (va : Word) (m m' : Memory) (cs' : List Ptr)
    (free' : Finset Nat) : Prop where
  spaces : v.Spaces m' cs' free'
  satp : m'.satp = m.satp
  old : ∀ {l p f}, v.dom p → v.reach m' l p = some f → v.reach m l p = some f
  other : ∀ l vb, v.dom (vpnPath vb) → ¬ (l = k ∧ vpnPath vb = vpnPath va) →
    hwWalk m' vb 2 (v.root l) = hwWalk m vb 2 (v.root l)

theorem Changed.refl (h : v.Spaces m cs free) (k : K) (va : Word) : Changed v k va m m cs free :=
  ⟨h, rfl, fun _ hf => hf, fun _ _ _ _ => rfl⟩

section Page

variable (h : v.Spaces m cs free) (hactive : frame m.activeSpacePtab = v.root k)
  (hdom : v.dom (vpnPath va))

include h hactive hdom

theorem walk_false :
    (m.walk va false = some (none, m) ∧ v.reach m k [vpnIndex 2 va, vpnIndex 1 va] = none) ∨
      ∃ pt, m.walk va false = some (some pt, m) ∧ Aligned pt ∧
        v.reach m k [vpnIndex 2 va, vpnIndex 1 va] = some (frame pt) := by
  obtain ⟨r, m', cs', free', heq, -, hsame, hal, hr⟩ := h.walk hactive hdom false
  rw [hsame rfl] at heq hr
  cases r with
  | none => exact .inl ⟨heq, hr.symm⟩
  | some pt => exact .inr ⟨pt, heq, hal pt rfl, hr.symm⟩

/-- One turn of the loop of `unmap_and_free_range`. -/
theorem unmapPage
    (hpage : ∀ e, v.ok 2 e → hwWalk m va 2 (v.root k) = leafOf 0 e →
      v.reach m k (vpnPath va) = links v.pages 2 e → pteValid e = true →
      (v.lo ≤ (ptePpn e).toNat ∧ (ptePpn e).toNat < v.hi) ∧ (ptePpn e).toNat ∉ free ∧
        ∀ {l p}, v.dom p → ¬ (l = k ∧ p = vpnPath va) → v.reach m l p ≠ some (ptePpn e).toNat) :
    ∃ m' cs' free', m.unmapPage va = some m' ∧ Changed v k va m m' cs' free' ∧
      ((m' = m ∧ cs' = cs ∧ free' = free ∧
          v.reach m k [vpnIndex 2 va, vpnIndex 1 va] = none) ∨
        ∃ e, v.ok 2 e ∧ hwWalk m va 2 (v.root k) = leafOf 0 e ∧ hwWalk m' va 2 (v.root k) = none ∧
          (pteValid e = false ∧ cs' = cs ∧ free' = free ∨
            pteValid e = true ∧ cs' = pageptr (ptePpn e) :: cs ∧
              free' = insert (ptePpn e).toNat free)) := by
  rcases h.walk_false hactive hdom with ⟨heq, hnone⟩ | ⟨pt, heq, hpt, hreach⟩
  · exact ⟨m, cs, free, by rw [Memory.unmapPage, heq]; rfl, .refl h k va,
      .inl ⟨rfl, rfl, rfl, hnone⟩⟩
  have hoke : v.ok 2 (m.load pt (vpnIndex 0 va)) := by
    rw [hpt.load_entry]
    exact h.forest.ok hdom hreach
  have hleaf := walk_leaf hpt hreach
  cases hvalid : pteValid (m.load pt (vpnIndex 0 va)) with
  | false =>
    refine ⟨m, cs, free, ?_, .refl h k va, .inr ⟨_, hoke, hleaf, ?_, .inl ⟨hvalid, rfl, rfl⟩⟩⟩
    · simp only [Memory.unmapPage, heq, Option.map_some, hvalid, Bool.false_eq_true, if_false]
    · rw [hleaf, leafOf_invalid hvalid]
  | true =>
    obtain ⟨hpool, hfree, hother⟩ := hpage _ hoke hleaf (reach_leaf hpt hreach) hvalid
    obtain ⟨hcut, hold⟩ := h.cut_leaf hpt hreach hdom nullPte (v.ok_null 2) (links_null _ _)
    -- the page is on no path any more, so the free list may have it
    have hout : ∀ {l p f}, v.dom p → v.reach (m.store pt (vpnIndex 0 va) nullPte) l p = some f →
        f ∉ ({(ptePpn (m.load pt (vpnIndex 0 va))).toNat} : Set Nat) := by
      rintro l p f hp hf hmem
      obtain ⟨hf, hne⟩ := hold hp hf
      exact hother hp hne (Set.mem_singleton_iff.mp hmem ▸ hf)
    rw [← frame_pageptr] at hpool hfree hout
    obtain ⟨hlist, hwithin⟩ := hcut.list.freePhysPage v.lo_pos (aligned_pageptr _) hpool hfree
    obtain ⟨hspaces, hagree⟩ := hcut.congr hwithin hout hlist fun f hf => by
      rw [Finset.mem_insert] at hf
      exact hf.symm
    refine ⟨_, _, _, ?_, ⟨hspaces, hwithin.satp, fun {l p f} hp hf => ?_,
      fun l vb hvb hne => ?_⟩, .inr ⟨_, hoke, hleaf, ?_, .inr ⟨hvalid, rfl, by rw [frame_pageptr]⟩⟩⟩
    · simp only [Memory.unmapPage, heq, Option.map_some, hvalid, if_true]
    · rw [reach, (hagree l p hp).reach_eq] at hf
      exact (hold hp hf).1
    · rw [hwWalk_congr rfl (hagree l _ hvb)]
      exact h.walk_store_other hpt hreach hdom _ hvb hne
    · rw [hwWalk_congr rfl (hagree k _ hdom), h.walk_store_self hpt hreach hdom]
      exact leafOf_invalid pteValid_null

/-- `map_page` fails, at most with more tables, or stores the entry. -/
theorem mapPage_cases (pp : Ptr) (flags : BitVec 8) :
    ∃ m1 cs' free', v.Grown k m free m1 cs' free' ∧
      (m.mapPage va pp flags = some (0, m1) ∨
        ∃ pt, wellformed va = true ∧ Aligned pt ∧
          v.reach m1 k [vpnIndex 2 va, vpnIndex 1 va] = some (frame pt) ∧
          m.mapPage va pp flags =
            some (va, m1.store pt (vpnIndex 0 va) (leafPte pp flags))) := by
  by_cases hbad : wellformed va = false ∨ va.toNat % pageSize ≠ 0
  · exact ⟨m, cs, free, .refl h k, .inl (by rw [Memory.mapPage, if_pos hbad])⟩
  · obtain ⟨r, m1, cs', free', heq, hgrown, -, hal, hr⟩ := h.walk hactive hdom true
    refine ⟨m1, cs', free', hgrown, ?_⟩
    cases r with
    | none =>
      left
      rw [Memory.mapPage, if_neg hbad, heq]
      rfl
    | some pt =>
      refine .inr ⟨pt, by simpa using (not_or.mp hbad).1, hal pt rfl, hr.symm, ?_⟩
      rw [Memory.mapPage, if_neg hbad, heq]
      rfl

end Page

end Spaces

end View

end MiniOs
