import MiniOs.Base.MemProg
import MiniOs.Memory.Fault

/-!
# The kernel's accesses to user memory

The kernel loads and stores user bytes through the active space, with the bit `SUM` set.  An access
that the tables do not permit traps; the trap is handled by `handle_umode_page_fault` and the access
is made again, or the kernel panics and there is no next state.

User memory of a process is made of pages of its own that may be read and written: all that map such
pages are `process_exec` and the handler.  Then what the kernel does to it is what it does to a memory
of bytes in which an unmapped page reads as zeros, and the pages that are mapped afterwards are those
mapped before and those touched.
-/

namespace MiniOs

open Memory Radix

/-! ## Bytes of a word -/

/-- Byte `k` of a word. -/
def byteOf (w : Word) (k : Nat) : UInt8 := ⟨w.extractLsb' (8 * k) 8⟩

/-- The word with byte `k` replaced. -/
def setByte (w : Word) (k : Nat) (b : UInt8) : Word :=
  (w &&& ~~~(255#64 <<< (8 * k))) ||| (b.toBitVec.setWidth 64 <<< (8 * k))

theorem getLsbD_255 (n : Nat) : (255#64).getLsbD n = decide (n < 8) := by
  rw [BitVec.getLsbD_ofNat]
  have h := Nat.testBit_two_pow_sub_one 8 n
  norm_num at h
  rw [h]
  by_cases hn : n < 8
  · simp [hn]
    omega
  · simp [hn]

theorem byteOf_setByte_self {k : Nat} (hk : k < 8) (w : Word) (b : UInt8) :
    byteOf (setByte w k b) k = b := by
  have hbits : (setByte w k b).extractLsb' (8 * k) 8 = b.toBitVec := by
    refine BitVec.eq_of_getLsbD_eq fun i hi => ?_
    have hlt : 8 * k + i < 64 := by omega
    have hle : ¬ 8 * k + i < 8 * k := by omega
    simp [setByte, getLsbD_255, hi, hlt, hle]
  rw [byteOf, hbits]

theorem byteOf_setByte_ne {j k : Nat} (hj : j < 8) (hne : j ≠ k) (w : Word) (b : UInt8) :
    byteOf (setByte w k b) j = byteOf w j := by
  have hbits : (setByte w k b).extractLsb' (8 * j) 8 = w.extractLsb' (8 * j) 8 := by
    refine BitVec.eq_of_getLsbD_eq fun i hi => ?_
    have hlt : 8 * j + i < 64 := by omega
    rw [setByte, BitVec.getLsbD_extractLsb', BitVec.getLsbD_extractLsb', BitVec.getLsbD_or,
      BitVec.getLsbD_and, BitVec.getLsbD_not, BitVec.getLsbD_shiftLeft, BitVec.getLsbD_shiftLeft,
      getLsbD_255, BitVec.getLsbD_setWidth]
    by_cases hlow : 8 * j + i < 8 * k
    · simp [hlow, hlt, hi]
    · have hhigh : ¬ 8 * j + i - 8 * k < 8 := by omega
      have hout : b.toBitVec.getLsbD (8 * j + i - 8 * k) = false :=
        BitVec.getLsbD_of_ge _ _ (by omega)
      simp [hlow, hhigh, hlt, hi, hout]
  rw [byteOf, byteOf, hbits]

theorem byteOf_null (k : Nat) : byteOf nullPte k = 0 := by
  have hbits : (0#64).extractLsb' (8 * k) 8 = 0#8 := by
    refine BitVec.eq_of_getLsbD_eq fun i hi => ?_
    simp
  rw [byteOf, nullPte]
  exact congrArg UInt8.ofBitVec hbits

/-! ## Accesses -/

/-- The flags of the page permit what is needed. -/
def permits (need : BitVec 8) (x : Translation) : Bool := x.flags &&& need = need

/-- The translation that an access of the kernel gets, and the memory with it: a page fault is
handled and the access made again. -/
def access (m : Memory) (va : Word) (need : BitVec 8) : Option (Translation × Memory) :=
  match (translate m (activeRoot m) va).filter (permits need) with
  | some x => some (x, m)
  | none =>
      (m.handleUmodePageFault va).bind fun (done, m) =>
        if done then ((translate m (activeRoot m) va).filter (permits need)).map (·, m) else none

/-- The kernel's loads and stores. -/
def paged : ByteMachine Memory where
  load m va := (access m va PTE_R).map fun (x, m) =>
    (byteOf (m.word (physWord x va)) (va.toNat % 8), m)
  store m va b := (access m va (PTE_R ||| PTE_W)).map fun (x, m) =>
    { m with
      word := Function.update m.word (physWord x va)
        (setByte (m.word (physWord x va)) (va.toNat % 8) b) }

/-- User memory as the kernel sees it; a page that is not mapped reads as zeros. -/
def userView (m : Memory) : ByteMem := fun va =>
  ((translate m (activeRoot m) va).map fun x => byteOf (m.word (physWord x va)) (va.toNat % 8)).getD 0

/-- User memory of the active space is made of pages that may be read and written, that are neither
free nor tables, and each of which is mapped once; behind user memory nothing is mapped. -/
structure UserPages (lo hi : Nat) (hlo : 0 < lo) (hhi : hi ≤ 2 ^ 44) (m : Memory) (cs : List Ptr)
    (free : Finset Nat) : Prop where
  tree : TableTree lo hi hlo hhi m cs free
  small : ∀ {va x}, IsUser va → translate m (activeRoot m) va = some x → x.level = 0
  writable : ∀ {va x}, IsUser va → translate m (activeRoot m) va = some x →
    permits (PTE_R ||| PTE_W) x = true
  held : ∀ {va x}, IsUser va → translate m (activeRoot m) va = some x →
    (lo ≤ x.ppn.toNat ∧ x.ppn.toNat < hi) ∧ x.ppn.toNat ∉ free ∧
      x.ppn.toNat ∉ tables (activeRoot m) m
  once : ∀ {va vb x y}, IsUser va → IsUser vb → translate m (activeRoot m) va = some x →
    translate m (activeRoot m) vb = some y → x.ppn = y.ppn →
    va.toNat / pageSize = vb.toNat / pageSize
  above : ∀ va : Word, umemEnd ≤ va.toNat → translate m (activeRoot m) va = none

section Pages

variable {lo hi : Nat} {hlo : 0 < lo} {hhi : hi ≤ 2 ^ 44} {m m' m'' : Memory} {cs cs' cs'' : List Ptr}
  {free free' free'' : Finset Nat} {va vb : Word} {flags need : BitVec 8} {x y : Translation} {b : UInt8}
  {t t' : List Access}

/-- The addresses of a page of user memory have the same translation. -/
theorem translate_samePage (hva : IsUser va) (hvb : IsUser vb)
    (h : va.toNat / pageSize = vb.toNat / pageSize) (m : Memory) (root : Nat) :
    translate m root va = translate m root vb := by
  rw [translate, translate, if_pos hva.wellformed, if_pos hvb.wellformed,
    UserSpaces.hwWalk_page m 2 root h]

theorem IsUser.samePage (h : IsUser va) (hpage : vb.toNat / pageSize = va.toNat / pageSize) :
    IsUser vb := by
  simp only [IsUser, umemStart, umemEnd, pageSize] at h hpage ⊢
  omega

theorem userView_of_translate (h : translate m (activeRoot m) va = some x) :
    userView m va = byteOf (m.word (physWord x va)) (va.toNat % 8) := by
  rw [userView, h]
  rfl

theorem userView_of_unmapped (h : translate m (activeRoot m) va = none) : userView m va = 0 := by
  rw [userView, h]
  rfl

/-- Two addresses of pages of 4 KB that are in the same word. -/
theorem physWord_small (hx : x.level = 0) : physWord x va = pteCnt * x.ppn.toNat + va.toNat % pageSize / 8 := by
  rw [physWord, physPage_small hx]

namespace UserPages

section

variable (h : UserPages lo hi hlo hhi m cs free)

include h

/-- An empty page put at an address of user memory. -/
theorem placed (hva : IsUser va) (hflags : leafFlags flags &&& (PTE_R ||| PTE_W) = PTE_R ||| PTE_W)
    (hp : Placed lo hi hlo hhi m free va flags true m' cs' free') :
    UserPages lo hi hlo hhi m' cs' free' ∧
      ∀ vb, IsUser vb → userView m' vb =
        if vb.toNat / pageSize = va.toNat / pageSize then 0 else userView m vb := by
  obtain ⟨n, hmem, hn, hntab, hzero, -, hset⟩ := hp.placed rfl
  have hroot : activeRoot m' = activeRoot m := activeRoot_congr hp.within.satp
  -- a user address has the new page or a page that it had
  have hcase : ∀ {vb x}, IsUser vb → translate m' (activeRoot m') vb = some x →
      vb.toNat / pageSize = va.toNat / pageSize ∧ x = ⟨0, n, leafFlags flags⟩ ∨
        vb.toNat / pageSize ≠ va.toNat / pageSize ∧ translate m (activeRoot m) vb = some x := by
    intro vb x hvb hx
    rw [hroot, hset] at hx
    by_cases hpage : vb.toNat / pageSize = va.toNat / pageSize
    · rw [if_pos ⟨hvb.wellformed, hpage⟩] at hx
      exact .inl ⟨hpage, (Option.some.inj hx).symm⟩
    · rw [if_neg fun hand => hpage hand.2] at hx
      exact .inr ⟨hpage, hx⟩
  refine ⟨⟨hp.tree, ?_, ?_, ?_, ?_, ?_⟩, ?_⟩
  · intro vb x hvb hx
    rcases hcase hvb hx with ⟨-, rfl⟩ | ⟨-, hold⟩
    · rfl
    · exact h.small hvb hold
  · intro vb x hvb hx
    rcases hcase hvb hx with ⟨-, rfl⟩ | ⟨-, hold⟩
    · exact decide_eq_true hflags
    · exact h.writable hvb hold
  · intro vb x hvb hx
    rw [hroot]
    rcases hcase hvb hx with ⟨-, rfl⟩ | ⟨-, hold⟩
    · exact ⟨h.tree.list.bounds hmem, hn, hntab⟩
    · obtain ⟨hbounds, hfree, htab⟩ := h.held hvb hold
      exact ⟨hbounds, fun hf => hfree (hp.subset hf), fun ⟨p, hf⟩ => (hp.more hf).elim (fun hold => htab ⟨p, hold⟩) hfree⟩
  · intro vb vc x y hvb hvc hx hy hppn
    rcases hcase hvb hx with ⟨hb, rfl⟩ | ⟨-, hold⟩ <;> rcases hcase hvc hy with ⟨hc, rfl⟩ | ⟨-, hold'⟩
    · exact hb.trans hc.symm
    · exact absurd (hppn ▸ hmem) (h.held hvc hold').2.1
    · exact absurd (hppn ▸ hmem) (h.held hvb hold).2.1
    · exact h.once hvb hvc hold hold' hppn
  · intro vb hvb
    rw [hroot, hset, if_neg, h.above vb hvb]
    rintro ⟨-, hpage⟩
    have hlt := hva.2
    simp only [pageSize, umemEnd] at hpage hlt hvb
    omega
  · intro vb hvb
    rw [userView, hroot, hset]
    by_cases hpage : vb.toNat / pageSize = va.toNat / pageSize
    · rw [if_pos ⟨hvb.wellformed, hpage⟩, if_pos hpage, Option.map_some, Option.getD_some,
        physWord_small rfl]
      have hlt : vb.toNat % pageSize / 8 < pteCnt := by
        simp only [pageSize, pteCnt]
        omega
      have hword : m'.word (pteCnt * n.toNat + vb.toNat % pageSize / 8) = nullPte := hzero ⟨_, hlt⟩
      rw [hword, byteOf_null]
    · rw [if_neg fun hand => hpage hand.2, if_neg hpage, userView]
      cases hx : translate m (activeRoot m) vb with
      | none => rfl
      | some x =>
        obtain ⟨-, hfree, htab⟩ := h.held hvb hx
        have hword : m'.word (physWord x vb) = m.word (physWord x vb) := by
          refine hp.within.word _ ?_
          rw [physWord_div, physPage_small (h.small hvb hx)]
          exact fun hin => hin.elim hfree htab
        rw [Option.map_some, Option.map_some, hword]

/-- A byte stored in a page of user memory. -/
theorem stored (hva : IsUser va) (hx : translate m (activeRoot m) va = some x) (b : UInt8) :
    let m' := { m with
      word := Function.update m.word (physWord x va)
        (setByte (m.word (physWord x va)) (va.toNat % 8) b) }
    UserPages lo hi hlo hhi m' cs free ∧
      (∀ vb, translate m' (activeRoot m) vb = translate m (activeRoot m) vb) ∧
      ∀ vb, IsUser vb → userView m' vb = Function.update (userView m) va b vb := by
  intro m'
  obtain ⟨-, hfree, htab⟩ := h.held hva hx
  have hframe : physWord x va / pteCnt = x.ppn.toNat := by
    rw [physWord_div, physPage_small (h.small hva hx)]
  have hwithin : Within {x.ppn.toNat} m m' := by
    refine ⟨fun j hj => Function.update_of_ne ?_ _ _, rfl⟩
    rintro rfl
    exact hj hframe
  have hlist : FreeList lo hi m' cs free := h.tree.list.within hwithin rfl hfree
  obtain ⟨htree, hreach, htr⟩ := h.tree.congr hwithin
    (by rintro f hf rfl; exact htab hf) hlist fun f hf => .inl hf
  have hroot : activeRoot m' = activeRoot m := rfl
  refine ⟨⟨htree, ?_, ?_, ?_, ?_, ?_⟩, htr, fun vb hvb => ?_⟩
  · intro vb y hvb hy
    rw [hroot, htr] at hy
    exact h.small hvb hy
  · intro vb y hvb hy
    rw [hroot, htr] at hy
    exact h.writable hvb hy
  · intro vb y hvb hy
    rw [hroot, htr] at hy
    rw [hroot, tables_congr hreach]
    exact h.held hvb hy
  · intro vb vc y z hvb hvc hy hz
    rw [hroot, htr] at hy hz
    exact h.once hvb hvc hy hz
  · intro vb hvb
    rw [hroot, htr]
    exact h.above vb hvb
  · have hview : userView m' vb = ((translate m (activeRoot m) vb).map fun y =>
        byteOf (m'.word (physWord y vb)) (vb.toNat % 8)).getD 0 := by
      rw [userView, hroot, htr]
    rw [hview]
    by_cases heq : vb = va
    · subst heq
      rw [hx, Option.map_some, Option.getD_some, Function.update_self]
      change byteOf (Function.update m.word _ _ _) _ = _
      rw [Function.update_self, byteOf_setByte_self (Nat.mod_lt _ (by decide))]
    · rw [Function.update_of_ne heq, userView]
      cases hy : translate m (activeRoot m) vb with
      | none => rfl
      | some y =>
        rw [Option.map_some, Option.map_some, Option.getD_some, Option.getD_some]
        change byteOf (Function.update m.word _ _ _) _ = _
        by_cases hword : physWord y vb = physWord x va
        · -- the same word of the same page, so another byte of it
          have hppn : y.ppn = x.ppn := by
            have hdiv := congrArg (· / pteCnt) hword
            simp only [physWord_div, physPage_small (h.small hva hx), physPage_small (h.small hvb hy)] at hdiv
            exact BitVec.eq_of_toNat_eq hdiv
          have hpage := h.once hvb hva hy hx hppn
          have hoff : vb.toNat % pageSize / 8 = va.toNat % pageSize / 8 := by
            rw [physWord_small (h.small hva hx), physWord_small (h.small hvb hy), hppn] at hword
            exact Nat.add_left_cancel hword
          have hbyte : vb.toNat % 8 ≠ va.toNat % 8 := by
            intro hmod
            refine heq (BitVec.eq_of_toNat_eq ?_)
            simp only [pageSize] at hpage hoff
            omega
          rw [hword, Function.update_self, byteOf_setByte_ne (Nat.mod_lt _ (by decide)) hbyte]
        · rw [Function.update_of_ne hword]

/-- A page of user memory is unmapped and freed. -/
theorem unmap (hva : IsUser va) (hx : translate m (activeRoot m) va = some x) :
    ∃ m' cs', m.unmapPage va = some m' ∧ m'.satp = m.satp ∧
      UserPages lo hi hlo hhi m' cs' (insert x.ppn.toNat free) ∧
      (∀ vb, IsUser vb → translate m' (activeRoot m) vb =
        if vb.toNat / pageSize = va.toNat / pageSize then none else translate m (activeRoot m) vb) ∧
      ∀ vb, IsUser vb → vb.toNat / pageSize ≠ va.toNat / pageSize → userView m' vb = userView m vb := by
  obtain ⟨hbounds, hfree, htab⟩ := h.held hva hx
  have hlevel := h.small hva hx
  have hwalk : hwWalk m va 2 (activeRoot m) = some x := by
    rwa [translate, if_pos hva.wellformed] at hx
  obtain ⟨t, hreach⟩ := reach_of_level hwalk hlevel
  obtain ⟨pt, hfound, hpt, rfl⟩ := walk_found hreach false
  have hleaf : leafOf 0 (m.load pt (vpnIndex 0 va)) = some x :=
    (View.Spaces.walk_leaf (v := treeView (activeRoot m) lo hi hlo hhi) (k := ()) hpt hreach).symm.trans hwalk
  have hppn : ∀ {e}, leafOf 0 e = some x → pteValid e = true ∧ ptePpn e = x.ppn := by
    intro e he
    rw [leafOf] at he
    split at he
    case isTrue hand =>
      cases he
      exact ⟨hand.1, rfl⟩
    case isFalse => cases he
  have hdom : (treeView (activeRoot m) lo hi hlo hhi).dom (vpnPath va) := trivial
  obtain ⟨m', cs', free', heq, hchanged, hcase⟩ := View.Spaces.unmapPage h.tree (k := ()) rfl hdom
    (by
      intro e _ he _ _
      rw [(hppn (he.symm.trans hwalk)).2]
      exact ⟨hbounds, hfree, fun {l p} _ _ hp => htab ⟨p, hp⟩⟩)
  have hroot : activeRoot m' = activeRoot m := activeRoot_congr hchanged.satp
  have hgone : hwWalk m' va 2 (activeRoot m) = none ∧ free' = insert x.ppn.toNat free := by
    rcases hcase with ⟨-, -, -, hno⟩ | ⟨e, -, he, hnone, hinv | hval⟩
    · have hno' : reach (links false) m.entry 0 (activeRoot m) [vpnIndex 2 va, vpnIndex 1 va] = none := hno
      rw [hreach] at hno'
      cases hno'
    · have hvalid := (hppn (he.symm.trans hwalk)).1
      rw [hinv.1] at hvalid
      cases hvalid
    · rw [(hppn (he.symm.trans hwalk)).2] at hval
      exact ⟨hnone, hval.2.2⟩
  obtain ⟨hnone, rfl⟩ := hgone
  have htr : ∀ vb, IsUser vb → translate m' (activeRoot m) vb =
      if vb.toNat / pageSize = va.toNat / pageSize then none else translate m (activeRoot m) vb := by
    intro vb hvb
    by_cases hpage : vb.toNat / pageSize = va.toNat / pageSize
    · rw [if_pos hpage, translate, if_pos hvb.wellformed, UserSpaces.hwWalk_page m' 2 _ hpage, hnone]
    · rw [if_neg hpage, translate, translate, if_pos hvb.wellformed, if_pos hvb.wellformed]
      refine hchanged.other () vb trivial fun hand => hpage ?_
      exact page_eq_of_path hvb.wellformed hva.wellformed hand.2
  have hold : ∀ {vb y}, IsUser vb → translate m' (activeRoot m') vb = some y →
      vb.toNat / pageSize ≠ va.toNat / pageSize ∧ translate m (activeRoot m) vb = some y := by
    intro vb y hvb hy
    rw [hroot, htr vb hvb] at hy
    split at hy
    case isTrue => cases hy
    case isFalse hpage => exact ⟨hpage, hy⟩
  -- what is written is the table's entry and the header of the freed page
  have hwithin : Within {frame pt, x.ppn.toNat} m m' := by
    obtain ⟨hvalid, hframe⟩ := hppn hleaf
    simp only [unmapPage, hfound, Option.map_some, hvalid, if_true, Option.some.injEq] at heq
    rw [← heq, hframe]
    refine (Within.store m hpt (Set.mem_insert _ _) (vpnIndex 0 va).isLt nullPte).trans ?_
    refine (FreeList.within_freePhysPages _ (aligned_pageptr _) 1).mono ?_
    rw [frame_pageptr]
    exact Set.singleton_subset_iff.mpr (Set.mem_insert_of_mem _ rfl)
  refine ⟨m', cs', heq, hchanged.satp, ⟨?_, ?_, ?_, ?_, ?_, ?_⟩, htr, fun vb hvb hpage => ?_⟩
  · rw [TableTree, hroot]
    exact hchanged.spaces
  · exact fun hvb hy => h.small hvb (hold hvb hy).2
  · exact fun hvb hy => h.writable hvb (hold hvb hy).2
  · intro vb y hvb hy
    obtain ⟨hpage, hy⟩ := hold hvb hy
    obtain ⟨hbounds', hfree', htab'⟩ := h.held hvb hy
    refine ⟨hbounds', fun hmem => ?_, fun hin => ?_⟩
    · rcases Finset.mem_insert.mp hmem with heq | hmem
      · exact hpage (h.once hvb hva hy hx (BitVec.eq_of_toNat_eq heq))
      · exact hfree' hmem
    · obtain ⟨p, hp⟩ := hin
      rw [hroot] at hp
      exact htab' ⟨p, hchanged.old (l := ()) trivial hp⟩
  · exact fun hvb hvc hy hz => h.once hvb hvc (hold hvb hy).2 (hold hvc hz).2
  · intro vb hvb
    have hpath : ¬ vpnPath vb = vpnPath va ∨ wellformed vb = false := by
      cases hwf : wellformed vb with
      | false => exact .inr rfl
      | true =>
        refine .inl fun hpath => ?_
        have hpage := page_eq_of_path hwf hva.wellformed hpath
        have hlt := hva.2
        simp only [pageSize, umemEnd] at hpage hlt hvb
        omega
    have hold' := h.above vb hvb
    rw [translate] at hold'
    rw [hroot, translate]
    rcases hpath with hne | hwf
    · rw [show hwWalk m' vb 2 (activeRoot m) = hwWalk m vb 2 (activeRoot m) from
        hchanged.other () vb trivial fun hand => hne hand.2, hold']
    · rw [hwf]
      rfl
  · rw [userView, userView, hroot, htr vb hvb, if_neg hpage]
    cases hy : translate m (activeRoot m) vb with
    | none => rfl
    | some y =>
      have hword : m'.word (physWord y vb) = m.word (physWord y vb) := by
        refine hwithin.word _ ?_
        rw [physWord_div, physPage_small (h.small hvb hy)]
        rintro (hin | hin)
        · exact (h.held hvb hy).2.2 (hin ▸ ⟨_, hreach⟩)
        · exact hpage (h.once hvb hva hy hx (BitVec.eq_of_toNat_eq hin))
      rw [Option.map_some, Option.map_some, hword]

/-- An access gets the page that is mapped, or an empty page in a place where there was none. -/
theorem access (hva : IsUser va)
    (hneed : need &&& (PTE_R ||| PTE_W) = need) (heq : MiniOs.access m va need = some (x, m')) :
    translate m' (activeRoot m') va = some x ∧
      (translate m (activeRoot m) va = some x ∧ m' = m ∨
        translate m (activeRoot m) va = none ∧ ∃ cs' free',
          Placed lo hi hlo hhi m free (pageOf va) faultFlags true m' cs' free') := by
  have hpermits : ∀ {y}, translate m (activeRoot m) va = some y → permits need y = true := by
    intro y hy
    have hall := of_decide_eq_true (h.writable hva hy)
    refine decide_eq_true ?_
    rw [← hneed, BitVec.and_comm need, ← BitVec.and_assoc, hall]
  rw [MiniOs.access] at heq
  cases hy : translate m (activeRoot m) va with
  | some y =>
    rw [hy, Option.filter_some, if_pos (hpermits hy)] at heq
    cases heq
    exact ⟨hy, .inl ⟨rfl, rfl⟩⟩
  | none =>
    have hrwx : Rwx faultFlags := by decide
    obtain ⟨done, m1, cs', free', hmap, hplaced⟩ := mapZeroPage_placed h.tree hrwx hva.pageOf.ne_zero
    rw [hy, Option.filter_none] at heq
    simp only [handleUmodePageFault_eq hva, hmap, Option.bind_some] at heq
    cases done with
    | false => cases heq
    | true =>
      obtain ⟨y, hfilter, hpair⟩ := Option.map_eq_some_iff.mp heq
      cases hpair
      exact ⟨(Option.filter_eq_some_iff.mp hfilter).1, .inr ⟨rfl, cs', free', hplaced⟩⟩

/-- Behind user memory there is no access. -/
theorem no_access (hva : umemEnd ≤ va.toNat) (need : BitVec 8) :
    MiniOs.access m va need = none := by
  rw [MiniOs.access, h.above va hva, Option.filter_none]
  simp only [handleUmodePageFault, if_pos (Or.inr hva : va.toNat < umemStart ∨ umemEnd ≤ va.toNat),
    Option.bind_some]
  rfl

end

end UserPages

/-- What accesses do to user memory. -/
structure Touched (lo hi : Nat) (hlo : 0 < lo) (hhi : hi ≤ 2 ^ 44) (m : Memory) (free : Finset Nat)
    (t : List Access) (m' : Memory) (cs' : List Ptr) (free' : Finset Nat) : Prop where
  pages : UserPages lo hi hlo hhi m' cs' free'
  satp : m'.satp = m.satp
  keep : ∀ {va x}, translate m (activeRoot m) va = some x → translate m' (activeRoot m) va = some x
  new : ∀ {va}, IsUser va → translate m (activeRoot m) va = none →
    ((∃ x, translate m' (activeRoot m) va = some x) ↔
      ∃ a ∈ t, a.addr.toNat / pageSize = va.toNat / pageSize)
  taken : ∀ {va x}, IsUser va → translate m (activeRoot m) va = none →
    translate m' (activeRoot m) va = some x → x.ppn.toNat ∈ free
  view : ∀ {va}, IsUser va → userView m' va = Access.replay t (userView m) va
  subset : free' ⊆ free
  same : free' = free ↔ ∀ a ∈ t, IsUser a.addr → ∃ x, translate m (activeRoot m) a.addr = some x

namespace Touched

theorem root (h : Touched lo hi hlo hhi m free t m' cs' free') : activeRoot m' = activeRoot m :=
  activeRoot_congr h.satp

/-- Only the addresses of the accesses and the bytes that are left count. -/
theorem congr (h : Touched lo hi hlo hhi m free t m' cs' free')
    (haddr : ∀ p, (∃ a ∈ t, a.addr = p) ↔ ∃ a ∈ t', a.addr = p)
    (hreplay : ∀ v, Access.replay t v = Access.replay t' v) :
    Touched lo hi hlo hhi m free t' m' cs' free' := by
  have hany : ∀ P : Word → Prop, (∃ a ∈ t, P a.addr) ↔ ∃ a ∈ t', P a.addr := by
    intro P
    constructor
    · rintro ⟨a, ha, hP⟩
      obtain ⟨a', ha', haddr'⟩ := (haddr _).mp ⟨a, ha, rfl⟩
      exact ⟨a', ha', haddr' ▸ hP⟩
    · rintro ⟨a, ha, hP⟩
      obtain ⟨a', ha', haddr'⟩ := (haddr _).mpr ⟨a, ha, rfl⟩
      exact ⟨a', ha', haddr' ▸ hP⟩
  refine ⟨h.pages, h.satp, h.keep, fun hva hnone => ?_, h.taken, fun hva => ?_, h.subset, ?_⟩
  · rw [h.new hva hnone]
    exact hany fun p => p.toNat / pageSize = _
  · rw [h.view hva, hreplay]
  · rw [h.same]
    have hnot := not_congr
      (hany fun p => ¬ (IsUser p → ∃ x, translate m (activeRoot m) p = some x))
    simpa only [not_exists, not_and, not_not] using hnot

theorem nil (h : UserPages lo hi hlo hhi m cs free) : Touched lo hi hlo hhi m free [] m cs free := by
  refine ⟨h, rfl, id, fun hva hnone => ?_, fun _ hnone hx => ?_, fun _ => rfl, Finset.Subset.refl _,
    by simp⟩
  · simp [hnone]
  · rw [hnone] at hx
    cases hx

theorem trans (h : Touched lo hi hlo hhi m free t m' cs' free')
    (h' : Touched lo hi hlo hhi m' free' t' m'' cs'' free'') :
    Touched lo hi hlo hhi m free (t ++ t') m'' cs'' free'' := by
  have hkeep' := @h'.keep
  have hnew' := @h'.new
  have htaken' := @h'.taken
  have hsame' := h'.same
  rw [h.root] at hkeep' hnew' htaken' hsame'
  refine ⟨h'.pages, h'.satp.trans h.satp, fun hx => hkeep' (h.keep hx), fun {va} hva hnone => ?_,
    fun {va x} hva hnone hx => ?_, fun {va} hva => ?_, h'.subset.trans h.subset, ?_⟩
  · simp only [List.mem_append, or_and_right, exists_or, ← h.new hva hnone]
    cases hmid : translate m' (activeRoot m) va with
    | none => simp [← hnew' hva hmid]
    | some x => simp [hkeep' hmid]
  · cases hmid : translate m' (activeRoot m) va with
    | none => exact h.subset (htaken' hva hmid hx)
    | some y =>
      obtain rfl : y = x := Option.some.inj ((hkeep' hmid).symm.trans hx)
      exact h.taken hva hnone hmid
  · rw [h'.view hva, Access.replay_append]
    have hview : ∀ {vb}, IsUser vb → userView m' vb = Access.replay t (userView m) vb := h.view
    generalize Access.replay t (userView m) = v at hview
    generalize userView m' = v' at hview
    exact Access.replay_congr (D := IsUser) (fun p hp => hview hp) t' va hva
  · have hchain : free'' = free ↔ free' = free ∧ free'' = free' := by
      constructor
      · rintro rfl
        have hmid : free' = free'' := Finset.Subset.antisymm h.subset h'.subset
        exact ⟨hmid, hmid.symm⟩
      · rintro ⟨rfl, rfl⟩
        rfl
    rw [hchain, List.forall_mem_append, h.same, hsame']
    refine and_congr_right fun hmapped => forall₂_congr fun a _ => imp_congr_right fun hva => ?_
    -- the first accesses have mapped nothing new
    constructor
    · intro hmid
      cases hold : translate m (activeRoot m) a.addr with
      | some x => exact ⟨x, rfl⟩
      | none =>
        obtain ⟨c, hc, hpage⟩ := (h.new hva hold).mp hmid
        have hcva : IsUser c.addr := hva.samePage hpage
        obtain ⟨x, hx⟩ := hmapped c hc hcva
        rw [translate_samePage hcva hva hpage, hold] at hx
        cases hx
    · rintro ⟨x, hx⟩
      exact ⟨x, h.keep hx⟩

/-- When no page was taken, nothing is mapped anew. -/
theorem translate_eq (h : Touched lo hi hlo hhi m free t m' cs' free') (hsame : free' = free)
    (hva : IsUser va) : translate m' (activeRoot m) va = translate m (activeRoot m) va := by
  cases hold : translate m (activeRoot m) va with
  | some x => exact h.keep hold
  | none =>
    rw [Option.eq_none_iff_forall_ne_some]
    intro x hx
    obtain ⟨a, ha, hpage⟩ := (h.new hva hold).mp ⟨x, hx⟩
    obtain ⟨y, hy⟩ := h.same.mp hsame a ha (hva.samePage hpage)
    rw [translate_samePage (hva.samePage hpage) hva hpage, hold] at hy
    cases hy

end Touched

namespace UserPages

section

variable (h : UserPages lo hi hlo hhi m cs free)

include h

/-- A load that finds its page. -/
theorem touched_load (hva : IsUser va → ∃ x, translate m (activeRoot m) va = some x) (b : UInt8) :
    Touched lo hi hlo hhi m free [.load va b] m cs free := by
  refine ⟨h, rfl, id, fun {vb} hvb hnone => ?_, fun _ hnone hx => ?_, fun _ => rfl,
    Finset.Subset.refl _, ?_⟩
  · simp only [hnone, List.mem_singleton, exists_eq_left, Access.addr_load, reduceCtorEq, exists_false, false_iff]
    intro hpage
    obtain ⟨x, hx⟩ := hva (hvb.samePage hpage)
    rw [translate_samePage (hvb.samePage hpage) hvb hpage, hnone] at hx
    cases hx
  · rw [hnone] at hx
    cases hx
  · simpa using hva

/-- A load that gets a new page. -/
theorem touched_fault (hva : IsUser va) (hnone : translate m (activeRoot m) va = none)
    (hp : Placed lo hi hlo hhi m free (pageOf va) faultFlags true m' cs' free') (b : UInt8) :
    Touched lo hi hlo hhi m free [.load va b] m' cs' free' := by
  obtain ⟨hpages, hview⟩ := h.placed hva.pageOf (by decide) hp
  obtain ⟨n, hmem, hn, -, -, -, hset⟩ := hp.placed rfl
  simp only [pageOf_div] at hview hset
  refine ⟨hpages, hp.within.satp, fun {vb x} hx => ?_, fun {vb} hvb hnone' => ?_,
    fun {vb x} hvb hnone' hx => ?_, fun {vb} hvb => ?_, hp.subset, ?_⟩
  · rw [hset, if_neg, hx]
    rintro ⟨hwf, hpage⟩
    rw [translate, if_pos hwf, UserSpaces.hwWalk_page m 2 _ hpage] at hx
    rw [translate, if_pos hva.wellformed, hx] at hnone
    cases hnone
  · rw [hset]
    simp only [List.mem_singleton, exists_eq_left, Access.addr_load]
    by_cases hpage : vb.toNat / pageSize = va.toNat / pageSize
    · simp [hvb.wellformed, hpage]
    · simp [hpage, hnone', Ne.symm hpage]
  · rw [hset] at hx
    split at hx
    case isTrue =>
      cases hx
      exact hmem
    case isFalse =>
      rw [hnone'] at hx
      cases hx
  · rw [hview vb hvb]
    by_cases hpage : vb.toNat / pageSize = va.toNat / pageSize
    · rw [if_pos hpage]
      refine (userView_of_unmapped ?_).symm
      rw [translate_samePage hvb hva hpage, hnone]
    · rw [if_neg hpage]
      rfl
  · have hne : free' ≠ free := fun heq => hn (heq ▸ hmem)
    simp [hne, hva, hnone]

/-- A store to a page that is mapped. -/
theorem touched_store (hva : IsUser va) (hx : translate m (activeRoot m) va = some x) (b : UInt8) :
    Touched lo hi hlo hhi m free [.store va b]
      { m with
        word := Function.update m.word (physWord x va)
          (setByte (m.word (physWord x va)) (va.toNat % 8) b) } cs free := by
  obtain ⟨hpages, htr, hview⟩ := h.stored hva hx b
  have hload := h.touched_load (fun _ => ⟨x, hx⟩) b
  refine ⟨hpages, rfl, fun hy => (htr _).trans hy, fun hvb hnone => ?_,
    fun hvb hnone hy => hload.taken hvb hnone ((htr _).symm.trans hy), fun hvb => hview _ hvb,
    Finset.Subset.refl _, ?_⟩
  · rw [htr, hload.new hvb hnone]
    simp
  · simp [hx]

theorem access_touched (hva : IsUser va)
    (hneed : need &&& (PTE_R ||| PTE_W) = need) (heq : MiniOs.access m va need = some (x, m')) (b : UInt8) :
    translate m' (activeRoot m') va = some x ∧
      ∃ cs' free', Touched lo hi hlo hhi m free [.load va b] m' cs' free' := by
  obtain ⟨hx, ⟨hold, rfl⟩ | ⟨hnone, cs', free', hplaced⟩⟩ := h.access hva hneed heq
  · exact ⟨hx, cs, free, h.touched_load (fun _ => ⟨x, hold⟩) b⟩
  · exact ⟨hx, cs', free', h.touched_fault hva hnone hplaced b⟩

/-- A load of the kernel. -/
theorem load (heq : paged.load m va = some (b, m')) :
    (IsUser va → b = userView m va) ∧
      ∃ cs' free', Touched lo hi hlo hhi m free [.load va b] m' cs' free' := by
  obtain ⟨⟨x, m1⟩, haccess, hpair⟩ := Option.map_eq_some_iff.mp heq
  cases hpair
  by_cases hva : IsUser va
  · obtain ⟨hx, cs', free', htouched⟩ := h.access_touched hva (by decide) haccess _
    refine ⟨fun _ => ?_, cs', free', htouched⟩
    rw [← userView_of_translate hx, htouched.view hva]
    rfl
  · -- outside of user memory there is no page fault that is handled
    refine ⟨fun hin => absurd hin hva, cs, free, ?_⟩
    obtain rfl : m' = m := by
      rw [MiniOs.access] at haccess
      have hout : va.toNat < umemStart ∨ umemEnd ≤ va.toNat := by
        rw [IsUser] at hva
        omega
      cases hf : (translate m (activeRoot m) va).filter (permits PTE_R) with
      | some y =>
        rw [hf] at haccess
        cases haccess
        rfl
      | none =>
        simp only [hf, handleUmodePageFault, if_pos hout, Option.bind_some] at haccess
        cases haccess
    exact h.touched_load (fun hin => absurd hin hva) _

/-- A store of the kernel behind the start of user memory. -/
theorem store (hva : umemStart ≤ va.toNat) (heq : paged.store m va b = some m') :
    va.toNat < umemEnd ∧ ∃ cs' free', Touched lo hi hlo hhi m free [.store va b] m' cs' free' := by
  obtain ⟨⟨x, m1⟩, haccess, rfl⟩ := Option.map_eq_some_iff.mp heq
  have hlt : va.toNat < umemEnd := by
    by_contra hout
    rw [h.no_access (Nat.le_of_not_lt hout)] at haccess
    cases haccess
  obtain ⟨hx, cs', free', htouched⟩ := h.access_touched ⟨hva, hlt⟩ (by decide) haccess 0
  have hboth := htouched.trans (htouched.pages.touched_store ⟨hva, hlt⟩ hx b)
  exact ⟨hlt, cs', free', hboth.congr (fun p => by simp) fun v => rfl⟩

/-- The accesses of a program that the kernel makes without a panic. -/
theorem steps {Q : Prop}
    (ht : Access.StoresFrom umemStart umemEnd Q t) (heq : paged.steps m t = some m') :
    Q ∧ (∀ p b, Access.store p b ∈ t → IsUser p) ∧
      ∃ cs' free', Touched lo hi hlo hhi m free t m' cs' free' := by
  induction t generalizing m cs free with
  | nil =>
    cases heq
    exact ⟨ht, nofun, cs, free, .nil h⟩
  | cons a t ih =>
    obtain ⟨m1, hstep, hrun⟩ := Option.bind_eq_some_iff.mp heq
    cases a with
    | load p c =>
      obtain ⟨-, cs1, free1, hfirst⟩ := h.load (ByteMachine.step_load.mp hstep)
      obtain ⟨hQ, huser, cs', free', hrest⟩ := ih hfirst.pages ht hrun
      exact ⟨hQ, fun q d hq => huser q d (by simpa using hq), cs', free', hfirst.trans hrest⟩
    | store p c =>
      obtain ⟨hlt, cs1, free1, hfirst⟩ := h.store ht.1 hstep
      obtain ⟨hQ, huser, cs', free', hrest⟩ := ih hfirst.pages (ht.2 hlt) hrun
      refine ⟨hQ, fun q d hq => ?_, cs', free', hfirst.trans hrest⟩
      rcases List.mem_cons.mp hq with hhead | htail
      · cases hhead
        exact ⟨ht.1, hlt⟩
      · exact huser q d htail

end

/-- To the kernel user memory is a memory of bytes. -/
theorem shows (lo hi : Nat) (hlo : 0 < lo) (hhi : hi ≤ 2 ^ 44) :
    ByteMachine.Shows paged IsUser (fun m => ∃ cs free, UserPages lo hi hlo hhi m cs free) userView := by
  constructor
  · rintro m m' va b ⟨cs, free, h⟩ hva heq
    obtain ⟨hbyte, cs', free', htouched⟩ := h.load heq
    exact ⟨hbyte hva, ⟨cs', free', htouched.pages⟩, fun a ha => htouched.view ha⟩
  · rintro m m' va b ⟨cs, free, h⟩ hva heq
    obtain ⟨-, cs', free', htouched⟩ := h.store hva.1 heq
    exact ⟨⟨cs', free', htouched.pages⟩, fun a ha => htouched.view ha⟩

end UserPages

end Pages

end MiniOs
