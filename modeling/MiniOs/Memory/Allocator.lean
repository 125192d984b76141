import MiniOs.Base.Runs
import MiniOs.Memory.Pages
import Mathlib.Algebra.BigOperators.Group.List.Basic
import Mathlib.Data.Finset.Card

/-!
# Runs of the physical page allocator

`PageUse` is the memory with the set of pages that clients hold.  A client asks for pages, returns
pages that are held (any part of what it got), or writes to held pages.  In every run the chunk
list and the held pages divide the pool, and `alloc_phys_pages` answers by best fit.
-/

namespace MiniOs

variable {pp : Ptr} {cnt : BitVec 32}

namespace Memory

variable {m m' : Memory} {lo hi : Nat} {cs : List Ptr} {free : Finset Nat}

/-! ## The calls -/

namespace FreeList

theorem length_le (h : FreeList lo hi m cs free) : cs.length ≤ hi := by
  have hnd : (cs.map frame).Nodup :=
    h.nodup.map_on fun c hc d hd hcd => (h.aligned c hc).eq_of_frame (h.aligned d hd) hcd
  have hsub : (cs.map frame).toFinset ⊆ Finset.range hi := by
    intro f hf
    obtain ⟨c, hc, rfl⟩ := List.mem_map.mp (List.mem_toFinset.mp hf)
    have hin := h.inside c hc
    have hpos := h.pos c hc
    rw [Finset.mem_range]
    omega
  have hcard := Finset.card_le_card hsub
  rwa [List.toFinset_card_of_nodup hnd, List.length_map, Finset.card_range] at hcard

/-- The sizes of disjoint chunks add up. -/
theorem card_of_disjoint (hdis : cs.Pairwise fun c d => ∀ f, m.Covers c f → ¬ m.Covers d f)
    (hmem : ∀ f, f ∈ free ↔ ∃ c ∈ cs, m.Covers c f) : free.card = (cs.map m.size).sum := by
  induction cs generalizing free with
  | nil =>
    have hempty : free = ∅ := Finset.eq_empty_of_forall_notMem fun f hf => by
      obtain ⟨c, hc, -⟩ := (hmem f).mp hf
      cases hc
    rw [hempty]
    rfl
  | cons c cs ih =>
    have hIco : ∀ f, f ∈ Finset.Ico (frame c) (frame c + m.size c) ↔ m.Covers c f := fun f =>
      Finset.mem_Ico
    rw [List.pairwise_cons] at hdis
    have hrest : (free \ Finset.Ico (frame c) (frame c + m.size c)).card = (cs.map m.size).sum := by
      refine ih hdis.2 fun f => ?_
      rw [Finset.mem_sdiff, hmem, hIco]
      constructor
      · rintro ⟨⟨d, hd, hdf⟩, hcf⟩
        rcases List.mem_cons.mp hd with rfl | hd
        · exact absurd hdf hcf
        · exact ⟨d, hd, hdf⟩
      · rintro ⟨d, hd, hdf⟩
        exact ⟨⟨d, List.mem_cons_of_mem _ hd, hdf⟩, fun hcf => hdis.1 d hd f hcf hdf⟩
    have hsub : Finset.Ico (frame c) (frame c + m.size c) ⊆ free := fun f hf =>
      (hmem f).mpr ⟨c, List.mem_cons_self .., (hIco f).mp hf⟩
    have hcard := Finset.card_sdiff_add_card_eq_card hsub
    rw [hrest, Nat.card_Ico] at hcard
    rw [List.map_cons, List.sum_cons]
    omega

theorem card_eq (h : FreeList lo hi m cs free) : free.card = (cs.map m.size).sum :=
  card_of_disjoint h.disjoint h.mem_iff

theorem card_le (h : FreeList lo hi m cs free) : free.card ≤ hi := by
  have hsub : free ⊆ Finset.range hi := fun f hf => Finset.mem_range.mpr (h.bounds hf).2
  simpa using Finset.card_le_card hsub

end FreeList

theorem countLoop_spec {p : Ptr} {fuel : Nat} {total : Word} (hc : Chain m.next (link p) cs)
    (hf : cs.length < fuel) (hlt : total.toNat + (cs.map m.size).sum < 2 ^ 64) :
    ∃ t, m.countLoop fuel p total = some t ∧ t.toNat = total.toNat + (cs.map m.size).sum := by
  induction cs generalizing p fuel total with
  | nil =>
    obtain ⟨fuel, rfl⟩ : ∃ n, fuel = n + 1 := ⟨fuel - 1, by omega⟩
    have hz : p = 0 := by
      by_contra hne
      rw [Chain.nil_iff, link, if_neg hne] at hc
      cases hc
    refine ⟨total, ?_, rfl⟩
    rw [countLoop, if_pos hz]
  | cons c cs ih =>
    obtain ⟨fuel, rfl⟩ : ∃ n, fuel = n + 1 := ⟨fuel - 1, by omega⟩
    obtain ⟨hpc, hne⟩ := link_eq_some.mp hc.1
    subst hpc
    rw [List.map_cons, List.sum_cons] at hlt ⊢
    have hadd : (total + m.load p 1).toNat = total.toNat + m.size p := by
      rw [BitVec.toNat_add]
      exact Nat.mod_eq_of_lt (by rw [size] at hlt; omega)
    obtain ⟨t, ht, heq⟩ := ih hc.2 (Nat.lt_of_succ_lt_succ hf) (by rw [hadd]; omega)
    refine ⟨t, ?_, by rw [heq, hadd, Nat.add_assoc]⟩
    rw [countLoop, if_neg hne]
    exact ht

/-- What `alloc_phys_pages` does with the chunks `cs`. -/
inductive Alloc (lo hi : Nat) (m : Memory) (cs : List Ptr) (free : Finset Nat) (cnt : Nat) :
    Ptr → Memory → Prop where
  | null : (∀ c ∈ cs, m.size c < cnt) → Alloc lo hi m cs free cnt 0 m
  | head {pre post : List Ptr} {b : Ptr} {m' : Memory} : cs = pre ++ b :: post → cnt ≤ m.size b →
      (∀ c ∈ cs, cnt ≤ m.size c → m.size b ≤ m.size c) →
      FreeList.Took lo hi m m' free cnt pre b post → Within free m m' →
      Alloc lo hi m cs free cnt b m'

namespace FreeList

/-- `free_phys_page_count` is the number of free pages. -/
theorem freePhysPageCount (h : FreeList lo hi m cs free) (hhi : hi < 2 ^ 52) :
    m.freePhysPageCount.map BitVec.toNat = some free.card := by
  have hlen := h.length_le
  have hcard := h.card_le
  have hsum := h.card_eq
  have hlt : (0 : Word).toNat + (cs.map m.size).sum < 2 ^ 64 := by
    have hz : (0 : Word).toNat = 0 := rfl
    omega
  obtain ⟨t, ht, heq⟩ := countLoop_spec h.chain (Nat.lt_of_le_of_lt hlen hhi) hlt
  rw [Memory.freePhysPageCount, ht, Option.map_some, heq, hsum]
  simp

theorem allocPhysPages (h : FreeList lo hi m cs free) (hhi : hi < 2 ^ 52) (hcnt : cnt ≠ 0) :
    ∃ pp m', m.allocPhysPages cnt = some (pp, m') ∧ Alloc lo hi m cs free cnt.toNat pp m' := by
  have hn : (cnt.setWidth 64).toNat = cnt.toNat := BitVec.toNat_setWidth_of_le (by decide)
  have hpos : 0 < cnt.toNat := Nat.pos_of_ne_zero fun hz => hcnt (BitVec.eq_of_toNat_eq hz)
  have hnone : Best m (cnt.setWidth 64) [] none := nofun
  obtain ⟨best, heq, hbest⟩ := bestFit_spec h.chain hnone (Nat.lt_of_le_of_lt h.length_le hhi)
  rw [Memory.allocPhysPages, if_neg hcnt]
  rw [List.getLast?_nil] at heq
  cases best with
  | none =>
    refine ⟨0, m, by rw [heq]; rfl, .null fun c hc => ?_⟩
    rw [← hn]
    exact hbest c hc
  | some pb =>
    obtain ⟨place, b⟩ := pb
    obtain ⟨pre, post, hcs, rfl, hfit, hmin⟩ := hbest
    rw [List.nil_append] at hcs
    subst hcs
    have htook := h.takeChunk hhi (by rw [hn]; exact hpos) hfit
    rw [hn] at htook hfit
    refine ⟨b, _, by rw [heq]; rfl, .head rfl hfit ?_ htook (h.takeChunk_within hhi _)⟩
    intro c hc hfitc
    exact hmin c hc (by rw [hn]; exact hfitc)

/-- Freeing pages writes to the first of them. -/
theorem within_freePhysPages (m : Memory) (hal : Aligned pp) (cnt : BitVec 32) :
    Within {frame pp} m (m.freePhysPages pp cnt) := by
  rw [Memory.freePhysPages]
  split
  case isTrue => exact .refl _ m
  case isFalse =>
    have hstores := (Within.store m hal (Set.mem_singleton (frame pp)) (i := 1) (by decide)
      (cnt.setWidth 64)).trans (.store _ hal (Set.mem_singleton _) (i := 0) (by decide) m.freeChunkList)
    exact ⟨hstores.word, hstores.satp⟩

section

variable (h : FreeList lo hi m cs free)

include h

/-- `free_phys_pages` makes a chunk of the pages. -/
theorem freePhysPages (hcnt : cnt ≠ 0) (hlo : 0 < lo) (hal : Aligned pp)
    (hin : ∀ f ∈ Finset.Ico (frame pp) (frame pp + cnt.toNat), lo ≤ f ∧ f < hi ∧ f ∉ free) :
    FreeList lo hi (m.freePhysPages pp cnt) (pp :: cs)
        (free ∪ Finset.Ico (frame pp) (frame pp + cnt.toNat)) ∧
      Within {frame pp} m (m.freePhysPages pp cnt) := by
  have hpos : 0 < cnt.toNat := Nat.pos_of_ne_zero fun hz => hcnt (BitVec.eq_of_toNat_eq hz)
  have hfirst := hin (frame pp) (by rw [Finset.mem_Ico]; omega)
  have hlast := hin (frame pp + cnt.toNat - 1) (by rw [Finset.mem_Ico]; omega)
  have hnz : pp ≠ 0 := by
    rintro rfl
    have hz : frame (0 : Ptr) = 0 := rfl
    omega
  have hskip : ¬ (pp = 0 ∨ cnt = 0) := not_or.mpr ⟨hnz, hcnt⟩
  have hwithin := within_freePhysPages m hal cnt
  have hkeep : ∀ c ∈ cs, ∀ i < 2, (m.freePhysPages pp cnt).load c i = m.load c i := by
    intro c hc i hi
    refine hwithin.load (h.aligned c hc) (fun heq => hfirst.2.2 ?_) (Nat.lt_trans hi (by decide))
    rw [← Set.mem_singleton_iff.mp heq]
    exact h.frame_mem hc
  have hsize : ∀ c ∈ cs, (m.freePhysPages pp cnt).size c = m.size c := fun c hc => by
    rw [size, size, hkeep c hc 1 (by decide)]
  have hsizepp : (m.freePhysPages pp cnt).size pp = cnt.toNat := by
    rw [Memory.freePhysPages, if_neg hskip, size]
    change BitVec.toNat ((((m.store pp 1 (cnt.setWidth 64)).store pp 0 _).load pp 1)) = _
    rw [load_store_ne (by omega), load_store_self]
    exact BitVec.toNat_setWidth_of_le (by decide)
  have hnext : (m.freePhysPages pp cnt).next pp = link m.freeChunkList := by
    rw [Memory.freePhysPages, if_neg hskip, next]
    exact congrArg link load_store_self
  have hhead : (m.freePhysPages pp cnt).freeChunkList = pp := by
    rw [Memory.freePhysPages, if_neg hskip]
  have hcov : ∀ c ∈ cs, ∀ f, (m.freePhysPages pp cnt).Covers c f ↔ m.Covers c f := fun c hc f => by
    rw [Covers, Covers, hsize c hc]
  have hcovpp : ∀ f, (m.freePhysPages pp cnt).Covers pp f ↔
      f ∈ Finset.Ico (frame pp) (frame pp + cnt.toNat) := fun f => by
    rw [Covers, hsizepp, Finset.mem_Ico]
  refine ⟨⟨⟨?_, ?_⟩, ?_, ?_, ?_, ?_, fun f => ?_⟩, hwithin⟩
  · rw [hhead, link, if_neg hnz]
  · rw [hnext]
    refine h.chain.congr fun c hc => ?_
    rw [next, next, hkeep c hc 0 (by decide)]
  · exact List.forall_mem_cons.mpr ⟨hal, h.aligned⟩
  · refine List.forall_mem_cons.mpr ⟨by rw [hsizepp]; exact hpos, fun c hc => ?_⟩
    rw [hsize c hc]
    exact h.pos c hc
  · refine List.forall_mem_cons.mpr ⟨by rw [hsizepp]; omega, fun c hc => ?_⟩
    rw [hsize c hc]
    exact h.inside c hc
  · refine List.pairwise_cons.mpr ⟨fun c hc f hppf hcf => ?_, ?_⟩
    · exact (hin f ((hcovpp f).mp hppf)).2.2 ((h.mem_iff f).mpr ⟨c, hc, (hcov c hc f).mp hcf⟩)
    · refine h.disjoint.imp_of_mem fun {c d} hc hd hcd f hcf hdf => ?_
      exact hcd f ((hcov c hc f).mp hcf) ((hcov d hd f).mp hdf)
  · rw [Finset.mem_union, h.mem_iff, ← hcovpp, List.exists_mem_cons_iff, or_comm]
    refine or_congr_right (exists_congr fun c => and_congr_right fun hc => (hcov c hc f).symm)

/-- One page: there is none, or a free one is taken. -/
theorem allocPhysPage (hlo : 0 < lo) (hhi : hi < 2 ^ 52) :
    m.allocPhysPage = some (0, m) ∨
      ∃ pp m' cs', m.allocPhysPage = some (pp, m') ∧ pp ≠ 0 ∧ Aligned pp ∧ frame pp ∈ free ∧
        FreeList lo hi m' cs' (free.erase (frame pp)) ∧ Within free m m' := by
  have hone : ∀ f, Finset.Ico f (f + (1 : BitVec 32).toNat) = {f} := Nat.Ico_succ_singleton
  have hnz : (1 : BitVec 32) ≠ 0 := by decide
  obtain ⟨pp, m', heq, halloc⟩ := h.allocPhysPages hhi hnz
  cases halloc with
  | null _ => exact .inl heq
  | @head pre post _ _ hcs _ _ htook hwithin =>
    obtain ⟨mid, hlist, -, -⟩ := htook
    have hpp : pp ∈ cs := by simp [hcs]
    rw [hone, Finset.sdiff_singleton_eq_erase] at hlist
    exact .inr ⟨pp, m', _, heq, h.ne_zero hlo hpp, h.aligned pp hpp, h.frame_mem hpp, hlist, hwithin⟩

/-- There is no page when none is free. -/
theorem eq_empty_of_allocPhysPage (hlo : 0 < lo) (hhi : hi < 2 ^ 52)
    (heq : m.allocPhysPage = some (0, m')) : free = ∅ := by
  have hnz : (1 : BitVec 32) ≠ 0 := by decide
  obtain ⟨pp, m'', heq', halloc⟩ := h.allocPhysPages hhi hnz
  rw [Memory.allocPhysPage, heq'] at heq
  cases heq
  cases halloc with
  | null hsmall =>
    refine Finset.eq_empty_of_forall_notMem fun f hf => ?_
    obtain ⟨c, hc, -⟩ := (h.mem_iff f).mp hf
    exact absurd (h.pos c hc) (Nat.not_lt.mpr (Nat.le_of_lt_succ (hsmall c hc)))
  | @head pre post _ _ hcs _ _ _ _ => exact absurd rfl (h.ne_zero hlo (by simp [hcs]))

theorem freePhysPage (hlo : 0 < lo) (hal : Aligned pp)
    (hin : lo ≤ frame pp ∧ frame pp < hi) (hnot : frame pp ∉ free) :
    FreeList lo hi (m.freePhysPage pp) (pp :: cs) (insert (frame pp) free) ∧
      Within {frame pp} m (m.freePhysPage pp) := by
  have hone : Finset.Ico (frame pp) (frame pp + (1 : BitVec 32).toNat) = {frame pp} :=
    Nat.Ico_succ_singleton _
  have hnz : (1 : BitVec 32) ≠ 0 := by decide
  have hfree := h.freePhysPages hnz hlo hal ?_
  · rw [hone, Finset.union_comm, ← Finset.insert_eq] at hfree
    exact hfree
  · intro f hf
    rw [hone, Finset.mem_singleton] at hf
    subst hf
    exact ⟨hin.1, hin.2, hnot⟩

end

/-- The single chunk of `memory_init`. -/
theorem initChunks {heapEnd ramEnd : Ptr} (m : Memory) (hheap : Aligned heapEnd)
    (hram : Aligned ramEnd) (hz : heapEnd ≠ 0) :
    ∃ cs, FreeList (frame heapEnd) (frame ramEnd) (m.initChunks heapEnd ramEnd) cs
      (Finset.Ico (frame heapEnd) (frame ramEnd)) := by
  have hheapn := hheap.toNat_eq
  have hramn := hram.toNat_eq
  by_cases hlt : heapEnd < ramEnd
  · have hlt' : heapEnd.toNat < ramEnd.toNat := hlt
    have hframe : frame heapEnd < frame ramEnd := by
      simp only [pageSize] at hheapn hramn
      omega
    have hsize : (m.initChunks heapEnd ramEnd).size heapEnd = frame ramEnd - frame heapEnd := by
      have hsub : (ramEnd - heapEnd).toNat = ramEnd.toNat - heapEnd.toNat :=
        BitVec.toNat_sub_of_le (Nat.le_of_lt hlt')
      rw [Memory.initChunks, if_pos hlt, size]
      refine (congrArg BitVec.toNat load_store_self).trans ?_
      rw [BitVec.toNat_udiv, hsub, hheapn, hramn, ← Nat.mul_sub]
      exact Nat.mul_div_cancel_left _ (by decide)
    have hnext : (m.initChunks heapEnd ramEnd).next heapEnd = none := by
      rw [Memory.initChunks, if_pos hlt, next]
      refine (congrArg link ((load_store_ne (by omega)).trans load_store_self)).trans ?_
      rfl
    have hhead : (m.initChunks heapEnd ramEnd).freeChunkList = heapEnd := by
      rw [Memory.initChunks, if_pos hlt]
    refine ⟨[heapEnd], ⟨⟨?_, hnext⟩, ?_, ?_, ?_, List.pairwise_singleton .., fun f => ?_⟩⟩
    · rw [hhead, link, if_neg hz]
    · simpa using hheap
    · simp only [List.mem_singleton, forall_eq, hsize]
      omega
    · simp only [List.mem_singleton, forall_eq, hsize]
      omega
    · simp only [List.mem_singleton, exists_eq_left, Covers, hsize, Finset.mem_Ico]
      omega
  · have hge : frame ramEnd ≤ frame heapEnd := Nat.div_le_div_right (Nat.le_of_not_lt hlt)
    have hhead : (m.initChunks heapEnd ramEnd).freeChunkList = 0 := by
      rw [Memory.initChunks, if_neg hlt]
    refine ⟨[], ⟨by rw [hhead]; rfl, by simp, by simp, by simp, .nil, fun f => ?_⟩⟩
    simp [Finset.Ico_eq_empty_of_le hge]

end FreeList

end Memory

/-! ## Runs -/

open Memory

/-- The memory, and the pages that clients hold. -/
structure PageUse where
  mem : Memory
  used : Finset Nat

/-- A call of the allocator, or a client's write of a word. -/
inductive PageCall where
  | alloc (cnt : BitVec 32)
  | free (pp : Ptr) (cnt : BitVec 32)
  | write (j : Nat) (w : Word)

/-- The pages of the `cnt` pages at `pp`. -/
def pagesAt (pp : Ptr) (cnt : BitVec 32) : Finset Nat := Finset.Ico (frame pp) (frame pp + cnt.toNat)

namespace PageUse

/-- Clients return, and write to, pages that are held. -/
def Allowed (s : PageUse) : PageCall → Prop
  | .alloc _ => True
  | .free pp cnt => Aligned pp ∧ pagesAt pp cnt ⊆ s.used
  | .write j _ => j / pteCnt ∈ s.used

def step (s : PageUse) : PageCall → Option PageUse
  | .alloc cnt => (s.mem.allocPhysPages cnt).map fun (pp, m) =>
      ⟨m, if pp = 0 then s.used else s.used ∪ pagesAt pp cnt⟩
  | .free pp cnt => some ⟨s.mem.freePhysPages pp cnt, s.used \ pagesAt pp cnt⟩
  | .write j w => some ⟨{ s.mem with word := Function.update s.mem.word j w }, s.used⟩

/-- The states reached from `s₀`. -/
inductive Run (s₀ : PageUse) : PageUse → Prop where
  | start : Run s₀ s₀
  | step {s s' : PageUse} {c : PageCall} : Run s₀ s → s.Allowed c → s.step c = some s' → Run s₀ s'

instance (s : PageUse) : (c : PageCall) → Decidable (s.Allowed c)
  | .alloc _ => inferInstanceAs (Decidable True)
  | .free pp _ => inferInstanceAs (Decidable (Aligned pp ∧ _))
  | .write _ _ => inferInstanceAs (Decidable (_ ∈ _))

/-- The state after a given run of allowed calls. -/
def exec (s : PageUse) : List PageCall → Option PageUse
  | [] => some s
  | c :: cs => if s.Allowed c then (s.step c).bind fun s' => exec s' cs else none

theorem Run.exec {s₀ s s' : PageUse} {cs : List PageCall} (h : Run s₀ s)
    (heq : s.exec cs = some s') : Run s₀ s' :=
  keeps_of_run (fun _ => rfl) (fun _ _ _ => rfl) (fun h => h.step) h heq

/-- The chunk list and the held pages divide the pool. -/
def Divided (lo hi : Nat) (s : PageUse) : Prop :=
  ∃ cs free, FreeList lo hi s.mem cs free ∧ Disjoint free s.used ∧ free ∪ s.used = Finset.Ico lo hi

variable {lo hi : Nat} {s : PageUse}

theorem Divided.alloc (h : Divided lo hi s) (hlo : 0 < lo) (hhi : hi < 2 ^ 52) (cnt : BitVec 32) :
    ∃ s', s.step (.alloc cnt) = some s' ∧ Divided lo hi s' := by
  obtain ⟨cs, free, hlist, hdis, hpool⟩ := h
  by_cases hcnt : cnt = 0
  · refine ⟨s, ?_, cs, free, hlist, hdis, hpool⟩
    rw [step, Memory.allocPhysPages, if_pos hcnt]
    rfl
  obtain ⟨pp, m', heq, halloc⟩ := hlist.allocPhysPages hhi hcnt
  refine ⟨_, by rw [step, heq]; rfl, ?_⟩
  cases halloc with
  | null _ => exact ⟨cs, free, hlist, hdis, hpool⟩
  | @head pre post _ _ hcs hfit _ htook _ =>
    obtain ⟨mid, hlist', -, -⟩ := htook
    have hpp : pp ∈ cs := by simp [hcs]
    have hsub : pagesAt pp cnt ⊆ free := by
      intro f hf
      rw [pagesAt, Finset.mem_Ico] at hf
      exact (hlist.mem_iff f).mpr ⟨pp, hpp, hf.1, by omega⟩
    have hnz : pp ≠ 0 := hlist.ne_zero hlo hpp
    refine ⟨_, _, hlist', ?_, ?_⟩
    · simp only [if_neg hnz]
      rw [Finset.disjoint_union_right]
      exact ⟨hdis.mono_left Finset.sdiff_subset, Finset.sdiff_disjoint⟩
    · simp only [if_neg hnz]
      rw [← hpool, Finset.union_comm s.used, ← Finset.union_assoc]
      exact congrArg (· ∪ s.used) (Finset.sdiff_union_of_subset hsub)

theorem Divided.free (h : Divided lo hi s) (hlo : 0 < lo) (hal : s.Allowed (.free pp cnt)) :
    Divided lo hi ⟨s.mem.freePhysPages pp cnt, s.used \ pagesAt pp cnt⟩ := by
  obtain ⟨cs, free, hlist, hdis, hpool⟩ := h
  obtain ⟨haligned, hsub⟩ := hal
  by_cases hcnt : cnt = 0
  · refine ⟨cs, free, ?_, hdis.mono_right Finset.sdiff_subset, ?_⟩
    · rw [Memory.freePhysPages, if_pos (.inr hcnt)]
      exact hlist
    · have hempty : pagesAt pp cnt = ∅ := by
        rw [pagesAt, hcnt]
        exact Finset.Ico_self _
      rw [hempty, Finset.sdiff_empty]
      exact hpool
  have hin : ∀ f ∈ pagesAt pp cnt, lo ≤ f ∧ f < hi ∧ f ∉ free := by
    intro f hf
    have hused := hsub hf
    have hmem : f ∈ Finset.Ico lo hi := hpool ▸ Finset.mem_union_right _ hused
    rw [Finset.mem_Ico] at hmem
    exact ⟨hmem.1, hmem.2, fun hfree => Finset.disjoint_left.mp hdis hfree hused⟩
  refine ⟨_, _, (hlist.freePhysPages hcnt hlo haligned hin).1, ?_, ?_⟩
  · rw [Finset.disjoint_union_left]
    exact ⟨hdis.mono_right Finset.sdiff_subset, Finset.disjoint_sdiff⟩
  · rw [Finset.union_assoc, ← hpool]
    exact congrArg (free ∪ ·) (Finset.union_sdiff_of_subset hsub)

theorem Divided.write (h : Divided lo hi s) {j : Nat} {w : Word} (hal : s.Allowed (.write j w)) :
    Divided lo hi ⟨{ s.mem with word := Function.update s.mem.word j w }, s.used⟩ := by
  obtain ⟨cs, free, hlist, hdis, hpool⟩ := h
  refine ⟨cs, free, hlist.congr rfl fun i hi => Function.update_of_ne ?_ _ _, hdis, hpool⟩
  rintro rfl
  exact Finset.disjoint_left.mp hdis hi hal

/-- Every call that clients may make returns, and the pool stays divided. -/
theorem Divided.step (h : Divided lo hi s) (hlo : 0 < lo) (hhi : hi < 2 ^ 52) {c : PageCall}
    (hal : s.Allowed c) : ∃ s', s.step c = some s' ∧ Divided lo hi s' := by
  cases c with
  | alloc cnt => exact h.alloc hlo hhi cnt
  | free pp cnt => exact ⟨_, rfl, h.free hlo hal⟩
  | write j w => exact ⟨_, rfl, h.write hal⟩

theorem Run.divided {s₀ : PageUse} (h : Run s₀ s) (hlo : 0 < lo) (hhi : hi < 2 ^ 52)
    (h₀ : Divided lo hi s₀) : Divided lo hi s := by
  induction h with
  | start => exact h₀
  | step _ hal hst ih =>
    obtain ⟨s', hst', hdiv⟩ := ih.step hlo hhi hal
    rw [hst] at hst'
    cases hst'
    exact hdiv

/-- In every run that starts with the single chunk of `memory_init`, the chunks on the list are
pages of the pool, the pages that are not held are theirs, and `alloc_phys_pages` takes the head
of a smallest chunk that has the pages, or answers `NULL` when none has. -/
theorem pool_divided {m₀ : Memory} {heapEnd ramEnd : Ptr} (hheap : Aligned heapEnd)
    (hram : Aligned ramEnd) (hz : heapEnd ≠ 0) {s : PageUse}
    (hrun : Run ⟨m₀.initChunks heapEnd ramEnd, ∅⟩ s) :
    ∃ cs free, FreeList (frame heapEnd) (frame ramEnd) s.mem cs free ∧ Disjoint free s.used ∧
      free ∪ s.used = Finset.Ico (frame heapEnd) (frame ramEnd) ∧
      s.mem.freePhysPageCount.map BitVec.toNat = some free.card ∧
      ∀ cnt : BitVec 32, cnt ≠ 0 → ∃ pp m', s.mem.allocPhysPages cnt = some (pp, m') ∧
        (pp = 0 ↔ ∀ c ∈ cs, s.mem.size c < cnt.toNat) ∧ (pp = 0 → m' = s.mem) ∧
        (pp ≠ 0 → ∃ pre mid post, cs = pre ++ pp :: post ∧ cnt.toNat ≤ s.mem.size pp ∧
          (∀ c ∈ cs, cnt.toNat ≤ s.mem.size c → s.mem.size pp ≤ s.mem.size c) ∧
          FreeList (frame heapEnd) (frame ramEnd) m' (pre ++ (mid ++ post))
            (free \ pagesAt pp cnt) ∧
          FreeList.Left s.mem m' cnt.toNat pp mid ∧
          ∀ c ∈ pre ++ post, m'.size c = s.mem.size c) := by
  have hlo : 0 < frame heapEnd := Nat.pos_of_ne_zero fun hzero => by
    refine hz (BitVec.eq_of_toNat_eq ?_)
    rw [hheap.toNat_eq, hzero]
    rfl
  have hhi : frame ramEnd < 2 ^ 52 := by
    have := ramEnd.isLt
    simp only [frame, pageSize]
    omega
  obtain ⟨cs0, hinit⟩ := FreeList.initChunks m₀ hheap hram hz
  obtain ⟨cs, free, hlist, hdis, hpool⟩ := hrun.divided hlo hhi
    ⟨cs0, _, hinit, Finset.disjoint_empty_right _, Finset.union_empty _⟩
  refine ⟨cs, free, hlist, hdis, hpool, hlist.freePhysPageCount hhi, fun cnt hcnt => ?_⟩
  obtain ⟨pp, m', heq, halloc⟩ := hlist.allocPhysPages hhi hcnt
  refine ⟨pp, m', heq, ?_⟩
  cases halloc with
  | null hsmall => exact ⟨iff_of_true rfl hsmall, fun _ => rfl, fun hne => absurd rfl hne⟩
  | @head pre post _ _ hcs hfit hmin htook _ =>
    obtain ⟨mid, hlist', hleft, hsame⟩ := htook
    have hpp : pp ∈ cs := by simp [hcs]
    have hnz : pp ≠ 0 := hlist.ne_zero hlo hpp
    refine ⟨iff_of_false hnz fun hsmall => ?_, fun h0 => absurd h0 hnz, fun _ =>
      ⟨pre, mid, post, hcs, hfit, hmin, hlist', hleft, hsame⟩⟩
    exact Nat.not_lt.mpr hfit (hsmall pp hpp)

/-- Eight pages: three and two are taken, and the middle one of the three is returned. -/
theorem pool_divided_fragment :
    ∃ s, Run ⟨Memory.initChunks ⟨fun _ => 0, 0, 0⟩ 0x10000 0x18000, ∅⟩ s ∧
      s.used = {16, 18, 19, 20} ∧ s.mem.freePhysPageCount.map BitVec.toNat = some 4 := by
  have hexec : (exec ⟨Memory.initChunks ⟨fun _ => 0, 0, 0⟩ 0x10000 0x18000, ∅⟩
      [.alloc 3, .alloc 2, .free 0x11000 1]).map PageUse.used = some {16, 18, 19, 20} := by
    decide +kernel
  obtain ⟨s, hs, hused⟩ := Option.map_eq_some_iff.mp hexec
  have hrun := Run.start.exec hs
  obtain ⟨cs, free, -, hdis, hpool, hcount, -⟩ := pool_divided (by decide) (by decide) (by decide) hrun
  refine ⟨s, hrun, hused, ?_⟩
  have hcard := Finset.card_union_of_disjoint hdis
  rw [hpool, hused] at hcard
  have hfree : free.card = 4 := by
    have h8 : (Finset.Ico (frame 0x10000) (frame 0x18000)).card = 8 := by decide
    have h4 : ({16, 18, 19, 20} : Finset Nat).card = 4 := by decide
    omega
  rw [hcount, hfree]

end PageUse

end MiniOs
