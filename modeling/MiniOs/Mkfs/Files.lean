import MiniOs.Mkfs.Blocks

/-!
# How a file lies in the image

`Image.add_file` allocates the blocks of a file one after the other: its data, its
indirect page, and then each doubly-indirect page with its inner pages behind it.  So the
block a place of the file points to is a fixed number of blocks behind the first
(`slot`), and a file of `n` blocks fills `span n` blocks without a gap.  `FileAt` states
this of an inode and its pages; `addFile_ok` shows it of every file that is added.
-/

namespace MiniOs.Mkfs

open Ktfs (Place Inode)
open Function (update_of_ne update_self)

variable {L : Layout} {img img' : Image} {name : Name}
  {k m n o r rel : Nat}

/-! ## The layout of a file -/

/-- The block a place points to in a file of `n` blocks, counted from the first. -/
def slot (n : Nat) : Place → Nat
  | .data l => l
  | .ind => n
  | .dind o => n + 1 + 129 * o
  | .inner o k => n + 2 + 129 * o + k

/-- The number of inner pages under doubly-indirect page `o` of a file of `n` blocks. -/
def inners (n o : Nat) : Nat := min 128 ((n - (131 + 16384 * o) + 127) / 128)

/-- The number of blocks of doubly-indirect page `o` with its inner pages. -/
def dinds (n o : Nat) : Nat := if 131 + 16384 * o < n then 1 + inners n o else 0

/-- The number of blocks a file of `n` blocks fills with its pages. -/
def span (n : Nat) : Nat := n + (if 3 < n then 1 else 0) + dinds n 0 + dinds n 1

theorem span_zero : span 0 = 0 := by simp [span, dinds]

theorem lt_inners : k < inners n o ↔ k < 128 ∧ 131 + 16384 * o + 128 * k < n := by
  rw [inners]
  omega

theorem slot_lt_span {p : Place} (hp : p.Within n) : slot n p < span n := by
  simp only [span, dinds, inners]
  cases p with
  | data l =>
    have := hp.1
    rw [slot]
    omega
  | ind =>
    rw [Place.Within] at hp
    rw [slot, if_pos hp]
    omega
  | dind o =>
    obtain ⟨ho, hn⟩ := hp
    rw [slot]
    interval_cases o <;> split_ifs <;> omega
  | inner o k =>
    obtain ⟨ho, hk, hn⟩ := hp
    rw [slot]
    interval_cases o <;> split_ifs <;> omega

theorem slot_inj {p q : Place} (hp : p.Within n) (hq : q.Within n)
    (h : slot n p = slot n q) : p = q := by
  cases p <;> cases q <;> simp only [Place.Within, slot] at hp hq h <;>
    simp only [Place.data.injEq, Place.dind.injEq, Place.inner.injEq, reduceCtorEq] <;> omega

/-- The blocks a file fills all hold something it points to. -/
theorem exists_slot {j : Nat} (hn : n ≤ 32899) (hj : j < span n) :
    ∃ p : Place, p.Within n ∧ slot n p = j := by
  simp only [span, dinds, inners] at hj
  by_cases h0 : j < n
  · exact ⟨.data j, ⟨h0, by omega⟩, rfl⟩
  by_cases h1 : j = n
  · refine ⟨.ind, ?_, h1.symm⟩
    show 3 < n
    split_ifs at hj <;> omega
  by_cases h2 : j < n + 130
  · by_cases h3 : j = n + 1
    · refine ⟨.dind 0, ⟨by omega, ?_⟩, by rw [slot]; omega⟩
      split_ifs at hj <;> omega
    · refine ⟨.inner 0 (j - (n + 2)), ⟨by omega, by omega, ?_⟩, by rw [slot]; omega⟩
      split_ifs at hj <;> omega
  · by_cases h3 : j = n + 130
    · refine ⟨.dind 1, ⟨by omega, ?_⟩, by rw [slot]; omega⟩
      split_ifs at hj <;> omega
    · refine ⟨.inner 1 (j - (n + 131)), ⟨by omega, ?_, ?_⟩, by rw [slot]; omega⟩ <;>
        split_ifs at hj <;> omega

/-! ## Data blocks -/

/-- The pointers in inner page `k` under doubly-indirect page `o`, for the first `m` blocks
of a file whose first block is block `r` of the data area. -/
def leafPtrs (r m o k : Nat) : List Nat :=
  if o < 2 ∧ k < 128 then
    (List.range (min 128 (m - (131 + 16384 * o + 128 * k)))).map fun j =>
      r + (131 + 16384 * o + 128 * k) + j
  else []

theorem leafPtrs_of_le (h : m ≤ 131) : leafPtrs r m o k = [] := by
  rw [leafPtrs, show m - (131 + 16384 * o + 128 * k) = 0 by omega]
  simp

/-- A block behind the indirect ones makes one list longer. -/
theorem leafPtrs_succ (r : Nat) {outer inner : Nat} (hm : 131 ≤ m) (hm' : m < 32899)
    (hout : outer = (m - 131) / 16384) (hin : inner = (m - 131) / 128 % 128) :
    leafPtrs r (m + 1) = Function.update (leafPtrs r m) outer
      (Function.update (leafPtrs r m outer) inner (leafPtrs r m outer inner ++ [r + m])) := by
  funext o k
  have hsame : o ≠ outer ∨ k ≠ inner → leafPtrs r (m + 1) o k = leafPtrs r m o k := by
    intro hne
    rw [leafPtrs, leafPtrs]
    by_cases hlt : o < 2 ∧ k < 128
    · rw [if_pos hlt, if_pos hlt, show min 128 (m + 1 - (131 + 16384 * o + 128 * k)) =
        min 128 (m - (131 + 16384 * o + 128 * k)) by omega]
    · rw [if_neg hlt, if_neg hlt]
  by_cases ho : o = outer
  · subst ho
    rw [update_self]
    by_cases hk : k = inner
    · subst hk
      rw [update_self, leafPtrs, leafPtrs, if_pos (by omega), if_pos (by omega),
        show min 128 (m + 1 - (131 + 16384 * o + 128 * k)) = (m - 131) % 128 + 1 by omega,
        show min 128 (m - (131 + 16384 * o + 128 * k)) = (m - 131) % 128 by omega,
        List.range_succ, List.map_append, List.map_singleton,
        show r + (131 + 16384 * o + 128 * k) + (m - 131) % 128 = r + m by omega]
    · rw [update_of_ne hk, hsame (.inr hk)]
  · rw [update_of_ne ho, hsame (.inl ho)]

/-- The pointers of the first `m` blocks of a file whose first block is block `r` of the
data area. -/
def FilePtrs.upTo (r m : Nat) : FilePtrs where
  direct l := if l < m ∧ l < 3 then r + l else 0
  indirectPtrs := (List.range (min m 131 - 3)).map fun j => r + 3 + j
  dindirectOuterPtrs := leafPtrs r m

theorem FilePtrs.upTo_zero (r : Nat) : FilePtrs.upTo r 0 = .empty := by
  simp only [FilePtrs.upTo, FilePtrs.empty, FilePtrs.mk.injEq]
  refine ⟨by simp, rfl, ?_⟩
  funext o k
  exact leafPtrs_of_le (by omega)

/-- One turn of the loop over the blocks of a file. -/
theorem FilePtrs.add_ok {ptrs : FilePtrs} (h : (FilePtrs.upTo r m).add name m (r + m) = .ok ptrs) :
    ptrs = FilePtrs.upTo r (m + 1) ∧ m < 32899 := by
  rw [FilePtrs.add] at h
  have hleaf : m < 131 → leafPtrs r (m + 1) = leafPtrs r m := by
    intro hm
    funext o k
    rw [leafPtrs_of_le (by omega), leafPtrs_of_le (by omega)]
  have hdirect : ¬ m < 3 → (FilePtrs.upTo r (m + 1)).direct = (FilePtrs.upTo r m).direct := by
    intro hm
    funext l
    simp only [FilePtrs.upTo]
    congr 1
    apply propext
    omega
  by_cases h3 : m < 3
  · rw [if_pos h3, pure_eq_ok] at h
    subst h
    refine ⟨?_, by omega⟩
    simp only [FilePtrs.upTo, FilePtrs.mk.injEq]
    refine ⟨?_, ?_, (hleaf (by omega)).symm⟩
    · funext l
      by_cases hl : l = m
      · rw [hl, update_self, if_pos (by omega)]
      · rw [update_of_ne hl]
        congr 1
        apply propext
        omega
    · rw [show min m 131 - 3 = 0 by omega, show min (m + 1) 131 - 3 = 0 by omega]
  · rw [if_neg h3] at h
    by_cases h131 : m < 3 + 128
    · rw [if_pos h131, pure_eq_ok] at h
      subst h
      refine ⟨?_, by omega⟩
      rw [← hdirect h3]
      simp only [FilePtrs.upTo, FilePtrs.mk.injEq, true_and]
      refine ⟨?_, (hleaf (by omega)).symm⟩
      rw [show min (m + 1) 131 - 3 = min m 131 - 3 + 1 by omega, List.range_succ, List.map_append,
        List.map_singleton, show r + 3 + (min m 131 - 3) = r + m by omega]
    · rw [if_neg h131] at h
      by_cases hout : 2 ≤ (m - 3 - 128) / (128 * 128)
      · simp only [if_pos hout] at h
        cases h
      · simp only [if_neg hout, pure_eq_ok] at h
        subst h
        refine ⟨?_, by omega⟩
        rw [← hdirect h3]
        simp only [FilePtrs.upTo, FilePtrs.mk.injEq, true_and]
        refine ⟨by rw [show min (m + 1) 131 = min m 131 by omega], ?_⟩
        exact (leafPtrs_succ r (by omega) (by omega) (by omega) (by omega)).symm

/-- The loop over the blocks of a file. -/
theorem dataLoop_ok (ok : LayoutOk L) {data : Bytes} :
    ∀ {n l : Nat} {img img' : Image} {ptrs : FilePtrs}, Inv L img →
      Mkfs.dataRel L img.nextBlock = r + l →
      dataLoop L name data n l img (FilePtrs.upTo r l) = .ok (img', ptrs) →
      Appends L img img' ∧ img'.nextBlock = img.nextBlock + n ∧ ptrs = FilePtrs.upTo r (l + n) ∧
        (0 < n → l + n ≤ 32899) ∧
        ∀ j, j < n → store img' (img.nextBlock + j) =
          blockOf (data.slice ((l + j) * 512) ((l + j + 1) * 512))
  | 0, l, img, img', ptrs, inv, _, h => by
      rw [dataLoop, pure_eq_ok, Prod.mk.injEq] at h
      obtain ⟨rfl, rfl⟩ := h
      exact ⟨.refl inv, rfl, rfl, fun h => absurd h (by omega), fun j hj => absurd hj (by omega)⟩
  | n + 1, l, img, img', ptrs, inv, hrel, h => by
      simp only [dataLoop, bind_eq_ok] at h
      obtain ⟨⟨blk, img1⟩, halloc, img2, hwrite, ptrs1, hadd, hloop⟩ := h
      obtain ⟨rfl, happ, hnext, hblk⟩ := inv.append ok halloc hwrite
      simp only [hrel] at hadd
      obtain ⟨rfl, hmax⟩ := FilePtrs.add_ok hadd
      have hlo := inv.lo
      have hdata := ok.lt_data
      have hrel' : dataRel L img2.nextBlock = r + (l + 1) := by
        rw [dataRel] at hrel ⊢
        omega
      obtain ⟨happ', hnext', hptrs, hmax', hblks⟩ := dataLoop_ok ok happ.inv hrel' hloop
      refine ⟨happ.trans happ', by omega, ?_, ?_, ?_⟩
      · rw [hptrs, Nat.add_assoc, Nat.add_comm 1 n]
      · intro _
        by_cases hn : 0 < n
        · have := hmax' hn
          omega
        · omega
      · intro j hj
        cases j with
        | zero =>
          rw [Nat.add_zero, Nat.add_zero, happ'.old _ (by omega) (by omega), hblk]
        | succ j =>
          have := hblks j (by omega)
          rw [hnext] at this
          rw [show img.nextBlock + (j + 1) = img.nextBlock + 1 + j by omega, this,
            show l + 1 + j = l + (j + 1) by omega]

/-! ## Pages -/

theorem packI_ok {v : Nat} {w : UInt32} (h : packI v = .ok w) : v < 2 ^ 32 ∧ w = UInt32.ofNat v := by
  rw [packI] at h
  by_cases hv : v < 2 ^ 32
  · rw [if_pos hv, pure_eq_ok] at h
    exact ⟨hv, h.symm⟩
  · rw [if_neg hv] at h
    cases h

/-- A word packed into a page. -/
theorem packInto_ok {buf buf' : Bytes} {v : Nat} (hsize : buf.size = 512)
    (h : packInto buf (k * 4) v = .ok buf') :
    buf'.size = 512 ∧ k < 128 ∧
      buf'.block 512 0 = (buf.block 512 0).setWord k (UInt32.ofNat v) := by
  simp only [packInto, bind_eq_ok, guard_eq_ok, pure_eq_ok] at h
  obtain ⟨w, hw, hlt, rfl⟩ := h
  obtain ⟨-, rfl⟩ := packI_ok hw
  have hw4 : (Bytes.ofWords [UInt32.ofNat v]).size = 4 := rfl
  refine ⟨?_, by omega, ?_⟩
  · rw [Bytes.size_setSlice (by rw [hw4]) (by omega), hsize]
  · rw [Bytes.block_setSlice (show k * 4 = 512 * 0 + 4 * k by omega) (by rw [hw4]) (by omega)
      (by omega), update_self, Bytes.splice_ofWords, Block.setWord]
    apply Block.ext_u8
    intro j hj
    rw [Block.u8_setWords hj, Block.u8_setWords hj]
    by_cases hin : k ≤ j / 4 ∧ j / 4 < k + 1
    · rw [if_pos hin, show j / 4 - k = 0 by omega, List.length_singleton, if_pos hin]
      rfl
    · rw [if_neg hin, List.length_singleton, if_neg hin]

/-- Pointers packed into a page. -/
theorem packPtrs_ok : ∀ {ptrs : List Nat} {buf buf' : Bytes} {i : Nat}, buf.size = 512 →
    packPtrs buf ptrs i = .ok buf' → buf'.size = 512 ∧
      ∀ k, k < 128 → (buf'.block 512 0).word k =
        if i ≤ k ∧ k < i + ptrs.length then UInt32.ofNat (ptrs.getD (k - i) 0)
        else (buf.block 512 0).word k
  | [], buf, buf', i, hsize, h => by
      rw [packPtrs, pure_eq_ok] at h
      subst h
      refine ⟨hsize, fun k _ => ?_⟩
      rw [List.length_nil, if_neg (by omega)]
  | p :: ptrs, buf, buf', i, hsize, h => by
      rw [packPtrs, bind_eq_ok] at h
      obtain ⟨buf1, hpack, hrest⟩ := h
      obtain ⟨hsize1, hi, hblk1⟩ := packInto_ok hsize hpack
      obtain ⟨hsize', hword⟩ := packPtrs_ok hsize1 hrest
      refine ⟨hsize', fun k hk => ?_⟩
      rw [hword k hk, hblk1, List.length_cons]
      by_cases hki : k = i
      · subst hki
        rw [if_neg (by omega), if_pos (by omega), Block.word_setWord_same (by omega), Nat.sub_self]
        rfl
      · rw [Block.word_setWord_ne hki]
        by_cases hin : i + 1 ≤ k ∧ k < i + 1 + ptrs.length
        · rw [if_pos hin, if_pos (by omega), show k - i = k - (i + 1) + 1 by omega,
            List.getD_cons_succ]
        · rw [if_neg hin, if_neg (by omega)]

/-- A block written with a whole page. -/
theorem blockOf_page {buf : Bytes} (h : buf.size = 512) : blockOf buf = buf.block 512 0 := by
  apply Block.ext_u8
  intro j hj
  rw [blockOf, Block.u8_splice hj, Bytes.u8_block hj, if_pos (by omega), Nat.sub_zero,
    Nat.mul_zero, Nat.zero_add]

/-- An index page is added. -/
theorem addPage_ok (ok : LayoutOk L) (inv : Inv L img) {ptrs : List Nat} {blk : Nat}
    (h : addPage L img ptrs = .ok (blk, img')) :
    blk = img.nextBlock ∧ Appends L img img' ∧ img'.nextBlock = img.nextBlock + 1 ∧
      ∀ k, k < 128 → (store img' blk).word k = UInt32.ofNat (ptrs.getD k 0) := by
  simp only [addPage, bind_eq_ok, pure_eq_ok, Prod.mk.injEq] at h
  obtain ⟨⟨blk', img1⟩, halloc, buf, hpack, img2, hwrite, rfl, rfl⟩ := h
  obtain ⟨rfl, happ, hnext, hblk⟩ := inv.append ok halloc hwrite
  obtain ⟨hsize, hword⟩ := packPtrs_ok rfl hpack
  refine ⟨rfl, happ, hnext, fun k hk => ?_⟩
  rw [hblk, blockOf_page hsize, hword k hk, Bytes.block_zeros, Block.word_zero, Nat.sub_zero]
  by_cases hlen : k < ptrs.length
  · rw [if_pos (by omega)]
  · rw [if_neg (by omega), List.getD_eq_getElem?_getD, List.getElem?_eq_none (by omega)]
    rfl

theorem getD_map_range (f : Nat → Nat) (c k : Nat) :
    ((List.range c).map f).getD k 0 = if k < c then f k else 0 := by
  by_cases hk : k < c
  · simp [List.getD_eq_getElem?_getD, hk]
  · simp [List.getD_eq_getElem?_getD, hk]

/-- The indirect page of a file of `n` blocks. -/
theorem addIndirect_ok (ok : LayoutOk L) (inv : Inv L img)
    (h : addIndirect L img (FilePtrs.upTo r n).indirectPtrs = .ok (rel, img')) :
    Appends L img img' ∧ img'.nextBlock = img.nextBlock + (if 3 < n then 1 else 0) ∧
      rel = (if 3 < n then dataRel L img.nextBlock else 0) ∧
      (3 < n → ∀ k, k < 128 → (store img' img.nextBlock).word k =
        UInt32.ofNat (if 3 + k < n then r + (3 + k) else 0)) := by
  have hempty : (FilePtrs.upTo r n).indirectPtrs.isEmpty = true ↔ ¬ 3 < n := by
    simp only [FilePtrs.upTo, List.isEmpty_iff, List.map_eq_nil_iff, List.range_eq_nil]
    omega
  rw [addIndirect] at h
  by_cases hn : 3 < n
  · rw [if_neg (fun hc => hempty.mp hc hn)] at h
    simp only [bind_eq_ok, pure_eq_ok, Prod.mk.injEq] at h
    obtain ⟨⟨blk, img1⟩, hpage, rfl, rfl⟩ := h
    obtain ⟨rfl, happ, hnext, hword⟩ := addPage_ok ok inv hpage
    refine ⟨happ, by rw [if_pos hn, hnext], by rw [if_pos hn], fun _ k hk => ?_⟩
    rw [hword k hk, FilePtrs.upTo, getD_map_range]
    congr 1
    by_cases hkn : 3 + k < n
    · rw [if_pos hkn, if_pos (by omega), Nat.add_assoc]
    · rw [if_neg hkn, if_neg (by omega)]
  · rw [if_pos (hempty.mpr hn), pure_eq_ok, Prod.mk.injEq] at h
    obtain ⟨rfl, rfl⟩ := h
    exact ⟨.refl inv, by rw [if_neg hn]; rfl, by rw [if_neg hn], fun hc => absurd hc hn⟩

/-- The keys of a dictionary of inner pages. -/
theorem innerKeys_leafPtrs (r n : Nat) (ho : o < 2) :
    innerKeys (leafPtrs r n o) = List.range (inners n o) := by
  have hkey : ∀ k, k ∈ List.range 128 → ((!(leafPtrs r n o k).isEmpty) =
      decide (k < inners n o)) := by
    intro k hk
    rw [List.mem_range] at hk
    rw [Bool.eq_iff_iff, Bool.not_eq_true', ← Bool.not_eq_true, List.isEmpty_iff, leafPtrs,
      if_pos ⟨ho, hk⟩, List.map_eq_nil_iff, List.range_eq_nil, decide_eq_true_eq, lt_inners]
    omega
  have hle : inners n o ≤ 128 := Nat.min_le_left _ _
  rw [innerKeys, List.filter_congr hkey, show 128 = inners n o + (128 - inners n o) by omega,
    List.range_add, List.filter_append, List.filter_eq_self.mpr (by simp),
    List.filter_eq_nil_iff.mpr (by simp), List.append_nil]

/-- The loop over inner pages. -/
theorem innerLoop_ok (ok : LayoutOk L) {innerMap : Nat → List Nat} :
    ∀ {m i : Nat} {img img' : Image} {buf buf' : Bytes}, Inv L img → buf.size = 512 →
      innerLoop L innerMap (List.range' i m) img buf = .ok (img', buf') →
      Appends L img img' ∧ img'.nextBlock = img.nextBlock + m ∧ buf'.size = 512 ∧
        (∀ k, k < 128 → (buf'.block 512 0).word k =
          if i ≤ k ∧ k < i + m then UInt32.ofNat (dataRel L (img.nextBlock + (k - i)))
          else (buf.block 512 0).word k) ∧
        ∀ j, j < m → ∀ k, k < 128 → (store img' (img.nextBlock + j)).word k =
          UInt32.ofNat ((innerMap (i + j)).getD k 0)
  | 0, i, img, img', buf, buf', inv, hsize, h => by
      rw [List.range'_zero, innerLoop, pure_eq_ok, Prod.mk.injEq] at h
      obtain ⟨rfl, rfl⟩ := h
      refine ⟨.refl inv, rfl, hsize, fun k _ => ?_, fun j hj => absurd hj (by omega)⟩
      rw [if_neg (by omega)]
  | m + 1, i, img, img', buf, buf', inv, hsize, h => by
      simp only [List.range'_succ, innerLoop, bind_eq_ok] at h
      obtain ⟨⟨blk, img1⟩, hpage, buf1, hpack, hloop⟩ := h
      obtain ⟨rfl, happ, hnext, hword⟩ := addPage_ok ok inv hpage
      obtain ⟨hsize1, -, hblk1⟩ := packInto_ok hsize hpack
      obtain ⟨happ', hnext', hsize', hbuf, hinner⟩ := innerLoop_ok ok happ.inv hsize1 hloop
      have hlo := inv.lo
      have hdata := ok.lt_data
      simp only [hnext] at hbuf hinner hnext'
      refine ⟨happ.trans happ', by omega, hsize', fun k hk => ?_, fun j hj k hk => ?_⟩
      · rw [hbuf k hk, hblk1]
        by_cases hki : k = i
        · subst hki
          rw [if_neg (by omega), if_pos (by omega), Block.word_setWord_same (by omega), Nat.sub_self,
            Nat.add_zero]
        · rw [Block.word_setWord_ne hki]
          by_cases hin : i + 1 ≤ k ∧ k < i + 1 + m
          · rw [if_pos hin, if_pos (by omega),
              show img.nextBlock + 1 + (k - (i + 1)) = img.nextBlock + (k - i) by omega]
          · rw [if_neg hin, if_neg (by omega)]
      · cases j with
        | zero =>
          rw [Nat.add_zero, Nat.add_zero, happ'.old _ (by omega) (by omega), hword k hk]
        | succ j =>
          rw [show img.nextBlock + (j + 1) = img.nextBlock + 1 + j by omega, hinner j (by omega) k hk,
            show i + 1 + j = i + (j + 1) by omega]

/-- A doubly-indirect page of a file of `n` blocks. -/
theorem addDindirect_ok (ok : LayoutOk L) (inv : Inv L img) (ho : o < 2)
    (h : addDindirect L img (leafPtrs r n o) = .ok (rel, img')) :
    Appends L img img' ∧ img'.nextBlock = img.nextBlock + dinds n o ∧
      rel = (if 131 + 16384 * o < n then dataRel L img.nextBlock else 0) ∧
      (131 + 16384 * o < n → ∀ k, k < 128 → (store img' img.nextBlock).word k =
        UInt32.ofNat (if 131 + 16384 * o + 128 * k < n then dataRel L (img.nextBlock + 1 + k)
          else 0)) ∧
      ∀ j, j < inners n o → ∀ k, k < 128 → (store img' (img.nextBlock + 1 + j)).word k =
        UInt32.ofNat (if 131 + 16384 * o + 128 * j + k < n
          then r + (131 + 16384 * o + 128 * j + k) else 0) := by
  have hpos : 0 < inners n o ↔ 131 + 16384 * o < n := by
    rw [lt_inners]
    omega
  have hempty : (innerKeys (leafPtrs r n o)).isEmpty = true ↔ ¬ 131 + 16384 * o < n := by
    rw [innerKeys_leafPtrs r n ho, List.isEmpty_iff, List.range_eq_nil, ← hpos]
    omega
  rw [addDindirect] at h
  by_cases hn : 131 + 16384 * o < n
  · rw [if_neg (fun hc => hempty.mp hc hn), innerKeys_leafPtrs r n ho, List.range_eq_range'] at h
    simp only [bind_eq_ok, pure_eq_ok, Prod.mk.injEq] at h
    obtain ⟨⟨blk, img1⟩, halloc, ⟨img2, buf⟩, hloop, img3, hwrite, rfl, rfl⟩ := h
    obtain ⟨rfl, happ1, hnext1, hzero⟩ := inv.alloc ok halloc
    obtain ⟨happ2, hnext2, hsize, hbuf, hinner⟩ := innerLoop_ok ok happ1.inv rfl hloop
    simp only [hnext1] at hbuf hinner hnext2
    have hlo := inv.lo
    have hdata := ok.lt_data
    obtain ⟨inv3, hstore, hnext3, hi, hd, hr⟩ := happ2.inv.write ok hwrite hlo (by omega)
    have happ := happ1.trans happ2
    have hblk : store img3 img.nextBlock = buf.block 512 0 := by
      rw [hstore, update_self, happ2.old _ (by omega) (by omega), hzero,
        ← blockOf_page hsize]
      rfl
    refine ⟨⟨inv3, by omega, ?_, hi.trans happ.inodes, hd.trans happ.dentries,
      hr.trans happ.rootBlocks⟩, ?_, by rw [if_pos hn], fun _ k hk => ?_, fun j hj k hk => ?_⟩
    · intro b hb hb'
      rw [hstore, update_of_ne (by omega), happ.old b hb hb']
    · rw [dinds, if_pos hn]
      omega
    · rw [hblk, hbuf k hk, Nat.zero_add, Nat.sub_zero, Bytes.block_zeros, Block.word_zero]
      by_cases hkn : 131 + 16384 * o + 128 * k < n
      · rw [if_pos hkn, if_pos ⟨Nat.zero_le _, lt_inners.mpr ⟨hk, hkn⟩⟩]
      · rw [if_neg hkn, if_neg fun hc => hkn (lt_inners.mp hc.2).2]
        rfl
    · rw [hstore, update_of_ne (by omega), hinner j hj k hk, Nat.zero_add, leafPtrs,
        if_pos ⟨ho, (lt_inners.mp hj).1⟩, getD_map_range]
      congr 1
      by_cases hkn : 131 + 16384 * o + 128 * j + k < n
      · rw [if_pos hkn, if_pos (by omega), Nat.add_assoc]
      · rw [if_neg hkn, if_neg (by omega)]
  · rw [if_pos (hempty.mpr hn), pure_eq_ok, Prod.mk.injEq] at h
    obtain ⟨rfl, rfl⟩ := h
    refine ⟨.refl inv, by rw [dinds, if_neg hn]; rfl, by rw [if_neg hn], fun hc => absurd hc hn, ?_⟩
    intro j hj
    exact absurd (hpos.mp (by omega)) hn

/-! ## A file -/

/-- The inode of eight words. -/
def inodeOfWords (ws : List UInt32) : Inode where
  size := ws.getD 0 0
  flags := ws.getD 1 0
  block k := ws.getD (2 + k) 0
  indirect := ws.getD 5 0
  dindirect k := ws.getD (6 + k) 0

/-- An inode and its pages lie one after the other: `page j` is block `j` of a file of `n`
blocks that starts at block `r` of the data area.  Where the file has no block, the
pointer is 0. -/
structure FileAt (r n : Nat) (ino : Inode) (page : Nat → Blk) : Prop where
  top : ∀ p : Place, p.InInode →
    ino.top p = if p.Within n then UInt32.ofNat (r + slot n p) else 0
  entry : ∀ (p q : Place) (k : Nat), p.parent = some (q, k) → q.Within n → k < 128 →
    (page (slot n q)).word k = if p.Within n then UInt32.ofNat (r + slot n p) else 0

theorem FileAt.congr {ino : Inode} {page page' : Nat → Blk}
    (h : FileAt r n ino page) (hpage : ∀ j, j < span n → page' j = page j) :
    FileAt r n ino page' := by
  refine ⟨h.top, fun p q k hp hq hk => ?_⟩
  rw [hpage _ (slot_lt_span hq)]
  exact h.entry p q k hp hq hk

/-- The words of the inode of a file of `n` blocks that starts at block `r`. -/
def fileWords (size r n : Nat) : List Nat :=
  [size, 0, if 0 < n then r else 0, if 1 < n then r + 1 else 0, if 2 < n then r + 2 else 0,
    if 3 < n then r + n else 0, if 131 < n then r + (n + 1) else 0,
    if 16515 < n then r + (n + 130) else 0]

/-- The inode of a file of `n` blocks that starts at block `r`. -/
def fileInode (size r n : Nat) : Inode := inodeOfWords ((fileWords size r n).map UInt32.ofNat)

theorem ofNat_ite (c : Prop) [Decidable c] (v : Nat) :
    UInt32.ofNat (if c then v else 0) = if c then UInt32.ofNat v else 0 :=
  apply_ite UInt32.ofNat c v 0

/-- A file lies in place when its pages hold the pointers. -/
theorem fileAt_of_words {size : Nat} {page : Nat → Blk} (hn : n ≤ 32899)
    (hind : 3 < n → ∀ k, k < 128 →
      (page n).word k = UInt32.ofNat (if 3 + k < n then r + (3 + k) else 0))
    (hdind : ∀ o, o < 2 → 131 + 16384 * o < n → ∀ k, k < 128 →
      (page (n + 1 + 129 * o)).word k =
        UInt32.ofNat (if 131 + 16384 * o + 128 * k < n then r + (n + 2 + 129 * o + k) else 0))
    (hinner : ∀ o, o < 2 → ∀ j, j < inners n o → ∀ k, k < 128 →
      (page (n + 2 + 129 * o + j)).word k = UInt32.ofNat
        (if 131 + 16384 * o + 128 * j + k < n then r + (131 + 16384 * o + 128 * j + k) else 0)) :
    FileAt r n (fileInode size r n) page where
  top p hp := by
    cases p with
    | data l =>
      have hl : l < 3 := hp
      have hw : (Place.data l).Within n ↔ l < n := and_iff_left (by omega)
      have htop : (fileInode size r n).top (.data l) =
          UInt32.ofNat (if l < n then r + l else 0) := by
        interval_cases l <;> rfl
      rw [htop, ofNat_ite]
      simp only [hw]
      rfl
    | ind => exact ofNat_ite (3 < n) _
    | dind o =>
      have ho : o < 2 := hp
      have hw : (Place.dind o).Within n ↔ 131 + 16384 * o < n := and_iff_right ho
      have htop : (fileInode size r n).top (.dind o) =
          UInt32.ofNat (if 131 + 16384 * o < n then r + (n + 1 + 129 * o) else 0) := by
        interval_cases o <;> rfl
      rw [htop, ofNat_ite]
      simp only [hw]
      rfl
    | inner o k => exact hp.elim
  entry p q k hp hq hk := by
    cases p with
    | data l =>
      have hw : (Place.data l).Within n ↔ l < n := and_iff_left_of_imp fun h => by omega
      simp only [hw, slot, ← ofNat_ite]
      by_cases hl : l < 3
      · rw [Place.parent_direct hl] at hp
        cases hp
      by_cases hl' : l < 131
      · rw [Place.parent_indirect hl hl'] at hp
        cases hp
        rw [hind hq _ hk, show 3 + (l - 3) = l by omega]
      · rw [Place.parent_dindirect hl'] at hp
        cases hp
        obtain ⟨ho, hi, hlt⟩ := hq
        rw [hinner _ ho _ (lt_inners.mpr ⟨hi, hlt⟩) _ hk,
          show 131 + 16384 * ((l - 131) / 16384) + 128 * ((l - 131) % 16384 / 128) +
            (l - 131) % 128 = l by omega]
    | ind => cases hp
    | dind o => cases hp
    | inner o k' =>
      cases hp
      have hw : (Place.inner o k).Within n ↔ 131 + 16384 * o + 128 * k < n := by
        rw [Place.Within, and_iff_right hq.1, and_iff_right hk]
      simp only [hw, slot, hdind o hq.1 hq.2 k hk, ofNat_ite]

theorem packWords_ok {vs : List Nat} {b : Bytes} (h : packWords vs = .ok b) :
    (∀ v ∈ vs, v < 2 ^ 32) ∧ b = Bytes.ofWords (vs.map UInt32.ofNat) := by
  simp only [packWords, bind_eq_ok, pure_eq_ok] at h
  obtain ⟨ws, hws, rfl⟩ := h
  suffices hmap : ∀ {vs : List Nat} {ws : List UInt32}, vs.mapM packI = .ok ws →
      (∀ v ∈ vs, v < 2 ^ 32) ∧ ws = vs.map UInt32.ofNat by
    obtain ⟨hlt, rfl⟩ := hmap hws
    exact ⟨hlt, rfl⟩
  intro vs
  induction vs with
  | nil =>
    intro ws h
    rw [List.mapM_nil, pure_eq_ok] at h
    subst h
    exact ⟨by simp, rfl⟩
  | cons v vs ih =>
    intro ws h
    simp only [List.mapM_cons, bind_eq_ok, pure_eq_ok] at h
    obtain ⟨w, hw, ws', hws', rfl⟩ := h
    obtain ⟨hv, rfl⟩ := packI_ok hw
    obtain ⟨hvs, rfl⟩ := ih hws'
    refine ⟨?_, rfl⟩
    intro u hu
    rcases List.mem_cons.mp hu with rfl | hu
    · exact hv
    · exact hvs u hu

/-- What adding a file of the content `data` leaves. -/
structure Added (L : Layout) (img : Image) (name : Name) (data : List UInt8) (i : Nat)
    (img' : Image) : Prop where
  inv : Inv L img'
  next : img'.nextBlock = img.nextBlock + span ((data.length + 511) / 512)
  old : ∀ b, L.bitmapBlockCount < b → b < img.nextBlock → store img' b = store img b
  index : i < img.inodes.length
  inodes : img'.inodes = img.inodes.set i (.ofWords ((fileWords data.length
    (dataRel L img.nextBlock) ((data.length + 511) / 512)).map UInt32.ofNat))
  dentries : img'.dentries = img.dentries ++ [(i, name)]
  rootBlocks : img'.rootBlocks = img.rootBlocks
  max : (data.length + 511) / 512 ≤ 32899
  file : FileAt (dataRel L img.nextBlock) ((data.length + 511) / 512)
    (fileInode data.length (dataRel L img.nextBlock) ((data.length + 511) / 512))
    fun j => store img' (img.nextBlock + j)
  data : ∀ l, l < (data.length + 511) / 512 → store img' (img.nextBlock + l) =
    blockOf ((Bytes.ofList data).slice (l * 512) ((l + 1) * 512))

theorem addFile_ok (ok : LayoutOk L) (inv : Inv L img) {data : List UInt8} {i : Nat}
    (h : addFile L img name data i = .ok img') : Added L img name data i img' := by
  simp only [addFile, bind_eq_ok, guard_eq_ok, pure_eq_ok] at h
  generalize hn : (data.length + 511) / 512 = n at h
  generalize hr : dataRel L img.nextBlock = r
  obtain ⟨⟨img1, ptrs⟩, hdata, ⟨ind, img2⟩, hind, ⟨d0, img3⟩, hd0, ⟨d1, img4⟩, hd1, ino, hpack,
    hlen, rfl⟩ := h
  rw [← FilePtrs.upTo_zero r] at hdata
  obtain ⟨happ1, hnext1, rfl, hmax, hblks⟩ := dataLoop_ok ok inv (by rw [hr, Nat.add_zero]) hdata
  rw [Nat.zero_add] at hind hd0 hd1 hpack hmax
  obtain ⟨happ2, hnext2, rfl, hword2⟩ := addIndirect_ok ok happ1.inv hind
  obtain ⟨happ3, hnext3, rfl, hword3, hinner3⟩ := addDindirect_ok ok happ2.inv (by omega) hd0
  obtain ⟨happ4, hnext4, rfl, hword4, hinner4⟩ := addDindirect_ok ok happ3.inv (by omega) hd1
  obtain ⟨-, rfl⟩ := packWords_ok hpack
  have happ34 := happ3.trans happ4
  have happ24 := happ2.trans happ34
  have happ := happ1.trans happ24
  have hlo := inv.lo
  have hldata := ok.lt_data
  have hrel : ∀ {b j : Nat}, b = img.nextBlock + j → dataRel L b = r + j := by
    intro b j hb
    rw [dataRel] at hr ⊢
    omega
  have hmax' : n ≤ 32899 := by
    by_cases hpos : 0 < n
    · exact hmax hpos
    · omega
  -- where each page starts, when it is there
  have h1 : 131 < n → img2.nextBlock = img.nextBlock + (n + 1) := by
    intro h
    rw [hnext2, if_pos (by omega)]
    omega
  have h2 : 16515 < n → img3.nextBlock = img.nextBlock + (n + 130) := by
    intro h
    rw [hnext3, h1 (by omega), dinds, if_pos (by omega), inners]
    omega
  have hwords : [data.length, 0, (FilePtrs.upTo r n).direct 0, (FilePtrs.upTo r n).direct 1,
      (FilePtrs.upTo r n).direct 2, if 3 < n then dataRel L img1.nextBlock else 0,
      if 131 + 16384 * 0 < n then dataRel L img2.nextBlock else 0,
      if 131 + 16384 * 1 < n then dataRel L img3.nextBlock else 0] =
      fileWords data.length r n := by
    have hdirect : ∀ l, l < 3 → (FilePtrs.upTo r n).direct l = if l < n then r + l else 0 :=
      fun l hl => by simp only [FilePtrs.upTo, hl, and_true]
    have hd0 : (if 131 + 16384 * 0 < n then dataRel L img2.nextBlock else 0) =
        if 131 < n then r + (n + 1) else 0 := if_ctx_congr Iff.rfl (fun h => hrel (h1 h)) fun _ => rfl
    have hd1 : (if 131 + 16384 * 1 < n then dataRel L img3.nextBlock else 0) =
        if 16515 < n then r + (n + 130) else 0 :=
      if_ctx_congr Iff.rfl (fun h => hrel (h2 h)) fun _ => rfl
    rw [hdirect 0 (by omega), hdirect 1 (by omega), hdirect 2 (by omega), hd0, hd1, hrel hnext1]
    rfl
  refine ⟨⟨happ.inv.size, happ.inv.lo, happ.inv.hi, happ.inv.bits, happ.inv.fresh,
    happ.inv.inodeArea⟩, ?_, happ.old, ?_, ?_, by rw [← happ.dentries], happ.rootBlocks, ?_, ?_, ?_⟩
  · show img4.nextBlock = _
    rw [hn, span]
    omega
  · rw [← happ.inodes]
    exact Nat.lt_of_not_le hlen
  · rw [← happ.inodes, hn, hr, ← hwords]
  · rw [hn]
    exact hmax'
  · rw [hn, hr]
    refine fileAt_of_words hmax' ?_ ?_ ?_
    · intro h k hk
      show (store img4 _).word k = _
      rw [happ34.old _ (by omega) (by rw [hnext2, if_pos h]; omega), ← hnext1, hword2 h k hk]
    · intro o ho h k hk
      show (store img4 _).word k = _
      interval_cases o
      · have hb := h1 h
        have hnext : img2.nextBlock < img3.nextBlock := by
          rw [hnext3, dinds, if_pos h]
          omega
        rw [show img.nextBlock + (n + 1 + 129 * 0) = img2.nextBlock by omega,
          happ4.old _ (by omega) hnext, hword3 h k hk,
          hrel (j := n + 2 + 129 * 0 + k) (by omega)]
      · have hb := h2 h
        rw [show img.nextBlock + (n + 1 + 129 * 1) = img3.nextBlock by omega, hword4 h k hk,
          hrel (j := n + 2 + 129 * 1 + k) (by omega)]
    · intro o ho j hj k hk
      show (store img4 _).word k = _
      have hlt := lt_inners.mp hj
      interval_cases o
      · have hb := h1 (by omega)
        have hnext : img2.nextBlock + 1 + j < img3.nextBlock := by
          rw [hnext3, dinds, if_pos (by omega)]
          omega
        rw [show img.nextBlock + (n + 2 + 129 * 0 + j) = img2.nextBlock + 1 + j by omega,
          happ4.old _ (by omega) hnext, hinner3 j hj k hk]
      · have hb := h2 (by omega)
        rw [show img.nextBlock + (n + 2 + 129 * 1 + j) = img3.nextBlock + 1 + j by omega,
          hinner4 j hj k hk]
  · intro l hl
    rw [hn] at hl
    show store img4 _ = _
    have := hblks l hl
    rw [Nat.zero_add] at this
    rw [happ24.old _ (by omega) (by omega), this]

end MiniOs.Mkfs
