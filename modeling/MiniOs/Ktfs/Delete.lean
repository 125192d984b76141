import MiniOs.Ktfs.Release
import MiniOs.Ktfs.Whole

/-!
# Deleting a file

`ktfs_delete` frees what the direct slots of the inode and the entries of its index page
name, whatever the size of the file, and then the index page.  It clears the inode, puts
the last entry of the directory in the place of the file's entry, and moves the end of
the root.  The doubly-indirect pages and what they name are not freed.
-/

namespace MiniOs.Ktfs

open Fallible (exec exec_bind_ok)

variable {g : Geom} {N : Nat} {D : Scope} {I : Set Nat} {s s' s'' : Nat → Blk}
  {ino root : Inode} {k n : Nat} {name : List UInt8}

/-! ## The blocks that are freed -/

/-- The blocks of the direct slots, of the entries of the index page, and the page, as
far as there are pointers. -/
def fileBlocks (g : Geom) (s : Nat → Blk) (ino : Inode) : Set UInt32 :=
  {v | v ≠ 0 ∧ (ptr g s ino .ind = v ∨ ∃ l, l < 131 ∧ ptr g s ino (.data l) = v)}

/-- A slot is freed when it holds a pointer. -/
theorem Released.slot (ok : GeomOk g N) {held : List Nat} (room : held.length < cacheNent)
    (v : UInt32) (s : Nat → Blk) :
    Released g ({v} \ {0}) s (if v ≠ 0 then
      (Prog.run (inRange N) (freeDataBlock g room v : K held Unit).run s).2 else s) := by
  have hfree := exec_freeDataBlock ok room v s
  rw [Fallible.exec] at hfree
  by_cases hv : v = 0
  · rw [if_neg (not_not.mpr hv), hv, Set.sdiff_self]
    exact .refl s
  · rw [if_pos hv, hfree, Set.sdiff_singleton_eq_self (by simpa using fun h => hv h.symm)]
    exact .freed v s

/-- The loop over the direct slots. -/
theorem run_freeDirect (ok : GeomOk g N) (ino : Inode) :
    ∀ (n k : Nat) (s : Nat → Blk), Released g (slots ino.direct k n \ {0}) s
      (Prog.run (inRange N) (freeDirect g ino n k) s).2
  | 0, k, s => by
      rw [slots_zero, Set.empty_sdiff]
      exact .refl s
  | n + 1, k, s => by
      have hstep := Released.slot ok (by decide : ([] : List Nat).length < cacheNent)
        (ino.direct k) s
      have hrest := hstep.trans (run_freeDirect ok ino n (k + 1) _)
      rw [slots_succ, Set.union_sdiff_distrib]
      unfold freeDirect
      split_ifs at hrest ⊢ <;> exact hrest

/-- The loop over the entries of a block that is held, be it an index page or not. -/
theorem run_freeEntries (ok : GeomOk g N) (page : Nat) : ∀ (n k : Nat) (s : Nat → Blk), ∃ F,
    Released g F s (Prog.run (inRange N) (freeEntries g page n k) s).2 ∧
      (g.bitmapBlockCount < page → F = slots (s page).word k n \ {0})
  | 0, k, s => ⟨∅, .refl s, fun _ => by rw [slots_zero, Set.empty_sdiff]⟩
  | n + 1, k, s => by
      have hstep := Released.slot ok (by simp : [page].length < cacheNent) ((s page).word k) s
      obtain ⟨F, hF, hexact⟩ := run_freeEntries ok page n (k + 1) (if (s page).word k ≠ 0 then
        (Prog.run (inRange N) (freeDataBlock g (by simp) ((s page).word k) : K [page] Unit).run s).2
        else s)
      have hrest := hstep.trans hF
      refine ⟨{(s page).word k} \ {0} ∪ F, ?_, fun hpage => ?_⟩
      · unfold freeEntries
        rw [Prog.run_load_bind]
        split_ifs at hrest ⊢ <;> exact hrest
      · -- the page is not in the bitmap, so it stays
        rw [hexact hpage, hstep.other page hpage, slots_succ, Set.union_sdiff_distrib]

theorem fileBlocks_eq (g : Geom) (s : Nat → Blk) (ino : Inode) :
    fileBlocks g s ino = (slots ino.direct 0 3 \ {0}) ∪
      ((slots (entry g s ino.indirect) 0 128 \ {0}) ∪ ({ino.indirect} \ {0})) := by
  have hdirect : ∀ l, l < 3 → ptr g s ino (.data l) = ino.direct l :=
    fun l hl => ptr_top (Place.parent_direct hl)
  have hentry : ∀ l, l < 128 → ptr g s ino (.data (l + 3)) = entry g s ino.indirect l := by
    intro l hl
    rw [ptr_child (Place.parent_indirect (by omega) (by omega)), ptr_top rfl]
    rfl
  ext v
  constructor
  · rintro ⟨hv, heq | ⟨l, hl, heq⟩⟩
    · exact .inr (.inr ⟨heq.symm, hv⟩)
    · by_cases hl3 : l < 3
      · rw [hdirect l hl3] at heq
        exact .inl ⟨⟨l, by omega, by omega, heq⟩, hv⟩
      · obtain ⟨l, rfl⟩ : ∃ l', l = l' + 3 := ⟨l - 3, by omega⟩
        rw [hentry l (by omega)] at heq
        exact .inr (.inl ⟨⟨l, by omega, by omega, heq⟩, hv⟩)
  · rintro (⟨⟨l, -, hl, heq⟩, hv⟩ | ⟨⟨l, -, hl, heq⟩, hv⟩ | ⟨heq, hv⟩)
    · exact ⟨hv, .inr ⟨l, by omega, by rw [hdirect l (by omega)]; exact heq⟩⟩
    · exact ⟨hv, .inr ⟨l + 3, by omega, by rw [hentry l (by omega)]; exact heq⟩⟩
    · exact ⟨hv, .inl heq.symm⟩

/-- Whatever the pointers of an inode are, `ktfs_delete` frees some blocks and changes
nothing else before it clears the inode.  They are the blocks of the file when the pointer to
its index page is one. -/
theorem run_freeFile (ok : GeomOk g N) (ino : Inode) (s : Nat → Blk) :
    ∃ F, Released g F s (Prog.run (inRange N) (freeFile g ino) s).2 ∧
      ((ino.indirect ≠ 0 → DataPtr g ino.indirect) → F = fileBlocks g s ino) := by
  have hdirect := run_freeDirect ok ino 3 0 s
  rw [fileBlocks_eq]
  unfold freeFile
  by_cases hind : ino.indirect = 0
  · simp only [Prog.run_bind, if_neg (not_not.mpr hind)]
    refine ⟨_, hdirect, fun _ => ?_⟩
    have hnone : slots (entry g s 0) 0 128 ⊆ {0} := by
      rintro v ⟨l, -, -, rfl⟩
      exact entry_zero l
    rw [hind, Set.sdiff_self, Set.sdiff_eq_empty.mpr hnone, Set.union_empty, Set.union_empty]
  · simp only [Prog.run_bind, if_pos hind]
    generalize (Prog.run (inRange N) (freeDirect g ino 3 0) s).2 = s₁ at hdirect ⊢
    have hblock : ∃ F, Released g F s₁ (Prog.run (inRange N)
        (Fallible.withBlock (dataBlkToPos g ino.indirect) (by decide) (- EIO) (do
          freeEntries g (dataBlkToPos g ino.indirect) 128 0
          return (none, .ok ())) : K [] Unit).run s₁).2 ∧
        (DataPtr g ino.indirect →
          F = slots (s₁ (dataBlkToPos g ino.indirect)).word 0 128 \ {0}) := by
      show ∃ F, Released g F s₁ (Prog.run (inRange N) (Prog.withBlock _ _ _ _) s₁).2 ∧ _
      rw [Prog.run]
      split
      case isTrue =>
        obtain ⟨F, hF, hexact⟩ := run_freeEntries ok (dataBlkToPos g ino.indirect) 128 0 s₁
        exact ⟨F, hF, fun hpage => hexact (ok.bitmap_lt_data hpage)⟩
      case isFalse hrange =>
        exact ⟨_, .refl s₁, fun hpage => absurd (ok.inRange_data hpage) hrange⟩
    obtain ⟨F, hF, hexact⟩ := hblock
    have hlast := fun s => Released.freed (g := g) ino.indirect s
    simp only [← exec_freeDataBlock ok (by decide : ([] : List Nat).length < cacheNent)] at hlast
    refine ⟨_, hdirect.trans (hF.trans (hlast _)), fun harea => ?_⟩
    have hpage := harea hind
    have hone : ({ino.indirect} : Set UInt32) \ {0} = {ino.indirect} :=
      Set.sdiff_singleton_eq_self fun h => hind h.symm
    rw [hexact hpage, hdirect.other _ (ok.bitmap_lt_data hpage), funext (entry_of_ne hind), hone]
    rfl

/-! ## The entry that is removed -/

/-- The position of the block that holds entry `d`. -/
def entryPos (g : Geom) (s : Nat → Blk) (d : Nat) : Nat :=
  dataBlkToPos g (ptr g s (rootOf g s) (.data (d * 16 / 512)))

/-- The store after entry `n` was copied over entry `k`. -/
def moved (g : Geom) (s : Nat → Blk) (n k : Nat) : Nat → Blk :=
  Function.update s (entryPos g s k) ((s (entryPos g s k)).splice (k * 16 % 512) 16
    fun j => (s (entryPos g s n)).u8 (n * 16 % 512 + j))

/-- The block of an entry is resolved. -/
theorem exec_resolveRoot (ok : GeomOk g N) (h : Linked g s (rootOf g s)) {d : Nat}
    (hd : d < (rootOf g s).size.toNat / 16) :
    exec (inRange N) (resolveOrAlloc g (rootOf g s) (d * 16 / 512 % 2 ^ 32) false) s =
      (.ok (ptr g s (rootOf g s) (.data (d * 16 / 512)), rootOf g s), s) ∧
    inRange N (dataBlkToPos g (ptr g s (rootOf g s) (.data (d * 16 / 512)))) = true := by
  have hlt := dentry_lt_nblks hd
  have hmax := h.max
  refine ⟨?_, ok.inRange_data (h.area _ (h.within_data hlt))⟩
  rw [show d * 16 / 512 % 2 ^ 32 = d * 16 / 512 by omega]
  exact h.exec_resolveOrAlloc ok hlt false

/-- The loop that looks for the entry of an inode. -/
theorem run_findInodeLoop (ok : GeomOk g N) (h : Linked g s (rootOf g s)) (target : Nat) :
    ∀ n i, i + n ≤ (rootOf g s).size.toNat / 16 →
      Prog.run (inRange N) (findInodeLoop g (rootOf g s) target n i) s =
        ((List.range' i n).find? (fun d => (dentryAt g s d).inode = target), s)
  | 0, _, _ => rfl
  | n + 1, i, hn => by
      obtain ⟨hres, hrange⟩ := exec_resolveRoot ok h (d := i) (by omega)
      unfold findInodeLoop
      simp only [Prog.run_bind, List.range'_succ, List.find?_cons]
      generalize hprog : ExceptT.run _ = prog
      have hread : Prog.run (inRange N) prog s = (.ok (dentryAt g s i).inode, s) := by
        rw [← hprog, ← Fallible.exec, exec_bind_ok _ _ hres]
        simp only
        rw [exec_bind_ok _ _ (Fallible.exec_readBlock _ _ hrange _ _),
          dentryAt_eq h (dentry_lt_nblks (by omega))]
        rfl
      simp only [hread]
      by_cases heq : (dentryAt g s i).inode = target
      · simp [heq]
      · simp only [heq, if_false, decide_false]
        exact run_findInodeLoop ok h target n (i + 1) (by omega)

/-- The last entry is copied over entry `k`. -/
theorem exec_moveLast (ok : GeomOk g N) (h : Linked g s (rootOf g s))
    (hn : (rootOf g s).size.toNat / 16 = n + 1) (hk : k < n) :
    exec (inRange N) (moveLast g (rootOf g s) (n + 1) k) s = (.ok (), moved g s n k) := by
  obtain ⟨hlast, hlrange⟩ := exec_resolveRoot ok h (d := n) (by omega)
  obtain ⟨hfound, hfrange⟩ := exec_resolveRoot ok h (d := k) (by omega)
  unfold moveLast
  simp only [Nat.add_sub_cancel]
  rw [exec_bind_ok _ _ (Fallible.exec_orFail_ok _ _ hlast)]
  simp only
  rw [exec_bind_ok _ _ (Fallible.exec_readBlock _ _ hlrange _ _),
    exec_bind_ok _ _ (Fallible.exec_orFail_ok _ _ hfound)]
  exact Fallible.exec_modifyBlock _ _ hfrange _ _ _

/-- The entries after the last one was copied over entry `k`. -/
theorem dentryOf_moveLast (h : Whole g I s) (hroot : g.rootInodeIdx ∈ I)
    (hn : (rootOf g s).size.toNat / 16 = n + 1) (hk : k < n) {d : Nat} (hd : d < n) :
    dentryOf (moved g s n k (entryPos g s d)) (d * 16 % 512) =
      if d = k then dentryAt g s n else dentryAt g s d := by
  have hl : Linked g s (rootOf g s) := h.linked _ hroot
  have hlk : k * 16 / 512 < (rootOf g s).nblks := dentry_lt_nblks (by omega)
  have hld : d * 16 / 512 < (rootOf g s).nblks := dentry_lt_nblks (by omega)
  rw [dentryAt_eq hl (dentry_lt_nblks (by omega)), dentryAt_eq hl hld, moved, entryPos, entryPos,
    entryPos]
  by_cases hblk : d * 16 / 512 = k * 16 / 512
  · rw [hblk, Function.update_self]
    by_cases hdk : d = k
    · rw [if_pos hdk, hdk, dentryOf_splice_copy (by omega)]
    · rw [if_neg hdk, dentryOf_splice_ne (by omega) (by omega)]
  · have hne : ptr g s (rootOf g s) (.data (d * 16 / 512)) ≠
        ptr g s (rootOf g s) (.data (k * 16 / 512)) := fun heq =>
      hblk (Place.data.inj (h.once _ hroot _ hroot _ _ (hl.within_data hld) (hl.within_data hlk) heq).2)
    rw [Function.update_of_ne fun heq => hne (dataBlkToPos_inj heq), if_neg]
    rintro rfl
    exact hblk rfl

/-- The root with one entry less. -/
def Inode.pop (root : Inode) : Inode := { root with size := root.size - 16 }

theorem Inode.top_pop (root : Inode) (p : Place) : root.pop.top p = root.top p := by
  cases p <;> rfl

theorem Inode.size_pop (h : 16 ≤ root.size.toNat) :
    root.pop.size.toNat = root.size.toNat - 16 := by
  have hle : (16 : UInt32) ≤ root.size := UInt32.le_iff_toNat_le.mpr h
  rw [pop, UInt32.toNat_sub_of_le _ _ hle]
  rfl

theorem Inode.nblks_pop (h : 16 ≤ root.size.toNat) :
    root.pop.nblks ≤ root.nblks := by
  rw [nblks, nblks, size_pop h]
  omega

/-- Filling a gap with the last element leaves the other elements. -/
theorem perm_moveLast {α : Type} (f : Nat → α) (hk : k ≤ n) :
    ((List.range n).map fun d => if d = k then f n else f d).Perm
      (((List.range (n + 1)).map f).eraseIdx k) := by
  have hset : ((List.range n).map fun d => if d = k then f n else f d) =
      ((List.range n).map f).set k (f n) := by
    apply List.ext_getElem
    · simp
    · intro d _ _
      simp [List.getElem_set, eq_comm]
  rw [hset, List.range_succ, List.map_append, List.map_singleton]
  rcases Nat.lt_or_eq_of_le hk with hlt | rfl
  · rw [List.eraseIdx_append_of_lt_length (by simpa using hlt)]
    exact (List.set_perm_cons_eraseIdx (by simpa using hlt) _).trans (List.perm_append_singleton _ _).symm
  · rw [List.set_eq_of_length_le (by simp), List.eraseIdx_append_of_length_le (by simp)]
    simp

/-- Entry `k` of the directory is removed, by a change inside the root and a new end. -/
structure Removed (g : Geom) (s : Nat → Blk) (k : Nat) (s₁ : Nat → Blk) : Prop where
  inPlace : InPlace g g.rootInodeIdx s s₁
  directory : (directory g (setInode g s₁ g.rootInodeIdx (rootOf g s).pop)).Perm
    ((directory g s).eraseIdx k)

/-- The store after the blocks of file `i` were freed and its inode was cleared. -/
def cleared (N : Nat) (g : Geom) (s : Nat → Blk) (i : Nat) : Nat → Blk :=
  setInode g (Prog.run (inRange N) (freeFile g (inodeAt g s i)) s).2 i Inode.zero

section Cleared

variable {i : Nat} {p : Place}

theorem cleared_data (ok : GeomOk g N) (hi : i < inodeCount g) {v : UInt32} (hv : DataPtr g v) :
    cleared N g s i (dataBlkToPos g v) = s (dataBlkToPos g v) := by
  obtain ⟨F, hF, -⟩ := run_freeFile ok (inodeAt g s i) s
  rw [cleared, setInode_data ok hi (ok.dataBlkToPos_lt hv).1, hF.data ok hv]

theorem inodeAt_cleared_self : inodeAt g (cleared N g s i) i = Inode.zero :=
  inodeAt_setInode_same _ _

theorem inodeAt_cleared_ne (ok : GeomOk g N) (hi : i < inodeCount g) {j : Nat}
    (hj : j < inodeCount g) (hne : j ≠ i) : inodeAt g (cleared N g s i) j = inodeAt g s j := by
  obtain ⟨F, hF, -⟩ := run_freeFile ok (inodeAt g s i) s
  rw [cleared, inodeAt_setInode_ne ok hi hj hne, inodeAt_congr ok hj fun b hb _ => hF.other b hb]

/-- The other files are as before. -/
theorem Whole.ptr_cleared (ok : GeomOk g N) (h : Whole g I s) (hi : i ∈ I) {j : Nat} (hj : j ∈ I)
    (hne : j ≠ i) (hw : p.Within (inodeAt g s j).nblks) :
    ptr g (cleared N g s i) (inodeAt g (cleared N g s i) j) p = ptr g s (inodeAt g s j) p := by
  rw [inodeAt_cleared_ne ok (h.range i hi) (h.range j hj) hne]
  exact ptr_congr_within
    (fun q _ hq => cleared_data ok (h.range i hi) ((h.linked j hj).area q hq)) p hw

theorem Place.not_within_zero : ¬ p.Within Inode.zero.nblks := by
  have hz : Inode.zero.nblks = 0 := rfl
  rw [hz]
  cases p with
  | data l => exact fun h => absurd h.1 (Nat.not_lt_zero _)
  | ind => exact Nat.not_lt_zero _
  | dind o => exact fun h => absurd h.2 (Nat.not_lt_zero _)
  | inner o k => exact fun h => absurd h.2.2 (Nat.not_lt_zero _)

theorem Whole.cleared (ok : GeomOk g N) (h : Whole g I s) (hi : i ∈ I) :
    Whole g I (cleared N g s i) := by
  refine h.narrow (fun j hj => ?_) fun j hj p hw => ?_
  · by_cases hji : j = i
    · rw [hji, inodeAt_cleared_self]
      exact Nat.zero_le _
    · rw [inodeAt_cleared_ne ok (h.range i hi) (h.range j hj) hji]
  · by_cases hji : j = i
    · rw [hji, inodeAt_cleared_self] at hw
      exact absurd hw Place.not_within_zero
    · rw [inodeAt_cleared_ne ok (h.range i hi) (h.range j hj) hji] at hw
      exact h.ptr_cleared ok hi hj hji hw

theorem Whole.directory_cleared (ok : GeomOk g N) (h : Whole g I s) (hi : i ∈ I)
    (hroot : g.rootInodeIdx ∈ I) (hne : g.rootInodeIdx ≠ i) :
    directory g (Ktfs.cleared N g s i) = directory g s := by
  refine (directory_of_kept (h.linked _ hroot).max
    (inodeAt_cleared_ne ok (h.range i hi) ok.root_lt hne) ?_).1
  rintro v ⟨p, hw, rfl⟩
  rw [rootOf, (h.linked _ hroot).rawPtr_eq hw]
  exact cleared_data ok (h.range i hi) ((h.linked _ hroot).area p hw)

end Cleared

/-- What `ktfs_delete` of the file with inode `i` leaves of the files `I`. -/
structure Unlinked (g : Geom) (I : Set Nat) (s : Nat → Blk) (i : Nat) (s' : Nat → Blk) : Prop where
  whole : Whole g I s'
  inode : inodeAt g s' i = Inode.zero
  inodes : ∀ j, j < inodeCount g → j ≠ i → j ≠ g.rootInodeIdx → inodeAt g s' j = inodeAt g s j
  content : ∀ j ∈ I, j ≠ i → j ≠ g.rootInodeIdx →
    content g s' (inodeAt g s' j) = content g s (inodeAt g s j)
  size : (rootOf g s').size.toNat = (rootOf g s).size.toNat - 16
  directory : ∃ k, ∃ hk : k < (directory g s).length, (directory g s)[k].inode = i ∧
    (directory g s').Perm ((directory g s).eraseIdx k)

/-- `ktfs_delete` of a name that is not found. -/
theorem exec_deleteEntry_error {e : Int}
    (hfind : exec (inRange N) (findDentry g name) s = (.error e, s)) :
    exec (inRange N) (deleteEntry g name) s = (.error e, s) :=
  Fallible.exec_bind_error _ _ hfind

section Remove

variable (ok : GeomOk g N) (h : Whole g I s) (hroot : g.rootInodeIdx ∈ I)
  (h16 : (rootOf g s).size.toNat % 16 = 0)

include ok h hroot h16

/-- The directory after a change of the entries of the root and a new end. -/
theorem directory_pop (hn : (rootOf g s).size.toNat / 16 = n + 1) (hp : InPlace g g.rootInodeIdx s s')
    (hent : ∀ d, d < n → dentryOf (s' (entryPos g s d)) (d * 16 % 512) =
      if d = k then dentryAt g s n else dentryAt g s d) :
    directory g (setInode g s' g.rootInodeIdx (rootOf g s).pop) =
      (List.range n).map fun d => if d = k then dentryAt g s n else dentryAt g s d := by
  have hl : Linked g s (rootOf g s) := h.linked _ hroot
  have hself : rootOf g (setInode g s' g.rootInodeIdx (rootOf g s).pop) = (rootOf g s).pop :=
    inodeAt_setInode_same _ _
  have hlarge : 16 ≤ (rootOf g s).size.toNat := by omega
  have hsize := Inode.size_pop hlarge
  have hnb := Inode.nblks_pop hlarge
  have hcount : (rootOf g s).pop.size.toNat / 16 = n := by omega
  have hptr : ∀ p : Place, p.Within (rootOf g s).pop.nblks →
      ptr g s' (rootOf g s).pop p = ptr g s (rootOf g s) p := fun p hw => by
    have := hp.ptr_eq ok h hroot hroot (hw.mono hnb)
    rw [hp.inode ok h hroot ok.root_lt, ← rootOf] at this
    rw [ptr_congr_top (Inode.top_pop _), this]
  have hset : ∀ p : Place, p.Within (rootOf g s).pop.nblks →
      ptr g (setInode g s' g.rootInodeIdx (rootOf g s).pop) (rootOf g s).pop p =
        ptr g s (rootOf g s) p := fun p hw => by
    rw [← hptr p hw]
    refine ptr_congr_within (fun q _ hq => setInode_data ok ok.root_lt ?_ _) p hw
    rw [hptr q hq]
    exact (ok.dataBlkToPos_lt (hl.area q (hq.mono hnb))).1
  have hl' := hl.narrow hnb hset
  rw [directory, hself, hcount]
  refine List.map_congr_left fun d hd => ?_
  have hd := List.mem_range.mp hd
  have hlt : d * 16 / 512 < (rootOf g s).pop.nblks := by
    rw [Inode.nblks]
    omega
  have hw := hl'.within_data hlt
  rw [dentryAt_eq (by rw [hself]; exact hl') (by rw [hself]; exact hlt), hself, hset _ hw,
    setInode_data ok ok.root_lt (ok.dataBlkToPos_lt (hl.area _ (hw.mono hnb))).1]
  exact hent d hd

/-- The last entry goes where entry `k` was, and the end of the root moves. -/
theorem exec_removeEntry (hn : (rootOf g s).size.toNat / 16 = n + 1) (hk : k ≤ n) :
    ∃ s₁, exec (inRange N) (do
        if k ≠ n + 1 - 1 then moveLast g (rootOf g s) (n + 1) k
        writeInode g g.rootInodeIdx (rootOf g s).pop : K [] Unit) s =
          (.ok (), setInode g s₁ g.rootInodeIdx (rootOf g s).pop) ∧ Removed g s k s₁ := by
  have hl : Linked g s (rootOf g s) := h.linked _ hroot
  have hdir : directory g s = (List.range (n + 1)).map (dentryAt g s) := by
    rw [directory, hn]
  rcases Nat.lt_or_eq_of_le hk with hlt | rfl
  · have hlk : k * 16 / 512 < (rootOf g s).nblks := dentry_lt_nblks (by omega)
    have hp : InPlace g g.rootInodeIdx s (moved g s n k) := .update hlk rfl _
    refine ⟨_, ?_, hp, ?_⟩
    · rw [if_pos (by omega), exec_bind_ok _ _ (exec_moveLast ok hl hn hlt)]
      exact exec_writeInode ok ok.root_lt _ _
    · rw [directory_pop ok h hroot h16 hn hp fun d hd => dentryOf_moveLast h hroot hn hlt hd, hdir]
      exact perm_moveLast _ hk
  · refine ⟨s, ?_, .refl _ _, ?_⟩
    · rw [if_neg (by omega)]
      exact exec_writeInode ok ok.root_lt _ _
    · rw [directory_pop (k := k) ok h hroot h16 hn (.refl _ _) fun d hd => by
        rw [if_neg (by omega), dentryAt_eq hl (dentry_lt_nblks (by omega)), entryPos], hdir]
      exact perm_moveLast _ hk

variable {e : Dentry} (he : e ∈ directory g s) (hi : e.inode ∈ I) (hne : e.inode ≠ g.rootInodeIdx)
  (hfind : exec (inRange N) (findDentry g name) s = (.ok e.inode, s))

include he hi hne hfind

/-- `ktfs_delete` of a name that is found clears the file and removes its entry. -/
theorem exec_deleteEntry :
    ∃ k s₁, (∃ hk : k < (directory g s).length, (directory g s)[k].inode = e.inode) ∧
      Removed g (cleared N g s e.inode) k s₁ ∧ exec (inRange N) (deleteEntry g name) s =
        (.ok (), setInode g s₁ g.rootInodeIdx (rootOf g s).pop) := by
  have hrange := h.range _ hi
  have hr : rootOf g (cleared N g s e.inode) = rootOf g s :=
    inodeAt_cleared_ne ok hrange ok.root_lt hne.symm
  have hdir := h.directory_cleared ok hi hroot hne.symm
  have hw := h.cleared ok hi
  have hlen : (directory g s).length = (rootOf g s).size.toNat / 16 := length_directory
  obtain ⟨n, hn⟩ : ∃ n, (rootOf g s).size.toNat / 16 = n + 1 :=
    ⟨_, (Nat.succ_pred_eq_of_pos (by rw [← hlen]; exact List.length_pos_of_mem he)).symm⟩
  unfold deleteEntry
  rw [exec_bind_ok _ _ hfind, exec_bind_ok _ _ (exec_readInode ok hrange s),
    exec_bind_ok _ _ (Fallible.exec_lift _ _ _),
    exec_bind_ok _ _ (exec_writeInode ok hrange _ _), ← cleared]
  generalize cleared N g s e.inode = s2 at hr hdir hw ⊢
  have hfound := run_findInodeLoop ok (hw.linked _ hroot) e.inode (n + 1) 0
    (by rw [hr]; omega)
  rw [exec_bind_ok _ _ (exec_readInode ok ok.root_lt s2), ← rootOf, hr, hn,
    exec_bind_ok _ _ (Fallible.exec_lift _ _ _)]
  rw [hr] at hfound
  rw [hfound, ← List.range_eq_range']
  have hn2 : (rootOf g s2).size.toNat / 16 = n + 1 := by rw [hr, hn]
  have hdir2 : directory g s2 = (List.range (n + 1)).map (dentryAt g s2) := by
    rw [directory, hn2]
  cases hsearch : (List.range (n + 1)).find? fun d => (dentryAt g s2 d).inode = e.inode with
  | none =>
    -- the entry that was found by its name is there
    rw [← hdir, hdir2] at he
    obtain ⟨d, hd, hed⟩ := List.mem_map.mp he
    have := List.find?_eq_none.mp hsearch d hd
    rw [hed] at this
    simp at this
  | some k =>
    have hk := List.mem_range.mp (List.mem_of_find?_eq_some hsearch)
    have hkey : (dentryAt g s2 k).inode = e.inode := by simpa using List.find?_some hsearch
    obtain ⟨s₁, hexec, hrem⟩ := exec_removeEntry ok hw hroot (by rw [hr]; exact h16) hn2
      (Nat.le_of_lt_succ hk)
    rw [hr] at hexec
    refine ⟨k, s₁, ⟨by rw [hlen, hn]; exact hk, ?_⟩, hrem, hexec⟩
    simp only [← hdir, hdir2, List.getElem_map, List.getElem_range, hkey]

theorem deleteEntry_whole :
    ∃ s', exec (inRange N) (deleteEntry g name) s = (.ok (), s') ∧ Unlinked g I s e.inode s' := by
  obtain ⟨k, s₁, ⟨hk, hkey⟩, hrem, hexec⟩ := exec_deleteEntry ok h hroot h16 he hi hne hfind
  have hrange := h.range _ hi
  have hw := h.cleared ok hi
  have hw1 := hrem.inPlace.whole ok hw hroot
  have hr : rootOf g (cleared N g s e.inode) = rootOf g s :=
    inodeAt_cleared_ne ok hrange ok.root_lt hne.symm
  have hr1 : inodeAt g s₁ g.rootInodeIdx = rootOf g s :=
    (hrem.inPlace.inode ok hw hroot ok.root_lt).trans hr
  have h16' : 16 ≤ (rootOf g s).size.toNat := by
    have := List.length_pos_of_mem he
    rw [length_directory] at this
    omega
  have hinode : ∀ j, j < inodeCount g → j ≠ g.rootInodeIdx → inodeAt g (setInode g s₁ g.rootInodeIdx
      (rootOf g s).pop) j = inodeAt g (cleared N g s e.inode) j := fun j hj hjr => by
    rw [inodeAt_setInode_ne ok ok.root_lt hj hjr, hrem.inPlace.inode ok hw hroot hj]
  have hdir := hrem.directory
  rw [hr, h.directory_cleared ok hi hroot hne.symm] at hdir
  refine ⟨_, hexec, ?_, ?_, ?_, ?_, ?_, k, hk, hkey, hdir⟩
  · refine hw1.shorten ok hroot ?_ fun p _ => ?_
    · rw [hr1]
      exact Inode.nblks_pop h16'
    · rw [hr1]
      exact ptr_congr_top (Inode.top_pop _) p
  · rw [hinode _ hrange hne, inodeAt_cleared_self]
  · intro j hj hji hjr
    rw [hinode j hj hjr, inodeAt_cleared_ne ok hrange hj hji]
  · intro j hj hji hjr
    have hlj := h.linked j hj
    have hl1 := hw1.linked j hj
    have hsame : inodeAt g (cleared N g s e.inode) j = inodeAt g s j :=
      inodeAt_cleared_ne ok hrange (h.range j hj) hji
    have hsame1 : inodeAt g s₁ j = inodeAt g s j :=
      (hrem.inPlace.inode ok hw hroot (h.range j hj)).trans hsame
    rw [hsame1] at hl1
    have hin := hrem.inPlace.content_eq ok hw hroot hj hjr
    have hfree : content g (cleared N g s e.inode) (inodeAt g s j) = content g s (inodeAt g s j) := by
      refine content_congr hlj (fun p hp => ?_) fun p hp => cleared_data ok hrange (hlj.area p hp)
      have := h.ptr_cleared ok hi hj hji hp
      rwa [hsame] at this
    rw [hsame1, hsame, hfree] at hin
    rw [hinode j (h.range j hj) hjr, hsame, ← hin]
    exact content_congr hl1 (fun p hp => hl1.ptr_setInode ok ok.root_lt _ hp)
      fun p hp => setInode_data ok ok.root_lt (ok.dataBlkToPos_lt (hl1.area p hp)).1 _
  · have hself : rootOf g (setInode g s₁ g.rootInodeIdx (rootOf g s).pop) = (rootOf g s).pop :=
      inodeAt_setInode_same _ _
    rw [hself, Inode.size_pop h16']

end Remove

end MiniOs.Ktfs
