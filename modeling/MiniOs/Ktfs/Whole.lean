import MiniOs.Ktfs.Directory

/-!
# Whole files

What the reading calls, a write below the end and `ktfs_delete` need of the files is less
than ownership: the places below the ends name blocks of the data area, each of them
alone.  An exact bitmap gives this, whatever lies past the ends, and it does not depend on
the bitmap, so it stays when blocks are freed.
-/

namespace MiniOs.Ktfs

open Fallible (exec)

variable {g : Geom} {N : Nat} {D : Scope} {I : Set Nat} {s s' s'' : Nat → Blk}
  {ino : Inode} {p : Place} {j len pos : Nat} {v : UInt32}

/-- The files `I` are whole: below their ends they name blocks, and share none. -/
structure Whole (g : Geom) (I : Set Nat) (s : Nat → Blk) : Prop where
  range : ∀ i ∈ I, i < inodeCount g
  linked : ∀ i ∈ I, Linked g s (inodeAt g s i)
  once : ∀ i ∈ I, ∀ j ∈ I, ∀ p q : Place, p.Within (inodeAt g s i).nblks →
    q.Within (inodeAt g s j).nblks →
      ptr g s (inodeAt g s i) p = ptr g s (inodeAt g s j) q → i = j ∧ p = q

theorem Owned.whole (h : Owned g D (inodeAt g s) s) : Whole g D.inodes s where
  range := h.range
  linked _ hi := h.linked hi
  once i hi j hj p q hp hq heq :=
    Prod.mk.inj (h.excl.injOn (h.within i hi p hp) (h.within j hj q hq) heq)

theorem Whole.mono (h : Whole g I s) {J : Set Nat} (hJ : J ⊆ I) : Whole g J s :=
  ⟨fun i hi => h.range i (hJ hi), fun i hi => h.linked i (hJ hi),
    fun i hi j hj => h.once i (hJ hi) j (hJ hj)⟩

/-- Files that get no longer and name the same blocks stay whole. -/
theorem Whole.narrow (h : Whole g I s)
    (hnb : ∀ i ∈ I, (inodeAt g s' i).nblks ≤ (inodeAt g s i).nblks)
    (hptr : ∀ i ∈ I, ∀ p : Place, p.Within (inodeAt g s' i).nblks →
      ptr g s' (inodeAt g s' i) p = ptr g s (inodeAt g s i) p) : Whole g I s' := by
  refine ⟨h.range, fun i hi => (h.linked i hi).narrow (hnb i hi) (hptr i hi), ?_⟩
  intro i hi j hj p q hp hq heq
  rw [hptr i hi p hp, hptr j hj q hq] at heq
  exact h.once i hi j hj p q (hp.mono (hnb i hi)) (hq.mono (hnb j hj)) heq

theorem Linked.ptr_setInode (ok : GeomOk g N) (h : Linked g s ino) {i : Nat}
    (hi : i < inodeCount g) (x : Inode) (hw : p.Within ino.nblks) :
    ptr g (setInode g s i x) ino p = ptr g s ino p :=
  ptr_congr_within
    (fun q _ hq => setInode_data ok hi (ok.dataBlkToPos_lt (h.area q hq)).1 x) p hw

/-- A file is made shorter. -/
theorem Whole.shorten (ok : GeomOk g N) (h : Whole g I s) {i : Nat} (hi : i ∈ I) {x : Inode}
    (hnb : x.nblks ≤ (inodeAt g s i).nblks)
    (hx : ∀ p : Place, p.Within x.nblks → ptr g s x p = ptr g s (inodeAt g s i) p) :
    Whole g I (setInode g s i x) := by
  have hrange := h.range i hi
  have hself : inodeAt g (setInode g s i x) i = x := inodeAt_setInode_same _ _
  have hother : ∀ j ∈ I, j ≠ i → inodeAt g (setInode g s i x) j = inodeAt g s j :=
    fun j hj hne => inodeAt_setInode_ne ok hrange (h.range j hj) hne x
  refine h.narrow (fun j hj => ?_) fun j hj p hw => ?_
  · by_cases hji : j = i
    · rw [hji, hself]
      exact hnb
    · rw [hother j hj hji]
  · by_cases hji : j = i
    · subst hji
      rw [hself] at hw ⊢
      rw [← hx p hw]
      refine ptr_congr_within (fun q _ hq => setInode_data ok hrange ?_ x) p hw
      rw [hx q hq]
      exact (ok.dataBlkToPos_lt ((h.linked j hi).area q (hq.mono hnb))).1
    · rw [hother j hj hji] at hw ⊢
      exact (h.linked j hj).ptr_setInode ok hrange x hw

/-- The content of a file stays when its blocks do. -/
theorem content_congr (h : Linked g s ino)
    (hptr : ∀ p : Place, p.Within ino.nblks → ptr g s' ino p = ptr g s ino p)
    (hdata : ∀ p : Place, p.Within ino.nblks →
      s' (dataBlkToPos g (ptr g s ino p)) = s (dataBlkToPos g (ptr g s ino p))) :
    content g s' ino = content g s ino := by
  refine List.map_congr_left fun q hq => ?_
  have hw := h.within_data (lt_nblks (List.mem_range.mp hq))
  rw [byteAt, byteAt, hptr _ hw, hdata _ hw]

/-! ## Changes inside a file -/

/-- The store changed at most in the blocks of data of file `i`. -/
def InPlace (g : Geom) (i : Nat) (s s' : Nat → Blk) : Prop :=
  ∀ b, (∀ l, l < (inodeAt g s i).nblks →
    b ≠ dataBlkToPos g (ptr g s (inodeAt g s i) (.data l))) → s' b = s b

namespace InPlace

variable {i : Nat}

theorem refl (i : Nat) (s : Nat → Blk) : InPlace g i s s := fun _ _ => rfl

/-- A block of data of the file is written. -/
theorem update {l : Nat} (hl : l < (inodeAt g s i).nblks)
    (hv : ptr g s (inodeAt g s i) (.data l) = v) (x : Blk) :
    InPlace g i s (Function.update s (dataBlkToPos g v) x) := by
  subst hv
  exact fun _ hb => Function.update_of_ne (hb l hl) _ _

section

variable (ok : GeomOk g N) (h : Whole g I s) (hi : i ∈ I) (hp : InPlace g i s s')

include ok h hi hp

/-- The metadata stays. -/
theorem metadata {b : Nat} (hb : b < g.firstDataBlock) : s' b = s b := by
  refine hp b fun l hl heq => ?_
  have hlt := ok.dataBlkToPos_lt ((h.linked i hi).area _ ((h.linked i hi).within_data hl))
  omega

theorem bitmap {b : Nat} (hb : b ≤ g.bitmapBlockCount) : s' b = s b := by
  have := ok.firstData
  exact hp.metadata ok h hi (by omega)

theorem inode (hj : j < inodeCount g) : inodeAt g s' j = inodeAt g s j :=
  inodeAt_congr ok hj fun _ _ hb => hp.metadata ok h hi hb

end

/-- The blocks of the other files stay, and the pages of the file. -/
theorem block (h : Whole g I s) (hi : i ∈ I) (hp : InPlace g i s s') (hj : j ∈ I)
    (hw : p.Within (inodeAt g s j).nblks) (hne : j ≠ i ∨ p.IsPage) :
    s' (dataBlkToPos g (ptr g s (inodeAt g s j) p)) =
      s (dataBlkToPos g (ptr g s (inodeAt g s j) p)) := by
  refine hp _ fun l hl heq => ?_
  obtain ⟨hji, hpl⟩ := h.once j hj i hi p (.data l) hw ((h.linked i hi).within_data hl)
    (dataBlkToPos_inj heq)
  rcases hne with hne | hne
  · exact hne hji
  · rw [hpl] at hne
    exact hne

section

variable (ok : GeomOk g N) (h : Whole g I s) (hi : i ∈ I) (hp : InPlace g i s s')

include ok h hi hp

theorem ptr_eq (hj : j ∈ I) (hw : p.Within (inodeAt g s j).nblks) :
    ptr g s' (inodeAt g s' j) p = ptr g s (inodeAt g s j) p := by
  rw [hp.inode ok h hi (h.range j hj)]
  exact ptr_congr_within (fun q hq hqw => hp.block h hi hj hqw (.inr hq)) p hw

theorem whole :
    Whole g I s' := by
  refine h.narrow (fun j hj => ?_) fun j hj p hw => ?_
  · rw [hp.inode ok h hi (h.range j hj)]
  · rw [hp.inode ok h hi (h.range j hj)] at hw
    exact hp.ptr_eq ok h hi hj hw

theorem trans (hp' : InPlace g i s' s'') : InPlace g i s s'' := by
  intro b hb
  rw [← hp b hb]
  refine hp' b fun l hl => ?_
  rw [hp.inode ok h hi (h.range i hi)] at hl
  rw [hp.ptr_eq ok h hi hi ((h.linked i hi).within_data hl)]
  exact hb l hl

/-- The other files keep their content. -/
theorem content_eq (hj : j ∈ I) (hne : j ≠ i) :
    content g s' (inodeAt g s' j) = content g s (inodeAt g s j) := by
  rw [hp.inode ok h hi (h.range j hj)]
  refine content_congr (h.linked j hj) (fun p hw => ?_) fun p hw => hp.block h hi hj hw (.inl hne)
  have hptr := hp.ptr_eq ok h hi hj hw
  rwa [hp.inode ok h hi (h.range j hj)] at hptr

/-- The directory stays when the file is not the root. -/
theorem directory_eq (hroot : g.rootInodeIdx ∈ I) (hne : g.rootInodeIdx ≠ i) :
    directory g s' = directory g s := by
  refine (directory_of_kept (h.linked _ hroot).max (hp.inode ok h hi ok.root_lt) ?_).1
  rintro v ⟨p, hw, rfl⟩
  rw [rootOf, (h.linked _ hroot).rawPtr_eq hw]
  exact hp.block h hi hroot hw (.inl hne)

end

/-- What the files own stays, also past their ends. -/
theorem owned (ok : GeomOk g N) (h : Owned g D (inodeAt g s) s) (hi : i ∈ D.inodes)
    (hp : InPlace g i s s') : Owned g D (inodeAt g s) s' ∧
      ∀ j ∈ D.inodes, ∀ p, ptr g s' (inodeAt g s j) p = ptr g s (inodeAt g s j) p := by
  refine h.keep (fun j q hx hq => hp _ fun l hl heq => ?_)
    fun v => (usedPtr_congr ok (fun _ hb => hp.bitmap ok h.whole hi hb) v).mpr
  have hsame : (i, Place.data l) = (j, q) :=
    h.excl.injOn (h.within i hi _ ((h.linked hi).within_data hl)) hx (dataBlkToPos_inj heq).symm
  cases hsame
  exact hq

end InPlace

/-! ## Writing below the end -/

/-- A chunk is written to block `l` of the file. -/
theorem byteAt_splice (ok : GeomOk g N) (h : Whole g I s) {i : Nat} (hi : i ∈ I) {l : Nat}
    (hl : l < (inodeAt g s i).nblks) (hv : ptr g s (inodeAt g s i) (.data l) = v)
    (off chunk : Nat) (f : Nat → UInt8) {q : Nat} (hq : q / 512 < (inodeAt g s i).nblks) :
    byteAt g (Function.update s (dataBlkToPos g v) ((s (dataBlkToPos g v)).splice off chunk f))
        (inodeAt g s i) q =
      if q / 512 = l ∧ off ≤ q % 512 ∧ q % 512 < off + chunk then f (q % 512 - off)
      else byteAt g s (inodeAt g s i) q := by
  have hp := InPlace.update hl hv ((s (dataBlkToPos g v)).splice off chunk f)
  have hw := (h.linked i hi).within_data hq
  have hptr := hp.ptr_eq ok h hi hi hw
  rw [hp.inode ok h hi (h.range i hi)] at hptr
  refine byteAt_update hv off chunk f hptr fun hql heq => hql ?_
  rw [← hv] at heq
  exact Place.data.inj (h.once i hi i hi _ _ hw ((h.linked i hi).within_data hl) heq).2

/-- One turn of the loop of `ktfs_writeat` inside the blocks of a file. -/
theorem Linked.exec_writeLoop_succ (ok : GeomOk g N) (h : Linked g s ino) (buf : Nat → UInt8)
    {fuel copied chunk : Nat} (hlt : copied < len) (hnb : (pos + copied) / 512 < ino.nblks)
    (hchunk : min (512 - (pos + copied) % 512) (len - copied) = chunk)
    (hv : ptr g s ino (.data ((pos + copied) / 512)) = v) :
    exec (inRange N) (writeLoop g pos buf len (fuel + 1) copied ino) s =
      exec (inRange N) (writeLoop g pos buf len fuel (copied + chunk) ino)
        (Function.update s (dataBlkToPos g v) ((s (dataBlkToPos g v)).splice
          ((pos + copied) % 512) chunk fun j => buf (copied + j))) := by
  have hmax := h.max
  have hsmall : (pos + copied) % 2 ^ 64 = pos + copied := by omega
  have hblk : (pos + copied) / 512 % 2 ^ 32 = (pos + copied) / 512 := by omega
  have hres := h.exec_resolveOrAlloc ok hnb true
  have hrange := ok.inRange_data (h.area _ (h.within_data hnb))
  rw [hv] at hres hrange
  rw [writeLoop]
  simp only [if_neg (Nat.not_le.mpr hlt), hsmall, hblk, hchunk]
  rw [Fallible.exec_bind_ok _ _ hres]
  simp only
  rw [Fallible.exec_bind_ok _ _ (Fallible.exec_modifyBlock _ _ hrange _ _ _)]

/-- The loop of `ktfs_writeat` inside the blocks of a file, up to byte `stop` of the buffer,
where the range ends or a block does.  No block is allocated, and the bytes of the range
are replaced. -/
theorem exec_writeLoop_upTo (ok : GeomOk g N) {i : Nat} (hi : i ∈ I)
    (pos len stop : Nat) (buf : Nat → UInt8) (hlen : stop ≤ len)
    (hend : pos + stop ≤ 512 * ino.nblks) (hcut : stop = len ∨ (pos + stop) % 512 = 0) :
    ∀ (fuel copied : Nat) (s : Nat → Blk), Whole g I s → inodeAt g s i = ino → len - copied ≤ fuel →
      copied ≤ stop →
      ∃ fuel' s', exec (inRange N) (writeLoop g pos buf len fuel copied ino) s =
          exec (inRange N) (writeLoop g pos buf len fuel' stop ino) s' ∧ len - stop ≤ fuel' ∧
        InPlace g i s s' ∧ ∀ q, q / 512 < ino.nblks → byteAt g s' ino q =
          if pos + copied ≤ q ∧ q < pos + stop then buf (q - pos) else byteAt g s ino q := by
  intro fuel
  induction fuel with
  | zero =>
    intro copied s _ _ hfuel hle
    obtain rfl : copied = stop := by omega
    refine ⟨0, s, rfl, hfuel, .refl i s, fun q _ => ?_⟩
    rw [if_neg (by omega)]
  | succ fuel ih =>
    intro copied s h hino hfuel hle
    rcases Nat.eq_or_lt_of_le hle with rfl | hlt
    · refine ⟨fuel + 1, s, rfl, hfuel, .refl i s, fun q _ => ?_⟩
      rw [if_neg (by omega)]
    · subst hino
      have hmax := (h.linked i hi).max
      have hnb : (pos + copied) / 512 < (inodeAt g s i).nblks := by omega
      obtain ⟨v, hv⟩ : ∃ v, ptr g s (inodeAt g s i) (.data ((pos + copied) / 512)) = v := ⟨_, rfl⟩
      obtain ⟨chunk, hchunk⟩ : ∃ c, min (512 - (pos + copied) % 512) (len - copied) = c := ⟨_, rfl⟩
      rw [(h.linked i hi).exec_writeLoop_succ ok buf (by omega) hnb hchunk hv]
      have hp := InPlace.update hnb hv ((s (dataBlkToPos g v)).splice ((pos + copied) % 512) chunk
        fun j => buf (copied + j))
      have hbyte := fun q => byteAt_splice (q := q) ok h hi hnb hv ((pos + copied) % 512) chunk
        fun j => buf (copied + j)
      obtain ⟨fuel', s', hexec, hfuel', hp', hbyte'⟩ := ih (copied + chunk) _
        (hp.whole ok h hi) (hp.inode ok h hi (h.range i hi)) (by omega) (by omega)
      refine ⟨fuel', s', hexec, hfuel', hp.trans ok h hi hp', fun q hq => ?_⟩
      rw [hbyte' q hq, hbyte q hq]
      by_cases hin : pos + copied ≤ q ∧ q < pos + stop
      · rw [if_pos hin]
        by_cases hnow : q < pos + copied + chunk
        · rw [if_neg (by omega), if_pos (by omega)]
          congr 1
          omega
        · rw [if_pos (by omega)]
      · rw [if_neg hin, if_neg (by omega), if_neg (by omega)]

theorem exec_writeLoop_done {fuel copied : Nat} (buf : Nat → UInt8) (h : len ≤ copied)
    (ino : Inode) (s : Nat → Blk) :
    exec (inRange N) (writeLoop g pos buf len fuel copied ino) s = (.ok ino, s) := by
  cases fuel with
  | zero => rfl
  | succ fuel =>
    rw [writeLoop, if_pos h]
    rfl

/-- The loop of `ktfs_writeat` inside the blocks of a file. -/
theorem exec_writeLoop_within (ok : GeomOk g N) {i : Nat} (hi : i ∈ I)
    (buf : Nat → UInt8) (h : Whole g I s) (hend : pos + len ≤ 512 * (inodeAt g s i).nblks) :
    ∃ s', exec (inRange N) (writeLoop g pos buf len len 0 (inodeAt g s i)) s =
        (.ok (inodeAt g s i), s') ∧
      InPlace g i s s' ∧ ∀ q, q / 512 < (inodeAt g s i).nblks → byteAt g s' (inodeAt g s i) q =
        if pos ≤ q ∧ q < pos + len then buf (q - pos) else byteAt g s (inodeAt g s i) q := by
  obtain ⟨fuel, s', hexec, -, hp, hbyte⟩ := exec_writeLoop_upTo ok hi pos len len buf (Nat.le_refl len) hend
    (.inl rfl) len 0 s h rfl (Nat.sub_le _ _) (Nat.zero_le _)
  rw [exec_writeLoop_done buf (Nat.le_refl len)] at hexec
  exact ⟨s', hexec, hp, by simpa using hbyte⟩

/-- `ktfs_writeat` below the end of a file: no inode, no handle and no other block
changes. -/
theorem run_ktfsWriteat_within (ok : GeomOk g N) (h : Whole g I s) {files : Files} {f : Fd}
    (hi : (files f).inodeIdx ∈ I) (buf : Nat → UInt8) {len : Int} (hlen : 0 < len)
    (hend : pos + len.toNat ≤ (inodeAt g s (files f).inodeIdx).size.toNat) :
    ∃ s', Prog.run (inRange N) (ktfsWriteat g files f pos buf len) s = (({ rc := len }, files), s') ∧
      InPlace g (files f).inodeIdx s s' ∧
      ∀ q, q / 512 < (inodeAt g s (files f).inodeIdx).nblks →
        byteAt g s' (inodeAt g s (files f).inodeIdx) q =
          if pos ≤ q ∧ q < pos + len.toNat then buf (q - pos)
          else byteAt g s (inodeAt g s (files f).inodeIdx) q := by
  have hrange := h.range _ hi
  have hlt := (inodeAt g s (files f).inodeIdx).size.toNat_lt
  have hin : pos + len.toNat ≤ 512 * (inodeAt g s (files f).inodeIdx).nblks := by
    rw [Inode.nblks]
    omega
  obtain ⟨s', hexec, hp, hbyte⟩ := exec_writeLoop_within ok hi buf h hin
  refine ⟨s', ?_, hp, hbyte⟩
  have hoff : (pos + len.toNat) % 2 ^ 64 = pos + len.toNat := by omega
  rw [run_ktfsWriteat_ok ok hrange hlen hexec, hoff, if_neg (Nat.not_lt.mpr hend)]
  have hsame := setInode_self (g := g) (s := s') (files f).inodeIdx
  rw [hp.inode ok h hi hrange] at hsame
  rw [hsame]

end MiniOs.Ktfs
