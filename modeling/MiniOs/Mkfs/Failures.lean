import MiniOs.Mkfs.Invariant
import MiniOs.Ktfs.FailedWrite

/-!
# Writes that fail

On a file system as `mkfs` leaves it a write fails when it reaches the limit of a file or
when the disk is full.  Neither is found out before blocks are written: what lies below
the end of the file is written first, and blocks past the end are taken one by one.  So a
write past the limit is rejected as a whole only when there is nothing to take, and a
write that finds the disk full half way leaves the blocks it took marked used.
-/

namespace MiniOs.Mkfs

open Ktfs Fallible

variable {L : Layout} {files : List (Name × List UInt8)} {s s' : Nat → Blk} {N : Nat} {g : Geom}
  {p : Place}

/-- The root and the files, with all they name. -/
def namedScope (g : Geom) (s : Nat → Blk) : Scope := ⟨{i | Named g s i}, fun _ _ => True, ∅⟩

namespace WellFormed

/-- The first block of the root is data block 0. -/
theorem root_block (h : WellFormed N g s) : (Place.data 0).Within (rootOf g s).nblks ∧
    ptr g s (rootOf g s) (.data 0) = 0 := by
  obtain ⟨hr, hz⟩ := h.bitmap.root
  rw [(h.whole.linked _ hr.1).rawPtr_eq hr.2] at hz
  exact ⟨hr.2, hz⟩

/-- What is live lies below the end of its file. -/
theorem within_of_live (h : WellFormed N g s) {i : Nat}
    (hx : (i, p) ∈ Live g (namedScope g s) (inodeAt g s) s) : p.Within (inodeAt g s i).nblks := by
  obtain ⟨hi, hne | heq, -⟩ := hx
  · by_contra hw
    exact hne (h.past i hi p hw)
  · obtain ⟨rfl, rfl⟩ := Prod.mk.inj heq
    exact h.root_block.1

/-- A block past the end is not there. -/
theorem dead (h : WellFormed N g s) {i l : Nat} (hl : (inodeAt g s i).nblks ≤ l) :
    (i, .data l) ∉ Live g (namedScope g s) (inodeAt g s) s :=
  fun hx => absurd (h.within_of_live hx).1 (by omega)

theorem owned (h : WellFormed N g s) : Owned g (namedScope g s) (inodeAt g s) s := by
  have hw := h.whole
  have hused : ∀ i, Named g s i → ∀ p : Place, p.Within (inodeAt g s i).nblks →
      UsedPtr g s (ptr g s (inodeAt g s i) p) := by
    intro i hi p hp
    have harea := (hw.linked i hi).area p hp
    refine ⟨harea, (h.bitmap.marked _ (Nat.lt_of_lt_of_le (h.geom.dataBlkToPos_lt harea).2
      h.geom.bits)).mpr (.inr ⟨i, p, ⟨hi, hp⟩, ?_⟩)⟩
    rw [(hw.linked i hi).rawPtr_eq hp]
    exact h.geom.dataBlkToPos_eq harea
  refine ⟨h.range, h.max, fun i hi p hp => ⟨hi, ?_, .inr (.inl hp)⟩, ⟨?_, ?_⟩, ?_,
    fun _ hv => hv.elim⟩
  · by_cases hz : ptr g s (inodeAt g s i) p = 0
    · obtain ⟨rfl, rfl⟩ := hw.once i hi g.rootInodeIdx (.inl rfl) p (.data 0) hp h.root_block.1
        (hz.trans h.root_block.2.symm)
      exact .inr rfl
    · exact .inl hz
  · rintro ⟨i, p⟩ hx
    exact hused i hx.1 p (h.within_of_live hx)
  · rintro ⟨i, p⟩ hx ⟨j, q⟩ hy heq
    obtain ⟨rfl, rfl⟩ := hw.once i hx.1 j hy.1 p q (h.within_of_live hx) (h.within_of_live hy) heq
    rfl
  · rw [← h.root_block.2]
    exact hused _ (.inl rfl) _ h.root_block.1

end WellFormed

/-! ## What a write that fails leaves -/

/-- What a failed write leaves: the inodes, what they name below their ends, and the
directory. -/
structure Unmoved (g : Geom) (s s' : Nat → Blk) : Prop where
  inode : ∀ j, Named g s j → inodeAt g s' j = inodeAt g s j
  ptr : ∀ j, Named g s j → ∀ p : Place, p.Within (inodeAt g s j).nblks →
    ptr g s' (inodeAt g s j) p = ptr g s (inodeAt g s j) p
  directory : directory g s' = directory g s

theorem WellFormed.unmoved (h : WellFormed N g s) {i : Nat} (hroot : i ≠ g.rootInodeIdx)
    (hgrow : Grows g (namedScope g s) {y | y.1 = i} (inodeAt g s) s (inodeAt g s) s') :
    Unmoved g s s' where
  inode j hj := inodeAt_congr h.geom (h.range j hj) hgrow.inodes
  ptr j hj p hp := (hgrow.live j p (h.owned.within j hj p hp)).2
  directory := by
    have hframe : Frame g (namedScope g s) {i} s s' := hgrow.frame h.geom h.owned fun _ hy => hy
    exact directory_of_frame h.owned (.inl rfl) hframe hroot.symm

/-- The blocks that are marked used are the metadata and the blocks that the root and the
files have. -/
def Accounted (g : Geom) (s : Nat → Blk) : Prop :=
  ∀ b, b < 4096 * g.bitmapBlockCount → (used s b = true ↔ b < g.firstDataBlock ∨
    ∃ i p, Refers g s i p ∧ b = g.firstDataBlock + (rawPtr g s (inodeAt g s i) p).toNat)

namespace Unmoved

theorem named (hu : Unmoved g s s') (i : Nat) : Named g s' i ↔ Named g s i := by
  rw [Named, Named, hu.directory]

/-- The blocks of the root and the files are the same. -/
theorem refers (hu : Unmoved g s s') (i : Nat) (p : Place) :
    Refers g s' i p ↔ Refers g s i p :=
  (and_congr_left fun _ => hu.named i).trans (and_congr_right fun hi => by rw [hu.inode i hi])

theorem rawPtr_eq (h : WellFormed N g s) (hu : Unmoved g s s') {i : Nat}
    (hr : Refers g s i p) : rawPtr g s' (inodeAt g s' i) p = rawPtr g s (inodeAt g s i) p := by
  have hl := h.whole.linked i hr.1
  have hl' : Linked g s' (inodeAt g s i) := hl.narrow (Nat.le_refl _) (hu.ptr i hr.1)
  rw [hu.inode i hr.1, hl.rawPtr_eq hr.2, hl'.rawPtr_eq hr.2, hu.ptr i hr.1 p hr.2]

/-- The bitmap is exact afterwards when no block was taken. -/
theorem accounted_iff (h : WellFormed N g s) (hu : Unmoved g s s') {A : Set UInt32}
    (ht : Taken g A s s') : Accounted g s' ↔ A = ∅ := by
  have hsame : ∀ b, (∃ i p, Refers g s' i p ∧
      b = g.firstDataBlock + (rawPtr g s' (inodeAt g s' i) p).toNat) ↔ ∃ i p, Refers g s i p ∧
      b = g.firstDataBlock + (rawPtr g s (inodeAt g s i) p).toNat := fun b => by
    refine exists_congr fun i => exists_congr fun p => ?_
    rw [hu.refers i p]
    exact and_congr_right fun hr => by rw [hu.rawPtr_eq h hr]
  have hbits : Accounted g s' ↔ ∀ b, b < 4096 * g.bitmapBlockCount →
      (used s' b = true ↔ used s b = true) :=
    forall₂_congr fun b hb => by rw [hsame b, h.bitmap.marked b hb]
  rw [hbits]
  constructor
  · intro hex
    refine Set.eq_empty_of_forall_notMem fun v hv => ?_
    obtain ⟨hd, hf⟩ := ht.free v hv
    have hlt := Nat.lt_of_lt_of_le (h.geom.dataBlkToPos_lt hd).2 h.geom.bits
    rw [(hex _ hlt).mp ((ht.bits _ hlt).mpr (.inr ⟨v, hv, rfl⟩))] at hf
    cases hf
  · rintro rfl b hb
    rw [ht.bits b hb]
    simp

end Unmoved

/-! ## The call -/

section Call

variable {fs : FlatFs} {f : Fd} {i pos : Nat} {buf : Nat → UInt8} {len : Int}

theorem step_writeat_error (ok : GeomOk g N) (hf : (fs.files f).inodeIdx = i) (hi : i < inodeCount g)
    (hlen : 0 < len) {e : Int} (h : exec (inRange N) (writeLoop g pos buf len.toNat len.toNat 0
      (inodeAt g fs.store i)) fs.store = (.error e, s')) :
    fs.step N g (.writeat f pos buf len) = ({ rc := e }, ⟨s', fs.files⟩) := by
  subst hf
  rw [FlatFs.step, FsOp.prog, run_ktfsWriteat_error ok hi hlen h]

theorem step_writeat_ok (ok : GeomOk g N) (hf : (fs.files f).inodeIdx = i) (hi : i < inodeCount g)
    (hlen : 0 < len) {ino : Inode} (h : exec (inRange N) (writeLoop g pos buf len.toNat len.toNat 0
      (inodeAt g fs.store i)) fs.store = (.ok ino, s')) :
    (fs.step N g (.writeat f pos buf len)).1.rc = len := by
  subst hf
  rw [FlatFs.step, FsOp.prog, run_ktfsWriteat_ok ok hi hlen h]
  dsimp only
  split <;> rfl

/-- A write of no bytes returns 0. -/
theorem step_writeat_nothing (hlen : len ≤ 0) :
    (fs.step N g (.writeat f pos buf len)).1.rc = 0 := by
  rw [FlatFs.step, FsOp.prog, ktfsWriteat, if_pos hlen]
  rfl

/-- The write finds the disk full: the bitmap is exact afterwards when the disk was full
before. -/
theorem WellFormed.step_writeat_full (h : WellFormed N g fs.store) (hf : (fs.files f).inodeIdx = i)
    (hi : Named g fs.store i) (hroot : i ≠ g.rootInodeIdx)
    (hrc : (fs.step N g (.writeat f pos buf len)).1.rc = -ENOMEM) :
    Accounted g (fs.next N g (.writeat f pos buf len)).store ↔ Full g fs.store := by
  have ok := h.geom
  have hrange := h.range i hi
  have hlen : 0 < len := by
    by_contra hle
    rw [step_writeat_nothing (Int.not_lt.mp hle)] at hrc
    cases hrc
  obtain ⟨r, s', gh, A, hexec, htried⟩ := writeLoop_tried (D := namedScope g fs.store) ok hi
    pos len.toNat buf (fun _ _ => trivial) len.toNat 0 (inodeAt g fs.store) fs.store _ h.owned
    (.refl _ _) (Nat.le_refl _)
  have hu := h.unmoved hroot (htried.left.grows.drop htried.left.ext)
  cases r with
  | ok ino =>
    rw [step_writeat_ok ok hf hrange hlen hexec] at hrc
    rw [hrc] at hlen
    cases hlen
  | error e =>
    have hstep := step_writeat_error ok hf hrange hlen hexec
    rw [hstep] at hrc
    obtain ⟨-, hfull⟩ : e = -ENOMEM ∧ Full g s' := (htried.error e rfl).resolve_right fun he => by
      rw [show e = -ENOMEM from hrc] at he
      cases he
    rw [FlatFs.next, hstep]
    show Accounted g s' ↔ _
    rw [hu.accounted_iff h htried.taken]
    constructor
    · rintro rfl
      by_contra hs
      exact Set.not_nonempty_empty (htried.taken.nonempty ok hs hfull)
    · intro hs
      exact htried.taken.eq_empty hs

/-! ## Writes past the limit -/

/-- The write is rejected as a whole. -/
structure Rejected (g : Geom) (i : Nat) (fs : FlatFs) (reply : Reply) (fs' : FlatFs) : Prop where
  rc : reply.rc < 0
  handles : fs'.files = fs.files
  size : (inodeAt g fs'.store i).size = (inodeAt g fs.store i).size
  content : content g fs'.store (inodeAt g fs'.store i) = content g fs.store (inodeAt g fs.store i)
  others : ∀ j, Named g fs.store j → j ≠ i →
    Ktfs.content g fs'.store (inodeAt g fs'.store j) = Ktfs.content g fs.store (inodeAt g fs.store j)
  directory : directory g fs'.store = directory g fs.store
  bitmap : ∀ b, b ≤ g.bitmapBlockCount → fs'.store b = fs.store b

/-- The bytes that a write from `off` on finds in the file are those it would put there. -/
def SameBytes (g : Geom) (s : Nat → Blk) (ino : Inode) (off : Nat) (buf : Nat → UInt8) : Prop :=
  ∀ q, off ≤ q → q < ino.size.toNat → byteAt g s ino q = buf (q - off)

/-- A write that failed with nothing taken is rejected as a whole when it changed no byte. -/
theorem WellFormed.rejected_iff (h : WellFormed N g fs.store) (hi : Named g fs.store i)
    (hroot : i ≠ g.rootInodeIdx) {e : Int} (he : e < 0) (hp : InPlace g i fs.store s') {off : Nat}
    (hbyte : ∀ q, q / 512 < (inodeAt g fs.store i).nblks → byteAt g s' (inodeAt g fs.store i) q =
      if off ≤ q then buf (q - off) else byteAt g fs.store (inodeAt g fs.store i) q) :
    Rejected g i fs { rc := e } ⟨s', fs.files⟩ ↔
      SameBytes g fs.store (inodeAt g fs.store i) off buf := by
  have ok := h.geom
  have hw := h.whole
  have hinode := hp.inode ok hw hi (h.range i hi)
  have hcontent : content g s' (inodeAt g s' i) = content g fs.store (inodeAt g fs.store i) ↔
      SameBytes g fs.store (inodeAt g fs.store i) off buf := by
    rw [hinode, content, content, List.map_inj_left]
    simp only [List.mem_range]
    refine forall_congr' fun q => ?_
    constructor
    · intro hq hoff hlt
      rw [← hq hlt, hbyte q (lt_nblks hlt), if_pos hoff]
    · intro hq hlt
      rw [hbyte q (lt_nblks hlt)]
      by_cases hoff : off ≤ q
      · rw [if_pos hoff, hq hoff hlt]
      · rw [if_neg hoff]
  rw [← hcontent]
  exact ⟨fun hr => hr.content, fun hc => ⟨he, rfl, congrArg _ hinode, hc,
    fun j hj hne => hp.content_eq ok hw hi hj hne, hp.directory_eq ok hw hi (.inl rfl) hroot.symm,
    fun _ hb => hp.bitmap ok hw hi hb⟩⟩

/-- The loop up to the end of the last block of the file. -/
theorem WellFormed.writeLoop_below (h : WellFormed N g s) {i : Nat} (hi : Named g s i)
    {off len : Nat} (buf : Nat → UInt8) (hlen : 0 < len)
    (hend : 512 * (inodeAt g s i).nblks < off + len) :
    ∃ fuel copied s', exec (inRange N) (writeLoop g off buf len len 0 (inodeAt g s i)) s =
        exec (inRange N) (writeLoop g off buf len fuel copied (inodeAt g s i)) s' ∧
      len - copied ≤ fuel ∧ copied < len ∧
      (off + copied) / 512 = max (off / 512) (inodeAt g s i).nblks ∧ InPlace g i s s' ∧
      ∀ q, q / 512 < (inodeAt g s i).nblks → byteAt g s' (inodeAt g s i) q =
        if off ≤ q then buf (q - off) else byteAt g s (inodeAt g s i) q := by
  by_cases hlt : off < 512 * (inodeAt g s i).nblks
  · obtain ⟨fuel, s', hexec, hfuel, hp, hbyte⟩ := exec_writeLoop_upTo h.geom hi off len
      (512 * (inodeAt g s i).nblks - off) buf (by omega) (by omega) (.inr (by omega)) len 0 s
      h.whole rfl (by omega) (by omega)
    refine ⟨fuel, _, s', hexec, hfuel, by omega, ?_, hp, fun q hq => ?_⟩
    · omega
    · rw [hbyte q hq]
      refine if_congr ?_ rfl rfl
      omega
  · refine ⟨len, 0, s, rfl, by omega, by omega, ?_, .refl i s, fun q hq => ?_⟩
    · rw [Nat.add_zero]
      omega
    · rw [if_neg (by omega)]

/-- The loop when it has to go on past the last block of the file: it fails with nothing
taken, or it takes blocks. -/
theorem WellFormed.writeLoop_past (h : WellFormed N g s) {i : Nat} (hi : Named g s i)
    {off len : Nat} (buf : Nat → UInt8) (hlen : 0 < len) (hoff : off < 32899 * 512)
    (hend : 512 * (inodeAt g s i).nblks < off + len) :
    (∃ e s', exec (inRange N) (writeLoop g off buf len len 0 (inodeAt g s i)) s = (.error e, s') ∧
      e < 0 ∧ ((inodeAt g s i).nblks = 32899 ∨ Full g s) ∧ InPlace g i s s' ∧
      ∀ q, q / 512 < (inodeAt g s i).nblks → byteAt g s' (inodeAt g s i) q =
        if off ≤ q then buf (q - off) else byteAt g s (inodeAt g s i) q) ∨
    ∃ r s', exec (inRange N) (writeLoop g off buf len len 0 (inodeAt g s i)) s = (r, s') ∧
      ¬ ((inodeAt g s i).nblks = 32899 ∨ Full g s) ∧
      ¬ ∀ b, b ≤ g.bitmapBlockCount → s' b = s b := by
  have ok := h.geom
  obtain ⟨fuel, copied, s1, hexec, hfuel, hcopied, hblk, hp, hbyte⟩ :=
    h.writeLoop_below hi buf hlen hend
  obtain ⟨hown, hptr⟩ := hp.owned ok h.owned hi
  have hbitmap : ∀ b, b ≤ g.bitmapBlockCount → s1 b = s b := fun _ hb => hp.bitmap ok h.whole hi hb
  have hmax := h.max i hi
  have hlog : logicalOf (off + copied) = max (off / 512) (inodeAt g s i).nblks := by
    rw [logicalOf, ← hblk]
    omega
  rw [hexec]
  by_cases hlast : (inodeAt g s i).nblks = 32899
  · refine .inl ⟨-EINVAL, s1, ?_, by decide, .inl hlast, hp, hbyte⟩
    obtain ⟨fuel, rfl⟩ : ∃ k, fuel = k + 1 := ⟨fuel - 1, by omega⟩
    rw [writeLoop, if_neg (by omega)]
    rw [logicalOf] at hlog
    exact Fallible.exec_bind_error _ _ (exec_resolveOrAlloc_past (by omega) _ true s1)
  · obtain ⟨r, s', gh, A, hexec', htried⟩ := writeLoop_tried (D := namedScope g s) ok hi
      off len buf (fun _ _ => trivial) fuel copied (inodeAt g s) s1 _ hown
      (.refl _ _) hfuel
    have hdead : (i, .data (logicalOf (off + copied))) ∉
        Live g (namedScope g s) (inodeAt g s) s1 := by
      rw [live_congr hptr fun _ _ => rfl]
      exact h.dead (by omega)
    have hfull : Full g s1 ↔ Full g s :=
      forall₂_congr fun v _ => usedPtr_congr ok hbitmap v
    rcases htried.first hcopied (by omega) hdead with hA | ⟨hr, hs, hs1⟩
    · refine .inr ⟨r, s', hexec', ?_, fun hsame => ?_⟩
      · rintro (hnb | hs)
        · exact hlast hnb
        · exact Set.not_nonempty_empty (htried.taken.eq_empty (hfull.mpr hs) ▸ hA)
      · exact htried.taken.bitmap_ne ok hA fun b hb => (hsame b hb).trans (hbitmap b hb).symm
    · rw [hr, hs] at hexec'
      exact .inl ⟨-ENOMEM, s1, hexec', by decide, .inr (hfull.mp hs1), hp, hbyte⟩

/-- When `ktfs_writeat` rejects a write as a whole. -/
theorem WellFormed.step_writeat_rejected (h : WellFormed N g fs.store)
    (hf : (fs.files f).inodeIdx = i) (hi : Named g fs.store i) (hroot : i ≠ g.rootInodeIdx)
    (hlen : 0 < len) :
    Rejected g i fs (fs.step N g (.writeat f pos buf len)).1 (fs.next N g (.writeat f pos buf len)) ↔
      32899 * 512 ≤ pos % 2 ^ 41 ∨
      (512 * (inodeAt g fs.store i).nblks < pos % 2 ^ 41 + len.toNat ∧
        ((inodeAt g fs.store i).nblks = 32899 ∨ Full g fs.store) ∧
        SameBytes g fs.store (inodeAt g fs.store i) (pos % 2 ^ 41) buf) := by
  have ok := h.geom
  have hrange := h.range i hi
  have hmod := writeLoop_mod g pos buf len.toNat len.toNat 0 (inodeAt g fs.store i)
  generalize hoff : pos % 2 ^ 41 = off at hmod ⊢
  have hlen' : 0 < len.toNat := by omega
  have hok : ∀ {ino s'}, exec (inRange N) (writeLoop g pos buf len.toNat len.toNat 0
      (inodeAt g fs.store i)) fs.store = (.ok ino, s') → ¬ Rejected g i fs
      (fs.step N g (.writeat f pos buf len)).1 (fs.next N g (.writeat f pos buf len)) := by
    intro ino s' hexec hr
    have := hr.rc
    rw [step_writeat_ok ok hf hrange hlen hexec] at this
    omega
  by_cases hfar : 32899 * 512 ≤ off
  · -- the first turn fails
    have hexec : exec (inRange N) (writeLoop g pos buf len.toNat len.toNat 0 (inodeAt g fs.store i))
        fs.store = (.error (-EINVAL), fs.store) := by
      rw [hmod]
      obtain ⟨fuel, hfuel⟩ : ∃ k, len.toNat = k + 1 := ⟨len.toNat - 1, by omega⟩
      rw [hfuel, writeLoop, if_neg (by omega)]
      exact Fallible.exec_bind_error _ _ (exec_resolveOrAlloc_past (by omega) _ true fs.store)
    rw [FlatFs.next, step_writeat_error ok hf hrange hlen hexec]
    refine iff_of_true ?_ (.inl hfar)
    exact ⟨show (-EINVAL : Int) < 0 by decide, rfl, rfl, rfl, fun _ _ _ => rfl, rfl, fun _ _ => rfl⟩
  · by_cases hend : 512 * (inodeAt g fs.store i).nblks < off + len.toNat
    · rcases h.writeLoop_past hi buf hlen' (by omega) hend with
        ⟨e, s', hexec, he, hroom, hp, hbyte⟩ | ⟨r, s', hexec, hroom, hbits⟩
      · rw [← hmod] at hexec
        rw [FlatFs.next, step_writeat_error ok hf hrange hlen hexec,
          h.rejected_iff hi hroot he hp hbyte]
        simp only [hfar, hend, hroom, false_or, true_and]
      · rw [← hmod] at hexec
        refine iff_of_false ?_ fun hc => hroom (hc.resolve_left hfar).2.1
        cases r with
        | ok ino => exact hok hexec
        | error e =>
          rw [FlatFs.next, step_writeat_error ok hf hrange hlen hexec]
          exact fun hr => hbits hr.bitmap
    · obtain ⟨s', hexec, -⟩ := exec_writeLoop_within ok hi buf h.whole (Nat.not_lt.mp hend)
      rw [← hmod] at hexec
      exact iff_of_false (hok hexec) fun hc => hend (hc.resolve_left hfar).1

end Call

section Calls

variable {σ : Type} {d : Device σ} {content : σ → Nat → Blk} {m : Mounted σ} {f : Fd} {i pos : Nat}
  {buf : Nat → UInt8} {len : Int}

/-- `ktfs_writeat` rejects a write as a whole when its first block lies past the limit, or
when it has to go on past the last block of the file, finds no block there and changed no
byte before. -/
theorem writeat_rejected_iff (rel : Reliable d N content) (hq : m.QuietOn N content g)
    (h : WellFormed N g (m.flat content).store) (hf : (m.files f).inodeIdx = i)
    (hi : Named g (m.flat content).store i) (hroot : i ≠ g.rootInodeIdx) (hlen : 0 < len) :
    Rejected g i (m.flat content) (m.step d (.writeat f pos buf len)).1
        ((m.next d (.writeat f pos buf len)).flat content) ↔
      32899 * 512 ≤ pos % 2 ^ 41 ∨
      (512 * (inodeAt g (m.flat content).store i).nblks < pos % 2 ^ 41 + len.toNat ∧
        ((inodeAt g (m.flat content).store i).nblks = 32899 ∨ Full g (m.flat content).store) ∧
        SameBytes g (m.flat content).store (inodeAt g (m.flat content).store i) (pos % 2 ^ 41) buf) := by
  rw [(Mounted.next_flat rel m _ hq).1, Mounted.reply_flat rel hq]
  exact h.step_writeat_rejected hf hi hroot hlen

/-- The file `b` is opened and written at the limit. -/
theorem writeat_rejected_twoFiles : ∃ m, mount (ramDisk 8) twoFiles = .ok m ∧
    Rejected (geomOf (twoFiles 0)) 2 ((m.next (ramDisk 8) (.open [98])).flat id)
      ((m.next (ramDisk 8) (.open [98])).step (ramDisk 8) (.writeat 0 (32899 * 512) (fun _ => 5) 1)).1
      (((m.next (ramDisk 8) (.open [98])).next (ramDisk 8)
        (.writeat 0 (32899 * 512) (fun _ => 5) 1)).flat id) := by
  obtain ⟨m, hm, hq, -, hidx, h, hnamed⟩ := opened_twoFiles
  exact ⟨m, hm, (writeat_rejected_iff (ramDisk_reliable 8) hq h hidx hnamed (by decide +kernel)
    (by decide)).mpr (.inl (by decide))⟩

/-- A write at `2 ^ 41` goes to the first block of the file `b`, and cuts it to one byte. -/
theorem writeat_wraps : ∃ m, mount (ramDisk 8) twoFiles = .ok m ∧
    ((m.next (ramDisk 8) (.open [98])).step (ramDisk 8) (.writeat 0 (2 ^ 41) (fun _ => 5) 1)).1.rc = 1 ∧
    Ktfs.content (geomOf (twoFiles 0)) (((m.next (ramDisk 8) (.open [98])).next (ramDisk 8)
      (.writeat 0 (2 ^ 41) (fun _ => 5) 1)).flat id).store
      (inodeAt (geomOf (twoFiles 0)) (((m.next (ramDisk 8) (.open [98])).next (ramDisk 8)
      (.writeat 0 (2 ^ 41) (fun _ => 5) 1)).flat id).store 2) = [5] := by
  obtain ⟨m, hm, hq, hopen, -⟩ := opened_twoFiles
  refine ⟨m, hm, ?_, ?_⟩
  · rw [Mounted.reply_flat (ramDisk_reliable 8) hq, hopen]
    decide +kernel
  · rw [(Mounted.next_flat (ramDisk_reliable 8) _ _ hq).1, hopen]
    decide +kernel

/-- A write that finds the disk full leaves the bitmap exact when no block was free to
begin with. -/
theorem writeat_enomem_accounted_iff (rel : Reliable d N content) (hq : m.QuietOn N content g)
    (h : WellFormed N g (m.flat content).store) (hf : (m.files f).inodeIdx = i)
    (hi : Named g (m.flat content).store i) (hroot : i ≠ g.rootInodeIdx)
    (hrc : (m.step d (.writeat f pos buf len)).1.rc = -ENOMEM) :
    Accounted g ((m.next d (.writeat f pos buf len)).flat content).store ↔
      Full g (m.flat content).store := by
  rw [Mounted.reply_flat rel hq] at hrc
  rw [(Mounted.next_flat rel m _ hq).1]
  exact h.step_writeat_full hf hi hroot hrc

/-- A disk with two files and no free block. -/
def fullDisk : Nat → Blk := (imageOf 3072 16 [(['a'], [7]), (['b'], [8, 9])]).block 512

/-- The file `b` is opened on the full disk and written past its last block. -/
theorem writeat_enomem_fullDisk : ∃ m, mount (ramDisk 6) fullDisk = .ok m ∧
    Accounted (geomOf (fullDisk 0)) (((m.next (ramDisk 6) (.open [98])).next (ramDisk 6)
      (.writeat 0 0 (fun _ => 5) 1024)).flat id).store := by
  obtain ⟨m, hm, hq, hflat, h⟩ : ∃ m, mount (ramDisk 6) fullDisk = .ok m ∧
      m.QuietOn 6 id (geomOf (fullDisk 0)) ∧ m.flat id = ⟨fullDisk, noFiles⟩ ∧
      WellFormed 6 (geomOf (fullDisk 0)) fullDisk := mount_imageOf (by decide +kernel) (by decide +kernel)
  obtain ⟨hq', hopen, hs⟩ := opened (ramDisk_reliable 6) hq hflat [98]
  have hidx : ((m.next (ramDisk 6) (.open [98])).files 0).inodeIdx = 2 := by
    show (((m.next (ramDisk 6) (.open [98])).flat id).files 0).inodeIdx = 2
    rw [hopen]
    decide +kernel
  refine ⟨m, hm, (writeat_enomem_accounted_iff (ramDisk_reliable 6) hq' (by rwa [hs]) hidx ?_
    (by decide +kernel) ?_).mpr ?_⟩
  · rw [hs]
    refine .inr ?_
    decide +kernel
  · rw [Mounted.reply_flat (ramDisk_reliable 6) hq', hopen]
    decide +kernel
  · rw [hs]
    exact full_of_used h.geom (by decide +kernel)

/-- The file `b` is opened on the disk with two files and two free blocks, and a write needs
four: the call fails, and the two are lost. -/
theorem writeat_leaks : ∃ m, mount (ramDisk 8) twoFiles = .ok m ∧
    ((m.next (ramDisk 8) (.open [98])).step (ramDisk 8)
      (.writeat 0 0 (fun _ => 5) 2048)).1.rc = -ENOMEM ∧
    Accounted (geomOf (twoFiles 0)) ((m.next (ramDisk 8) (.open [98])).flat id).store ∧
    ¬ Accounted (geomOf (twoFiles 0)) (((m.next (ramDisk 8) (.open [98])).next (ramDisk 8)
      (.writeat 0 0 (fun _ => 5) 2048)).flat id).store := by
  obtain ⟨m, hm, hq, hopen, hidx, h, hnamed⟩ := opened_twoFiles
  have hrc : ((m.next (ramDisk 8) (.open [98])).step (ramDisk 8)
      (.writeat 0 0 (fun _ => 5) 2048)).1.rc = -ENOMEM := by
    rw [Mounted.reply_flat (ramDisk_reliable 8) hq, hopen]
    decide +kernel
  refine ⟨m, hm, hrc, h.bitmap.marked, ?_⟩
  rw [Mounted.reply_flat (ramDisk_reliable 8) hq] at hrc
  rw [(Mounted.next_flat (ramDisk_reliable 8) _ _ hq).1,
    h.step_writeat_full hidx hnamed (by decide +kernel) hrc, hopen]
  intro hfull
  -- data block 3 is free
  exact absurd (hfull 3 (by decide +kernel)).2 (by decide +kernel)

end Calls

end MiniOs.Mkfs
