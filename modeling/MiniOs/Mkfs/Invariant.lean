import MiniOs.Mkfs.Reader
import MiniOs.Ktfs.Delete

/-!
# The driver on a file system with an exact bitmap

`mkfs` leaves a file system whose bitmap is exact and whose directory names inodes that
exist.  On any such file system a write below the end of a file changes the bytes of the
range and nothing else, and `ktfs_delete` removes one name and no other, also after any
number of deletes: the bitmap is no longer exact then, but the files are still whole.
-/

namespace MiniOs.Mkfs

open Ktfs Fallible

variable {L : Layout} {files : List (Name × List UInt8)} {s s' : Nat → Blk} {N : Nat} {g : Geom}
  {pos : Nat} {fs : FlatFs} {e e' : Dentry} {dir : List Dentry} {name : List UInt8}
  {m : Mounted σ}

/-- What `mkfs` establishes. -/
structure MkfsInvariant (N : Nat) (g : Geom) (s : Nat → Blk) : Prop where
  geom : GeomOk g N
  bitmap : BitmapExact g s
  range : ∀ i, Named g s i → i < inodeCount g
  max : ∀ i, Named g s i → (inodeAt g s i).nblks ≤ 32899
  entries : (rootOf g s).size.toNat % 16 = 0

theorem Laid.mkfsInvariant (h : Laid L files s) (hN : L.blockCount ≤ N) :
    MkfsInvariant N L.geom s where
  geom := h.geomOk hN
  bitmap := h.bitmapExact
  range _ hi := h.named_lt hi
  max _ hi := h.owned.max _ (h.named_lt hi)
  entries := by
    rw [h.rootOf_eq, size_inodeFor h, fileSize]
    omega

/-- The files of such a file system are whole. -/
theorem MkfsInvariant.whole (h : MkfsInvariant N g s) : Whole g {i | Named g s i} s := by
  have hb := h.bitmap
  -- only the first block of the root has the pointer 0
  have hne : ∀ i, Named g s i → ∀ p : Place, p.Within (inodeAt g s i).nblks →
      (p.IsPage ∨ p.parent ≠ none) → rawPtr g s (inodeAt g s i) p ≠ 0 := by
    intro i hi p hp hc hz
    obtain ⟨-, rfl⟩ := hb.once i p _ _ ⟨hi, hp⟩ hb.root.1 (hz.trans hb.root.2.symm)
    rcases hc with hc | hc
    · exact hc
    · exact hc rfl
  have hraw : ∀ i, Named g s i → ∀ p : Place, p.Within (inodeAt g s i).nblks →
      ptr g s (inodeAt g s i) p = rawPtr g s (inodeAt g s i) p := by
    intro i hi p
    induction p using Place.parentInduction with
    | top p hp =>
      intro _
      rw [ptr_top hp, rawPtr_top hp]
    | child p q k hp ih =>
      intro hw
      have hq := hw.parent hp
      rw [ptr_child hp, rawPtr_child hp, ih hq,
        entry_of_ne (hne i hi q hq (.inl (Place.isPage_of_parent hp)))]
  refine ⟨fun i hi => h.range i hi, fun i hi => ⟨h.max i hi, fun p hp hc => ?_, fun p hp => ?_⟩, ?_⟩
  · rw [hraw i hi p hp]
    exact hne i hi p hp hc
  · rw [hraw i hi p hp]
    exact hb.inArea i p ⟨hi, hp⟩
  · intro i hi j hj p q hp hq heq
    rw [hraw i hi p hp, hraw j hj q hq] at heq
    exact hb.once i p j q ⟨hi, hp⟩ ⟨hj, hq⟩ heq

/-- What `mkfs` establishes, with what it leaves past the ends of the files: they name no
blocks there. -/
structure WellFormed (N : Nat) (g : Geom) (s : Nat → Blk) : Prop extends MkfsInvariant N g s where
  past : ∀ i, Named g s i → ∀ p : Place, ¬ p.Within (inodeAt g s i).nblks →
    ptr g s (inodeAt g s i) p = 0

theorem Laid.wellFormed (h : Laid L files s) (hN : L.blockCount ≤ N) : WellFormed N L.geom s where
  toMkfsInvariant := h.mkfsInvariant hN
  past i hi p hp := by
    rw [h.inode i (h.named_lt hi)] at hp ⊢
    rw [nblks_inodeFor h] at hp
    rw [h.ptr_eq, if_neg hp]

/-! ## Writing below the end -/

/-- The bytes of a list with those from `pos` on replaced by `w`. -/
def spliced (c : List UInt8) (pos : Nat) (w : List UInt8) : List UInt8 :=
  c.take pos ++ w ++ c.drop (pos + w.length)

/-- The bytes of a caller's buffer. -/
def bufBytes (buf : Nat → UInt8) (len : Nat) : List UInt8 := (List.range len).map buf

theorem content_spliced {ino : Inode} {len : Nat} {buf : Nat → UInt8}
    (hend : pos + len ≤ ino.size.toNat)
    (hbyte : ∀ q, q / 512 < ino.nblks → byteAt g s' ino q =
      if pos ≤ q ∧ q < pos + len then buf (q - pos) else byteAt g s ino q) :
    Ktfs.content g s' ino = spliced (Ktfs.content g s ino) pos (bufBytes buf len) := by
  apply List.ext_getElem
  · simp [spliced, bufBytes]
    omega
  · intro q hq _
    rw [length_content] at hq
    have := hbyte q (lt_nblks hq)
    simp only [Ktfs.content, spliced, bufBytes, List.getElem_map, List.getElem_range, this,
      List.getElem_append, List.length_append, List.length_take, List.length_map, List.length_range,
      List.getElem_take, List.getElem_drop]
    rw [Nat.min_eq_left (by omega)]
    by_cases h1 : q < pos
    · rw [if_neg (by omega), dif_pos (by omega), dif_pos h1]
    · by_cases h2 : q < pos + len
      · rw [if_pos (by omega), dif_pos (by omega), dif_neg h1]
      · rw [if_neg (by omega), dif_neg (by omega)]
        congr 1
        omega

/-- What a write below the end of file `i` leaves: the metadata, the directory, the other
files and the rest of the last block stay. -/
structure Overwritten (g : Geom) (fs : FlatFs) (i pos : Nat) (w : List UInt8) (fs' : FlatFs) :
    Prop where
  handles : fs'.files = fs.files
  metadata : ∀ b, b < g.firstDataBlock → fs'.store b = fs.store b
  content : content g fs'.store (inodeAt g fs'.store i) =
    spliced (content g fs.store (inodeAt g fs.store i)) pos w
  tail : ∀ q, (inodeAt g fs.store i).size.toNat ≤ q → q < 512 * (inodeAt g fs.store i).nblks →
    byteAt g fs'.store (inodeAt g fs'.store i) q = byteAt g fs.store (inodeAt g fs.store i) q
  directory : directory g fs'.store = directory g fs.store
  others : ∀ j, Named g fs.store j → j ≠ i →
    Ktfs.content g fs'.store (inodeAt g fs'.store j) = Ktfs.content g fs.store (inodeAt g fs.store j)

theorem MkfsInvariant.step_writeat (inv : MkfsInvariant N g fs.store) {f : Fd} {i : Nat}
    (hf : (fs.files f).inodeIdx = i) (hi : Named g fs.store i) (hroot : i ≠ g.rootInodeIdx)
    (buf : Nat → UInt8) {len : Int} (hlen : 0 < len)
    (hend : pos + len.toNat ≤ (inodeAt g fs.store i).size.toNat) :
    ((fs.step N g (.writeat f pos buf len)).1.rc = len ∧
      Overwritten g fs i pos (bufBytes buf len.toNat) (fs.next N g (.writeat f pos buf len))) ∧
    inodeAt g (fs.next N g (.writeat f pos buf len)).store i = inodeAt g fs.store i ∧
      Linked g (fs.next N g (.writeat f pos buf len)).store (inodeAt g fs.store i) := by
  have ok := inv.geom
  have hw := inv.whole
  subst hf
  obtain ⟨s', hrun, hp, hbyte⟩ := run_ktfsWriteat_within ok hw
    (show (fs.files f).inodeIdx ∈ {j | Named g fs.store j} from hi) buf hlen hend
  have hsame := hp.inode ok hw hi (hw.range _ hi)
  have hl := (hp.whole ok hw hi).linked _ hi
  rw [hsame] at hl
  simp only [FlatFs.next, FlatFs.step, FsOp.prog, hrun]
  refine ⟨⟨trivial, rfl, fun b hb => hp.metadata ok hw hi hb, ?_, fun q hle hlt => ?_,
    hp.directory_eq ok hw hi (.inl rfl) hroot.symm, fun j hj hne => hp.content_eq ok hw hi hj hne⟩,
    hsame, hl⟩
  · rw [hsame]
    exact content_spliced hend hbyte
  · rw [hsame, hbyte q (by omega), if_neg (by omega)]

/-! ## Deleting -/

/-- No string is the name of both entries. -/
def Apart (e e' : Dentry) : Prop :=
  ∀ name, ¬ (nameMatches name e = true ∧ nameMatches name e' = true)

theorem Apart.symm (h : Apart e e') : Apart e' e :=
  fun name hm => h name hm.symm

instance : Std.Symm Apart := ⟨fun _ _ h => h.symm⟩

/-- Two names that are equal to a third as strings are equal. -/
theorem nameLoop_join {a b c : Nat → UInt8} :
    ∀ n i, nameLoop a c n i = true → nameLoop b c n i = true → nameLoop a b n i = true
  | 0, _, _, _ => rfl
  | n + 1, i, ha, hb => by
      rw [nameLoop] at ha hb ⊢
      by_cases hac : a i = c i
      · by_cases hbc : b i = c i
        · rw [if_neg (not_not.mpr hac)] at ha
          rw [if_neg (not_not.mpr hbc)] at hb
          rw [if_neg (not_not.mpr (hac.trans hbc.symm))]
          by_cases hz : a i = 0
          · rw [if_pos hz]
          · rw [if_neg hz] at ha ⊢
            rw [if_neg (by rwa [hbc, ← hac])] at hb
            exact nameLoop_join n (i + 1) ha hb
        · rw [if_pos hbc] at hb
          cases hb
      · rw [if_pos hac] at ha
        cases ha

/-- Names are apart when the comparison of the driver tells them apart. -/
theorem apart_of_nameLoop (h : nameLoop e.char e'.char 14 0 = false) : Apart e e' := by
  intro name hm
  rw [nameLoop_join 14 0 hm.1 hm.2] at h
  cases h

/-- The entry with a name is found. -/
theorem lookup_of_matches (h : dir.Pairwise Apart) (he : e ∈ dir)
    (hm : nameMatches name e = true) : lookup name dir = .ok e.inode := by
  induction dir with
  | nil => cases he
  | cons a dir ih =>
    rw [List.pairwise_cons] at h
    rw [lookup, List.find?_cons]
    rcases List.mem_cons.mp he with rfl | he
    · rw [hm]
    · have hne : nameMatches name a = false := by
        rw [← Bool.not_eq_true]
        exact fun ha => h.1 e he name ⟨ha, hm⟩
      rw [hne]
      exact ih h.2 he

theorem lookup_of_none
    (h : ∀ e ∈ dir, nameMatches name e = false) : lookup name dir = .error (-ENOENT) := by
  rw [lookup, List.find?_eq_none.mpr fun e he => by rw [h e he]; exact Bool.false_ne_true]

/-- The entries of a name other than that of `e` are those without `e`. -/
theorem lookup_erase {dir' : List Dentry} (h : dir.Pairwise Apart)
    (hmem : ∀ a, a ∈ dir' ↔ a ∈ dir ∧ a ≠ e) (hpair : dir'.Pairwise Apart)
    (hname : nameMatches name e = false) : lookup name dir' = lookup name dir := by
  by_cases hex : ∃ a ∈ dir, nameMatches name a = true
  · obtain ⟨a, ha, hm⟩ := hex
    have hne : a ≠ e := by
      rintro rfl
      rw [hname] at hm
      cases hm
    rw [lookup_of_matches h ha hm, lookup_of_matches hpair ((hmem a).mpr ⟨ha, hne⟩) hm]
  · have hall : ∀ a ∈ dir, nameMatches name a = false := fun a ha => by
      rw [← Bool.not_eq_true]
      exact fun hm => hex ⟨a, ha, hm⟩
    rw [lookup_of_none hall, lookup_of_none fun a ha => hall a ((hmem a).mp ha).1]

/-- A directory of names apart and of inodes that differ from each other and from the root,
over whole files. -/
structure Distinct (g : Geom) (I : Set Nat) (s : Nat → Blk) : Prop where
  whole : Whole g I s
  root : g.rootInodeIdx ∈ I
  entries : (rootOf g s).size.toNat % 16 = 0
  names : (directory g s).Pairwise Apart
  inodes : ((directory g s).map Dentry.inode).Nodup
  files : ∀ e ∈ directory g s, e.inode ∈ I ∧ e.inode ≠ g.rootInodeIdx

/-- What a name resolves to. -/
def resolved (N : Nat) (g : Geom) (s : Nat → Blk) (name : List UInt8) : Except Int Nat :=
  (exec (inRange N) (findDentry g name) s).1

/-- The law of `ktfs_delete`. -/
structure DeleteLaw (N : Nat) (g : Geom) (fs : FlatFs) (name : List UInt8) (rc : Int)
    (fs' : FlatFs) : Prop where
  /-- The entry `e` of that name is removed, and no other. -/
  present : ∀ e ∈ directory g fs.store, nameMatches name e = true →
    rc = 0 ∧ fs'.files = fs.files ∧ resolved N g fs'.store name = .error (-ENOENT) ∧
    (directory g fs'.store).length + 1 = (directory g fs.store).length ∧
    (∀ name', nameMatches name' e = false →
      resolved N g fs'.store name' = resolved N g fs.store name') ∧
    ∀ e' ∈ directory g fs.store, e' ≠ e → content g fs'.store (inodeAt g fs'.store e'.inode) =
      content g fs.store (inodeAt g fs.store e'.inode)
  absent : (∀ e ∈ directory g fs.store, nameMatches name e = false) → rc = -ENOENT ∧ fs' = fs

namespace Distinct

variable {I : Set Nat}

theorem resolved_eq (ok : GeomOk g N) (h : Distinct g I s) (name : List UInt8) :
    exec (inRange N) (findDentry g name) s = (lookup name (directory g s), s) :=
  exec_findDentry ok ((h.whole.linked _ h.root).readable ok) name

section

variable (h : Distinct g I s) (he : e ∈ directory g s)

include h he

/-- The entries after a delete. -/
theorem mem_unlinked (hun : Unlinked g I s e.inode s') :
    (∀ a, a ∈ directory g s' ↔ a ∈ directory g s ∧ a ≠ e) ∧
      (directory g s').Pairwise Apart ∧ ((directory g s').map Dentry.inode).Nodup ∧
      (directory g s').length + 1 = (directory g s).length := by
  obtain ⟨k, hk, hkey, hperm⟩ := hun.directory
  -- the inode tells the entry
  have hke : (directory g s)[k] = e :=
    List.inj_on_of_nodup_map h.inodes (List.getElem_mem hk) he hkey
  have hnodup : (directory g s).Nodup := h.inodes.of_map _
  refine ⟨fun a => ?_, ?_, ?_, ?_⟩
  · rw [hperm.mem_iff, ← hnodup.erase_getElem k hk, hnodup.mem_erase_iff, hke, and_comm]
  · exact (hperm.pairwise_iff Apart.symm).mpr (h.names.sublist (List.eraseIdx_sublist _ _))
  · rw [(hperm.map _).nodup_iff]
    exact h.inodes.sublist ((List.eraseIdx_sublist _ _).map _)
  · rw [hperm.length_eq, List.length_eraseIdx_of_lt hk]
    omega

/-- A name has one entry. -/
theorem eq_of_matches (he' : e' ∈ directory g s)
    (hm : nameMatches name e = true) (hm' : nameMatches name e' = true) : e = e' := by
  by_contra hne
  exact h.names.forall he he' hne name ⟨hm, hm'⟩

theorem unlinked (hun : Unlinked g I s e.inode s') : Distinct g I s' := by
  obtain ⟨hmem, hnames, hinodes, -⟩ := h.mem_unlinked he hun
  refine ⟨hun.whole, h.root, ?_, hnames, hinodes, fun a ha => h.files a ((hmem a).mp ha).1⟩
  have := h.entries
  rw [hun.size]
  omega

end

/-- `ktfs_delete` of a name that is there. -/
theorem delete_present (ok : GeomOk g N) (h : Distinct g I fs.store)
    (he : e ∈ directory g fs.store) (hm : nameMatches name e = true) :
    ∃ s', fs.step N g (.delete name) = ({ rc := 0 }, ⟨s', fs.files⟩) ∧
      Unlinked g I fs.store e.inode s' := by
  have hfind := h.resolved_eq ok name
  rw [lookup_of_matches h.names he hm] at hfind
  obtain ⟨s', hexec, hun⟩ := deleteEntry_whole ok h.whole h.root h.entries he (h.files e he).1
    (h.files e he).2 hfind
  refine ⟨s', ?_, hun⟩
  simp only [FlatFs.step, FsOp.prog, Prog.run_bind, ktfsDelete, run_commit_ok hexec]
  rfl

/-- `ktfs_delete` of a name that is not there. -/
theorem delete_absent (ok : GeomOk g N) (h : Distinct g I fs.store)
    (hall : ∀ e ∈ directory g fs.store, nameMatches name e = false) :
    fs.step N g (.delete name) = ({ rc := -ENOENT }, fs) := by
  have hfind := h.resolved_eq ok name
  rw [lookup_of_none hall] at hfind
  simp only [FlatFs.step, FsOp.prog, Prog.run_bind, ktfsDelete,
    run_commit_error (exec_deleteEntry_error hfind)]
  rfl

theorem present_or_absent (dir : List Dentry) (name : List UInt8) :
    (∃ e ∈ dir, nameMatches name e = true) ∨ ∀ e ∈ dir, nameMatches name e = false := by
  by_cases hex : ∃ e ∈ dir, nameMatches name e = true
  · exact .inl hex
  · refine .inr fun e he => ?_
    rw [← Bool.not_eq_true]
    exact fun hm => hex ⟨e, he, hm⟩

section

variable (ok : GeomOk g N) (h : Distinct g I fs.store)

include ok h

/-- A delete leaves entries that were there, and none of its name. -/
theorem step_delete (name : List UInt8) : Distinct g I (fs.next N g (.delete name)).store ∧
      ∀ e ∈ directory g (fs.next N g (.delete name)).store,
        e ∈ directory g fs.store ∧ nameMatches name e = false := by
  rcases present_or_absent (directory g fs.store) name with ⟨e, he, hm⟩ | hall
  · obtain ⟨s', hstep, hun⟩ := h.delete_present ok he hm
    rw [FlatFs.next, hstep]
    refine ⟨h.unlinked he hun, fun a ha => ?_⟩
    obtain ⟨ha, hae⟩ := ((h.mem_unlinked he hun).1 a).mp ha
    refine ⟨ha, ?_⟩
    rw [← Bool.not_eq_true]
    exact fun hma => hae (h.eq_of_matches ha he hma hm)
  · rw [FlatFs.next, h.delete_absent ok hall]
    exact ⟨h, fun e he => ⟨he, hall e he⟩⟩

theorem run_deletes (names : List (List UInt8)) :
    Distinct g I (fs.run N g (names.map .delete)).store ∧
      ∀ e ∈ directory g (fs.run N g (names.map .delete)).store, e ∈ directory g fs.store ∧
        ∀ name ∈ names, nameMatches name e = false := by
  induction names generalizing fs with
  | nil => exact ⟨h, fun e he => ⟨he, fun _ hn => by cases hn⟩⟩
  | cons name names ih =>
    obtain ⟨h', hstep⟩ := h.step_delete ok name
    obtain ⟨hd, hrun⟩ := ih h'
    refine ⟨hd, fun e he => ?_⟩
    obtain ⟨he', hn⟩ := hrun e he
    obtain ⟨he, hname⟩ := hstep e he'
    exact ⟨he, List.forall_mem_cons.mpr ⟨hname, hn⟩⟩

/-- `ktfs_delete` follows the law. -/
theorem deleteLaw (name : List UInt8) :
    DeleteLaw N g fs name (fs.step N g (.delete name)).1.rc (fs.next N g (.delete name)) := by
  obtain ⟨h', hleft⟩ := h.step_delete ok name
  refine ⟨fun e he hm => ?_, fun hall => ?_⟩
  · obtain ⟨s', hstep, hun⟩ := h.delete_present ok he hm
    obtain ⟨hmem, hnames, -, hlen⟩ := h.mem_unlinked he hun
    rw [FlatFs.next, hstep] at h' hleft ⊢
    refine ⟨rfl, rfl, ?_, hlen, fun name' hname' => ?_, fun e' he' hne => ?_⟩
    · rw [resolved, h'.resolved_eq ok name]
      exact lookup_of_none fun a ha => (hleft a ha).2
    · rw [resolved, resolved, h'.resolved_eq ok, h.resolved_eq ok]
      exact lookup_erase h.names hmem hnames hname'
    · refine hun.content _ (h.files e' he').1 (fun heq => hne ?_) (h.files e' he').2
      exact List.inj_on_of_nodup_map h.inodes he' he heq
  · rw [FlatFs.next, h.delete_absent ok hall]
    exact ⟨rfl, rfl⟩

end

end Distinct

/-- A disk with two files. -/
def twoFiles : Nat → Blk := (imageOf 4096 16 [(['a'], [7]), (['b'], [8, 9])]).block 512

/-- A disk in memory that holds an image is mounted. -/
theorem mount_imageOf {size numInodes : Int} (h : (main size numInodes files).toBool = true)
    (hN : (imageOf size numInodes files).size / 512 = N) :
    ∃ m, mount (ramDisk N) ((imageOf size numInodes files).block 512) = .ok m ∧
      m.QuietOn N id (geomOf ((imageOf size numInodes files).block 512 0)) ∧
      m.flat id = ⟨(imageOf size numInodes files).block 512, noFiles⟩ ∧
      WellFormed N (geomOf ((imageOf size numInodes files).block 512 0))
        ((imageOf size numInodes files).block 512) := by
  obtain ⟨m, L, hm, hq, hL, hflat, hlaid⟩ := mount_image (ramDisk_reliable N) (main_imageOf h)
    (Nat.le_of_eq hN) (fun b _ => (rfl : id ((imageOf size numInodes files).block 512) b = _))
  have hg : geomOf ((imageOf size numInodes files).block 512 0) = L.geom := hlaid.geom
  rw [hg]
  exact ⟨m, hm, hq, hflat, hlaid.wellFormed hL⟩

/-- A file is opened on a disk that was just mounted. -/
theorem opened {σ : Type} {d : Device σ} {content : σ → Nat → Blk} (rel : Reliable d N content)
    {m : Mounted σ} (hq : m.QuietOn N content g) (hflat : m.flat content = ⟨s, noFiles⟩)
    (name : List UInt8) : (m.next d (.open name)).QuietOn N content g ∧
      (m.next d (.open name)).flat content = FlatFs.next N g ⟨s, noFiles⟩ (.open name) ∧
      ((m.next d (.open name)).flat content).store = s := by
  obtain ⟨hview, hq'⟩ := Mounted.next_flat rel m (.open name) hq
  have hreads : FsOp.ReadOnly (.open name) := trivial
  rw [hflat] at hview
  refine ⟨hq', hview, ?_⟩
  rw [hview]
  exact (FlatFs.step_readOnly (N := N) (g := g) ⟨s, noFiles⟩ hreads).1

theorem mount_twoFiles : ∃ m, mount (ramDisk 8) twoFiles = .ok m ∧
    m.QuietOn 8 id (geomOf (twoFiles 0)) ∧ m.flat id = ⟨twoFiles, noFiles⟩ ∧
    WellFormed 8 (geomOf (twoFiles 0)) twoFiles :=
  mount_imageOf (by decide +kernel) (by decide +kernel)

/-- The file `b` is opened on the disk with two files. -/
theorem opened_twoFiles : ∃ m, mount (ramDisk 8) twoFiles = .ok m ∧
    (m.next (ramDisk 8) (.open [98])).QuietOn 8 id (geomOf (twoFiles 0)) ∧
    (m.next (ramDisk 8) (.open [98])).flat id =
      FlatFs.next 8 (geomOf (twoFiles 0)) ⟨twoFiles, noFiles⟩ (.open [98]) ∧
    ((m.next (ramDisk 8) (.open [98])).files 0).inodeIdx = 2 ∧
    WellFormed 8 (geomOf (twoFiles 0)) ((m.next (ramDisk 8) (.open [98])).flat id).store ∧
    Named (geomOf (twoFiles 0)) ((m.next (ramDisk 8) (.open [98])).flat id).store 2 := by
  obtain ⟨m, hm, hq, hflat, h⟩ := mount_twoFiles
  obtain ⟨hq', hopen, hs⟩ := opened (ramDisk_reliable 8) hq hflat [98]
  refine ⟨m, hm, hq', hopen, ?_, by rwa [hs], ?_⟩
  · show (((m.next (ramDisk 8) (.open [98])).flat id).files 0).inodeIdx = 2
    rw [hopen]
    decide +kernel
  · rw [hs]
    refine .inr ?_
    decide +kernel

section Calls

variable {σ : Type} {d : Device σ} {content : σ → Nat → Blk}

/-- A write below the end of a file returns its length and replaces the bytes of the range,
in the file and in what its handles read, and nothing else. -/
theorem writeat_in_place (rel : Reliable d N content) {m : Mounted σ} (hq : m.QuietOn N content g)
    (inv : MkfsInvariant N g (m.flat content).store) {f : Fd} {i : Nat}
    (hf : (m.files f).inodeIdx = i) (hi : Named g (m.flat content).store i)
    (hroot : i ≠ g.rootInodeIdx) {pos : Nat} {buf : Nat → UInt8} {len : Int} (hlen : 0 < len)
    (hend : pos + len.toNat ≤ (inodeAt g (m.flat content).store i).size.toNat) :
    (m.step d (.writeat f pos buf len)).1.rc = len ∧
    Overwritten g (m.flat content) i pos (bufBytes buf len.toNat)
      ((m.next d (.writeat f pos buf len)).flat content) ∧
    ∀ f', (m.files f').inodeIdx = i →
      (m.files f').size = (inodeAt g (m.flat content).store i).size → ∀ (pos' : Nat) (len' : Int),
        ((m.next d (.writeat f pos buf len)).step d (.readat f' pos' len')).1.data =
          ((spliced (Ktfs.content g (m.flat content).store (inodeAt g (m.flat content).store i)) pos
            (bufBytes buf len.toNat)).drop pos').take len'.toNat := by
  obtain ⟨⟨hrc, hover⟩, hsame, hl⟩ := inv.step_writeat
    (show ((m.flat content).files f).inodeIdx = i from hf) hi hroot buf hlen hend
  obtain ⟨hnext, hq'⟩ := Mounted.next_flat rel m (.writeat f pos buf len) hq
  refine ⟨?_, ?_, fun f' hf' hsize pos' len' => ?_⟩
  · rw [Mounted.reply_flat rel hq]
    exact hrc
  · rw [hnext]
    exact hover
  · rw [Mounted.reply_flat rel hq', hnext]
    generalize (m.flat content).next N g (.writeat f pos buf len) = fs' at hover hsame hl
    have hfile : fs'.files f' = m.files f' := congrFun hover.handles f'
    have hread : Prog.run (inRange N) (ktfsReadat g fs'.files f' pos' len') fs'.store = _ :=
      run_ktfsReadat inv.geom (by rw [hfile, hf']; exact inv.range i hi) (by rw [hfile, hf', hsame]; exact hl)
      (by rw [hfile, hf', hsame, hsize]) pos' len'
    rw [← hover.content]
    simp only [FlatFs.step, FsOp.prog, Prog.run_bind, hread, hfile, hf']
    rfl

/-- The file `b` is opened, and its second byte is replaced. -/
theorem writeat_in_place_twoFiles : ∃ m, mount (ramDisk 8) twoFiles = .ok m ∧
    ((m.next (ramDisk 8) (.open [98])).step (ramDisk 8) (.writeat 0 1 (fun _ => 5) 1)).1.rc = 1 := by
  obtain ⟨m, hm, hq, hopen, hidx, h, hnamed⟩ := opened_twoFiles
  refine ⟨m, hm, (writeat_in_place (ramDisk_reliable 8) hq h.toMkfsInvariant hidx hnamed
    (by decide +kernel) (by decide) ?_).1⟩
  rw [hopen]
  decide +kernel

/-- On a file system as `mkfs` leaves it, with names apart and with inodes that differ from
each other and from the root, `ktfs_delete` follows its law after any sequence of deletes.
When every entry had a name among the deleted ones the directory is empty. -/
theorem delete_law (rel : Reliable d N content) {m : Mounted σ} (hq : m.QuietOn N content g)
    (inv : MkfsInvariant N g (m.flat content).store)
    (hnames : (directory g (m.flat content).store).Pairwise Apart)
    (hinodes : ((directory g (m.flat content).store).map Dentry.inode).Nodup)
    (hroot : ∀ e ∈ directory g (m.flat content).store, e.inode ≠ g.rootInodeIdx)
    (names : List (List UInt8)) :
    (∀ name, DeleteLaw N g ((m.run d (names.map .delete)).flat content) name
      ((m.run d (names.map .delete)).step d (.delete name)).1.rc
      (((m.run d (names.map .delete)).next d (.delete name)).flat content)) ∧
    ((∀ e ∈ directory g (m.flat content).store, ∃ name ∈ names, nameMatches name e = true) →
      directory g ((m.run d (names.map .delete)).flat content).store = []) := by
  have ok := inv.geom
  have h : Distinct g _ (m.flat content).store := ⟨inv.whole, .inl rfl, inv.entries, hnames, hinodes,
    fun e he => ⟨.inr ⟨e, he, rfl⟩, hroot e he⟩⟩
  obtain ⟨hq, rfl⟩ := hq
  obtain ⟨hrun, hq'⟩ := Mounted.run_flat rel hq (names.map .delete)
  have hq'' : (m.run d (names.map .delete)).QuietOn N content m.geom :=
    ⟨hq', Mounted.run_geom m _⟩
  obtain ⟨h', hleft⟩ := h.run_deletes ok names
  rw [hrun] at h' hleft
  refine ⟨fun name => ?_, fun hall => ?_⟩
  · rw [(Mounted.next_flat rel _ (.delete name) hq'').1, Mounted.reply_flat rel hq'']
    exact h'.deleteLaw ok name
  · refine List.eq_nil_iff_forall_not_mem.mpr fun e he => ?_
    obtain ⟨he, hn⟩ := hleft e he
    obtain ⟨name, hname, hm⟩ := hall e he
    rw [hn name hname] at hm
    cases hm

/-- Both files are deleted. -/
theorem delete_law_twoFiles : ∃ m, mount (ramDisk 8) twoFiles = .ok m ∧
    directory (geomOf (twoFiles 0))
      ((m.run (ramDisk 8) ([[97], [98]].map .delete)).flat id).store = [] := by
  obtain ⟨m, hm, hq, hflat, h⟩ := mount_twoFiles
  refine ⟨m, hm, (delete_law (ramDisk_reliable 8) hq (by rw [hflat]; exact h.toMkfsInvariant) ?_ ?_ ?_
    [[97], [98]]).2 ?_⟩
  · rw [hflat]
    exact List.Pairwise.imp apart_of_nameLoop (by decide +kernel)
  · rw [hflat]
    decide +kernel
  · rw [hflat]
    decide +kernel
  · rw [hflat]
    decide +kernel

end Calls

end MiniOs.Mkfs
