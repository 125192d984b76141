import MiniOs.Mkfs.Image
import MiniOs.Ktfs.Sound

/-!
# The driver reads an image

A device that holds an image is mounted, and the files are opened and read: every file
that was added is found under its name and reads as its content, and nothing else is
found.
-/

namespace MiniOs.Mkfs

open Ktfs (Place Inode Geom GeomOk inodeAt inodeCount ptr Mounted FsOp mount)

variable {L : Layout} {files : List (Name × List UInt8)} {s s' : Nat → Blk} {N : Nat}
  {f : Name × List UInt8}

/-! ## Content -/

/-- The bytes of a block of a file. -/
theorem u8_blockOf_slice {data : List UInt8} {l j : Nat} (hj : j < 512) :
    (blockOf ((Bytes.ofList data).slice (l * 512) ((l + 1) * 512))).u8 j =
      data.getD (l * 512 + j) 0 := by
  rw [blockOf, Block.u8_splice hj, Nat.sub_zero]
  by_cases hin : 0 ≤ j ∧ j < 0 + ((Bytes.ofList data).slice (l * 512) ((l + 1) * 512)).size
  · rw [if_pos hin]
    rfl
  · rw [if_neg hin]
    simp only [Bytes.slice, Bytes.size_ofList] at hin
    rw [Block.u8_zero, List.getD_eq_getElem?_getD, List.getElem?_eq_none (by omega)]
    rfl

namespace Laid

/-- The content of a file. -/
theorem content_eq (h : Laid L files s) {i : Nat} (hf : files[i]? = some f) :
    Ktfs.content L.geom s (inodeAt L.geom s (i + 1)) = f.2 := by
  have hi := (List.getElem?_eq_some_iff.mp hf).1
  have hsize := size_inodeFor h (i + 1)
  rw [fileSize_of_some hf] at hsize
  have hmax := h.max (i + 1)
  rw [h.inode _ (h.named_lt (h.named_iff.mpr hi)), Ktfs.content, hsize]
  apply List.ext_getElem
  · simp
  · intro q hq hq'
    rw [List.length_map, List.length_range] at hq
    have hl : q / 512 < blks files (i + 1) := by
      rw [blks_of_some hf]
      omega
    have hw : (Place.data (q / 512)).Within (blks files (i + 1)) := ⟨hl, by omega⟩
    rw [List.getElem_map, List.getElem_range, Ktfs.byteAt, h.ptr_eq, if_pos hw,
      h.dataBlkToPos_slot (slot_lt_span hw), slot, h.data i f hf _ hl,
      u8_blockOf_slice (Nat.mod_lt _ (by decide)), show q / 512 * 512 + q % 512 = q by omega,
      List.getD_eq_getElem?_getD, List.getElem?_eq_getElem hq']
    rfl

end Laid

/-! ## Names -/

theorem asciiBytes_inj {name name' : Name} (h : ∀ c ∈ name, c.toNat < 128)
    (h' : ∀ c ∈ name', c.toNat < 128) (heq : asciiBytes name = asciiBytes name') : name = name' := by
  induction name generalizing name' with
  | nil =>
    cases name' with
    | nil => rfl
    | cons c name' => cases heq
  | cons c name ih =>
    cases name' with
    | nil => cases heq
    | cons c' name' =>
      rw [asciiBytes, asciiBytes, List.map_cons, List.map_cons, List.cons.injEq] at heq
      have hc := h c (List.mem_cons_self ..)
      have hc' := h' c' (List.mem_cons_self ..)
      have hcc : c = c' := by
        have := congrArg UInt8.toNat heq.1
        simp only [UInt8.toNat_ofNat'] at this
        apply Char.toNat_inj.mp
        omega
      rw [hcc, ih (fun c hc => h c (List.mem_cons_of_mem _ hc))
        (fun c hc => h' c (List.mem_cons_of_mem _ hc)) heq.2]

/-- The inode numbers and names of the files. -/
def entriesOf (files : List (Name × List UInt8)) : List (Nat × List UInt8) :=
  (List.range files.length).map fun d => (d + 1, asciiBytes (files[d]?.elim [] Prod.fst))

theorem nulFree_asciiBytes {name : Name} (h : ∀ c ∈ name, c.toNat < 128)
    (hnul : Char.ofNat 0 ∉ name) : Ktfs.NulFree (asciiBytes name) := by
  intro hm
  obtain ⟨c, hc, hz⟩ := List.mem_map.mp hm
  have := congrArg UInt8.toNat hz
  simp only [UInt8.toNat_ofNat', UInt8.toNat_zero] at this
  have hlt := h c hc
  have hc0 : c = Char.ofNat 0 := by
    apply Char.toNat_inj.mp
    show c.toNat = 0
    omega
  exact hnul (hc0 ▸ hc)

theorem map_snd_entriesOf (files : List (Name × List UInt8)) :
    (entriesOf files).map Prod.snd = files.map fun f => asciiBytes f.1 := by
  apply List.ext_getElem
  · simp [entriesOf]
  · intro d h1 h2
    rw [List.length_map] at h2
    simp [entriesOf, h2]

/-- The directory of an image is well formed. -/
theorem Laid.dirWF (h : Laid L files s) (hnul : ∀ f ∈ files, Char.ofNat 0 ∉ f.1)
    (hdist : (files.map Prod.fst).Nodup) : Ktfs.DirWF L.geom s (entriesOf files) := by
  have hascii : ∀ f ∈ files, (∀ c ∈ f.1, c.toNat < 128) ∧ f.1.length ≤ 13 := by
    intro f hf
    obtain ⟨d, hd⟩ := List.getElem?_of_mem hf
    obtain ⟨hlt, hlen, -⟩ := h.dentry d f hd
    exact ⟨hlt, hlen⟩
  refine ⟨h.owned.narrow ?_ (fun _ _ _ => trivial) (Set.empty_subset _), ?_, ?_, ?_, ?_⟩
  · rintro i rfl
    exact (h.geomOk (Nat.le_refl _)).root_lt
  · rw [h.rootOf_eq, size_inodeFor h, fileSize, entriesOf, List.length_map, List.length_range]
    omega
  · rw [h.directory_eq, entriesOf, List.map_map]
    rfl
  · intro e he
    have hm : e.2 ∈ (entriesOf files).map Prod.snd := List.mem_map_of_mem he
    rw [map_snd_entriesOf] at hm
    obtain ⟨f, hf, hfe⟩ := List.mem_map.mp hm
    rw [← hfe]
    obtain ⟨hlt, hlen⟩ := hascii f hf
    exact ⟨nulFree_asciiBytes hlt (hnul f hf), by rw [asciiBytes, List.length_map]; exact hlen⟩
  · rw [map_snd_entriesOf]
    have hmap : (files.map fun f => asciiBytes f.1) = (files.map Prod.fst).map asciiBytes := by
      rw [List.map_map]
      rfl
    rw [hmap]
    refine hdist.map_on ?_
    intro x hx y hy
    obtain ⟨f, hf, rfl⟩ := List.mem_map.mp hx
    obtain ⟨f', hf', rfl⟩ := List.mem_map.mp hy
    exact asciiBytes_inj (hascii f hf).1 (hascii f' hf').1

/-- Stores that hold the same image. -/
theorem Laid.congr (h : Laid L files s) (hs : ∀ b, b < L.blockCount → s' b = s b) :
    Laid L files s' := by
  have hdata := h.ok.data
  have hlt := h.ok.lt_data
  have hfits := h.fits
  have hblk : ∀ i j, j < span (blks files i) →
      s' (base L files i + j) = s (base L files i + j) :=
    fun i j hj => hs _ (Nat.lt_of_lt_of_le (base_add_lt_next hj) hfits)
  refine ⟨h.ok, h.small, ?_, h.nonempty, h.count, h.rootBlks, h.max, hfits, ?_, ?_, ?_, ?_, ?_⟩
  · rw [hs 0 (by omega)]
    exact h.geom
  · intro b hb
    rw [Ktfs.used, hs _ (by omega), ← Ktfs.used, h.bits b hb]
  · intro i hi
    have := ((h.geomOk (Nat.le_refl _)).inodeBlk_lt hi).2
    rw [inodeAt, hs _ (Nat.lt_trans this hdata), ← inodeAt, h.inode i hi]
  · exact fun i => (h.file i).congr fun j hj => hblk i j hj
  · intro i f hf l hl
    rw [hblk (i + 1) l (Nat.lt_of_lt_of_le hl (le_span _)), h.data i f hf l hl]
  · intro d f hf
    have hd := (List.getElem?_eq_some_iff.mp hf).1
    have hlt : d * 16 / 512 < blks files 0 := by
      rw [blks, fileSize]
      omega
    have := hblk 0 _ (Nat.lt_of_lt_of_le hlt (le_span _))
    rw [base] at this
    rw [this]
    exact h.dentry d f hf

/-! ## Opening and reading -/

/-- An image is a sound file system. -/
theorem Laid.sound (h : Laid L files s) :
    Ktfs.Sound L.geom (allScope L.geom) ⟨s, Ktfs.noFiles⟩ := by
  refine ⟨h.owned, (h.geomOk (Nat.le_refl _)).root_lt, ?_, fun _ hf => by cases hf⟩
  intro e he
  refine ⟨h.named_lt (.inr ⟨e, he, rfl⟩), ?_⟩
  have hdir : Ktfs.directory L.geom s = _ := h.directory_eq
  rw [hdir] at he
  obtain ⟨d, -, rfl⟩ := List.mem_map.mp he
  exact Nat.succ_ne_zero d

/-- What `main` builds, when it completes. -/
def imageOf (size numInodes : Int) (files : List (Name × List UInt8)) : Bytes :=
  match main size numInodes files with
  | .ok image => image
  | .error _ => .zeros 0

theorem main_imageOf {size numInodes : Int} (h : (main size numInodes files).toBool = true) :
    main size numInodes files = .ok (imageOf size numInodes files) := by
  rw [imageOf]
  cases hmain : main size numInodes files with
  | error e =>
    rw [hmain] at h
    cases h
  | ok image => rfl

section Reading

variable {σ : Type} {d : Device σ} {content : σ → Nat → Blk}

/-- An open of one of the files, and a read of the handle after further calls that only
read. -/
theorem Laid.open_reads (rel : Reliable d N content) (hN : L.blockCount ≤ N) {m : Mounted σ}
    (hq : m.Quiet N content) (hg : m.geom = L.geom) (h : Laid L files (m.cache.logical content))
    (hnul : ∀ f ∈ files, Char.ofNat 0 ∉ f.1) (hdist : (files.map Prod.fst).Nodup)
    (hf : f ∈ files) (hfree : ∃ fd, (m.files fd).inUse = false) :
    ∃ fd, (m.step d (.open (asciiBytes f.1))).1 = { rc := 0, fd := some fd } ∧
      ∀ ops : List FsOp, (∀ op ∈ ops, op.ReadOnly) → .close fd ∉ ops → ∀ (pos : Nat) (len : Int),
        (((m.step d (.open (asciiBytes f.1))).2.run d ops).step d (.readat fd pos len)).1 =
          { rc := ((f.2.drop pos).take len.toNat).length
            data := (f.2.drop pos).take len.toNat } := by
  have ok := h.geomOk hN
  have hwf := h.dirWF hnul hdist
  obtain ⟨i, hi⟩ := List.getElem?_of_mem hf
  have hlen := (List.getElem?_eq_some_iff.mp hi).1
  have hmem : (i + 1, asciiBytes f.1) ∈ entriesOf files := by
    refine List.mem_map.mpr ⟨i, List.mem_range.mpr hlen, ?_⟩
    rw [hi]
    rfl
  have hlt : i + 1 < inodeCount L.geom := h.named_lt (h.named_iff.mpr hlen)
  have hfind := hwf.find ok (asciiBytes f.1)
  rw [Ktfs.lookup_of_mem hwf.valid hwf.nodup hmem] at hfind
  obtain ⟨fd, hfd, hrun⟩ := Ktfs.run_ktfsOpen_ok ok hfind hlt hfree
  obtain ⟨hstep, hq'⟩ := Mounted.step_flat rel hq (.open (asciiBytes f.1))
  have hopen : (m.flat content).step N m.geom (.open (asciiBytes f.1)) =
      ({ rc := 0, fd := some fd }, ⟨m.cache.logical content, Function.update m.files fd
        ⟨i + 1, (inodeAt L.geom (m.cache.logical content) (i + 1)).size, true⟩⟩) := by
    rw [hg]
    simp only [Ktfs.FlatFs.step, Mounted.flat, FsOp.prog, hrun]
  rw [hopen, Prod.mk.injEq] at hstep
  refine ⟨fd, hstep.1.symm, fun ops hops hclose pos len => ?_⟩
  -- the calls in between leave the blocks and the handle
  obtain ⟨hflat, hq''⟩ := Mounted.run_flat rel hq' ops
  obtain ⟨hstore, hfiles⟩ := Ktfs.FlatFs.run_readOnly (N := N) (g := m.geom) ops
    ((m.step d (.open (asciiBytes f.1))).2.flat content) hops
  have hgeom : (m.step d (.open (asciiBytes f.1))).2.geom = m.geom := rfl
  rw [hgeom] at hflat
  rw [hflat, ← hstep.2] at hstore hfiles
  have hhandle : (((m.step d (.open (asciiBytes f.1))).2.run d ops).flat content).files fd =
      ⟨i + 1, (inodeAt L.geom (m.cache.logical content) (i + 1)).size, true⟩ :=
    (hfiles fd (by simp) hclose).trans (Function.update_self ..)
  have hread := (Mounted.step_flat rel hq'' (.readat fd pos len)).1
  rw [← congrArg Prod.fst hread, Mounted.run_geom, hgeom, hg]
  generalize ((m.step d (.open (asciiBytes f.1))).2.run d ops).flat content = fs at hstore hhandle
  have hstore' : fs.store = m.cache.logical content := hstore
  have hidx : (fs.files fd).inodeIdx = i + 1 := by rw [hhandle]
  have hown := h.owned
  rw [← hstore'] at hown
  have hscope : (fs.files fd).inodeIdx ∈ (allScope L.geom).inodes := by
    rw [hidx]
    exact hlt
  have hdata := Ktfs.run_ktfsReadat ok (hown.range _ hscope) (hown.linked hscope) (by rw [hhandle, hstore']) pos len
  rw [hidx, hstore', h.content_eq hi] at hdata
  simp only [Ktfs.FlatFs.step, FsOp.prog, Prog.run_bind, hstore', hdata]
  rfl

/-- A device that holds an image is mounted with the layout of the image. -/
theorem mount_image (rel : Reliable d N content) {size numInodes : Int} {image : Bytes}
    (hmk : main size numInodes files = .ok image) (hN : image.size / 512 ≤ N) {dev : σ}
    (hdev : ∀ b, b < image.size / 512 → content dev b = image.block 512 b) :
    ∃ m L, mount d dev = .ok m ∧ m.QuietOn N content L.geom ∧ L.blockCount ≤ N ∧
      m.flat content = ⟨content dev, Ktfs.noFiles⟩ ∧ Laid L files (content dev) := by
  obtain ⟨L, -, -, hsize, hlaid⟩ := main_ok hmk
  have hcount : image.size / 512 = L.blockCount := by omega
  rw [hcount] at hN hdev
  have hdata := hlaid.ok.data
  obtain ⟨m, hm, hq, hg, hflat⟩ := Ktfs.mount_eq rel (by omega) dev
  have hlaid' : Laid L files (content dev) := hlaid.congr fun b hb => hdev b hb
  rw [hlaid'.geom] at hg
  exact ⟨m, L, hm, ⟨hq, hg⟩, hN, hflat, hlaid'⟩

/-- The driver inverts the image builder.  On a device that holds an image built from files
with distinct names, and after any calls that only read: a file opens under its name when
there is a free handle, and from then on, until that handle is closed, a read at any
position and of any length returns the bytes of the file there.  No other string opens. -/
theorem kernel_reads_mkfs (rel : Reliable d N content) {size numInodes : Int} {image : Bytes}
    (hmk : main size numInodes files = .ok image) (hnul : ∀ f ∈ files, Char.ofNat 0 ∉ f.1)
    (hdist : (files.map Prod.fst).Nodup) (hN : image.size / 512 ≤ N) {dev : σ}
    (hdev : ∀ b, b < image.size / 512 → content dev b = image.block 512 b) :
    ∃ m, mount d dev = .ok m ∧ ∀ ops : List FsOp, (∀ op ∈ ops, op.ReadOnly) →
      (∀ f ∈ files, (∃ fd, ((m.run d ops).files fd).inUse = false) →
        ∃ fd, ((m.run d ops).step d (.open (asciiBytes f.1))).1 = { rc := 0, fd := some fd } ∧
          ∀ ops' : List FsOp, (∀ op ∈ ops', op.ReadOnly) → .close fd ∉ ops' →
            ∀ (pos : Nat) (len : Int), 0 < len →
              ((((m.run d ops).step d (.open (asciiBytes f.1))).2.run d ops').step d
                (.readat fd pos len)).1 =
                { rc := ((f.2.drop pos).take len.toNat).length
                  data := (f.2.drop pos).take len.toNat }) ∧
      ∀ str : List UInt8, Ktfs.NulFree str → (str ∉ files.map fun f => asciiBytes f.1) →
        ((m.run d ops).step d (.open str)).1 = { rc := -ENOENT } := by
  obtain ⟨m, L, hm, ⟨hq, hg⟩, hN, hflat, hlaid'⟩ := mount_image rel hmk hN hdev
  refine ⟨m, hm, fun ops hops => ?_⟩
  obtain ⟨hrun, hq'⟩ := Mounted.run_flat rel hq ops
  have hstore := (Ktfs.FlatFs.run_readOnly (N := N) (g := m.geom) ops (m.flat content) hops).1
  rw [hrun, hflat] at hstore
  have hlogical : (m.run d ops).cache.logical content = content dev := hstore
  have hg' : (m.run d ops).geom = L.geom := by rw [Mounted.run_geom, hg]
  rw [← hlogical] at hlaid'
  constructor
  · intro f hf hfree
    obtain ⟨fd, hopen, hread⟩ := hlaid'.open_reads rel hN hq' hg' hnul hdist hf hfree
    exact ⟨fd, hopen, fun ops' hops' hclose pos len _ => hread ops' hops' hclose pos len⟩
  · intro str hstr hnot
    have hwf := hlaid'.dirWF hnul hdist
    have hfind := hwf.find (hlaid'.geomOk hN) str
    rw [Ktfs.lookup_of_not_mem hwf.valid hstr (by rw [map_snd_entriesOf]; exact hnot)] at hfind
    have hopen := Ktfs.run_ktfsOpen_error (m.run d ops).files hfind
    have hstep := (Mounted.step_flat rel hq' (.open str)).1
    rw [← congrArg Prod.fst hstep, hg']
    simp only [Ktfs.FlatFs.step, Mounted.flat, FsOp.prog, hopen]

/-- An image of one file of a byte is mounted, and the file is read. -/
theorem kernel_reads_mkfs_one_file : ∃ image, main 4096 16 [(['a'], [7])] = .ok image ∧
    ∃ m, mount (ramDisk 8) (image.block 512) = .ok m ∧
      ∃ fd, (m.step (ramDisk 8) (.open [97])).1 = { rc := 0, fd := some fd } ∧
        ((m.step (ramDisk 8) (.open [97])).2.step (ramDisk 8) (.readat fd 0 5)).1 =
          { rc := 1, data := [7] } := by
  obtain ⟨image, h⟩ := exists_image (r := main 4096 16 [(['a'], [7])]) (by decide +kernel)
  have hsize : image.size / 512 = 8 := by
    obtain ⟨L, hL, -, hs, -⟩ := main_ok h
    omega
  obtain ⟨m, hm, hall⟩ := kernel_reads_mkfs (ramDisk_reliable 8) h (by decide) (by decide)
    (Nat.le_of_eq hsize) (fun b _ => (rfl : id (image.block 512) b = _))
  obtain ⟨fd, hopen, hread⟩ := (hall [] (by simp)).1 (['a'], [7]) (by simp) ⟨0, by
    obtain ⟨m', hm', -, -, hf⟩ := Ktfs.mount_eq (ramDisk_reliable 8) (by decide) (image.block 512)
    rw [hm] at hm'
    obtain rfl := Except.ok.inj hm'
    have hfiles : m.files = Ktfs.noFiles := congrArg Ktfs.FlatFs.files hf
    show (m.files 0).inUse = false
    rw [hfiles]
    rfl⟩
  exact ⟨image, h, m, hm, fd, hopen, hread [] (by simp) (by simp) 0 5 (by decide)⟩

end Reading

end MiniOs.Mkfs
