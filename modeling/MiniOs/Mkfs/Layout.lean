import MiniOs.Mkfs.Files
import MiniOs.Ktfs.Directory

/-!
# The finished image

`main` reserves the root directory, adds the files in turn and finalizes.  Inode 0 is the
root and inode `i + 1` is file `i`; their blocks follow one another in the data area, each
file directly behind the one before it.  `Laid` says this of the blocks of the image, and
`main_ok` shows it whenever `main` completes.
-/

namespace MiniOs.Mkfs

open Ktfs (Place Inode Geom GeomOk inodeAt used)
open Function (update_of_ne update_self)

variable {L : Layout} {files : List (Name × List UInt8)} {img img' : Image}
  {i : Nat} {f : Name × List UInt8} {buf : Bytes} {name : Name}

/-! ## What belongs to an inode -/

/-- The size of inode `i`: 16 bytes an entry for the root, 0 for an inode without a
file. -/
def fileSize (files : List (Name × List UInt8)) : Nat → Nat
  | 0 => files.length * 16
  | i + 1 => (files[i]?.elim [] Prod.snd).length

/-- The number of blocks of inode `i`. -/
def blks (files : List (Name × List UInt8)) (i : Nat) : Nat := (fileSize files i + 511) / 512

/-- The first block of inode `i`. -/
def base (L : Layout) (files : List (Name × List UInt8)) : Nat → Nat
  | 0 => L.firstDataBlock
  | i + 1 => base L files i + span (blks files i)

/-- The words of inode `i`. -/
def wordsOf (L : Layout) (files : List (Name × List UInt8)) (i : Nat) : List UInt32 :=
  (fileWords (fileSize files i) (dataRel L (base L files i)) (blks files i)).map UInt32.ofNat

/-- Inode `i`. -/
def inodeFor (L : Layout) (files : List (Name × List UInt8)) (i : Nat) : Inode :=
  fileInode (fileSize files i) (dataRel L (base L files i)) (blks files i)

/-- The bytes of a name of ASCII characters. -/
def asciiBytes (name : Name) : List UInt8 := name.map fun c => UInt8.ofNat c.toNat

theorem firstData_le_base (L : Layout) (files : List (Name × List UInt8)) (i : Nat) :
    L.firstDataBlock ≤ base L files i := by
  induction i with
  | zero => exact Nat.le_refl _
  | succ i ih => exact ih.trans (Nat.le_add_right _ _)

theorem base_mono (L : Layout) (files : List (Name × List UInt8)) {j : Nat} (h : i ≤ j) :
    base L files i ≤ base L files j := by
  induction h with
  | refl => exact Nat.le_refl _
  | step _ ih => exact ih.trans (Nat.le_add_right _ _)

theorem fileSize_of_some (hf : files[i]? = some f) :
    fileSize files (i + 1) = f.2.length := by
  rw [fileSize, hf]
  rfl

theorem blks_of_some (hf : files[i]? = some f) :
    blks files (i + 1) = (f.2.length + 511) / 512 := by
  rw [blks, fileSize_of_some hf]

theorem blks_of_le (hi : files.length ≤ i) : blks files (i + 1) = 0 := by
  simp [blks, fileSize, hi]

/-! ## Adding the files -/

/-- The blocks of the root are reserved. -/
theorem reserveLoop_ok (ok : LayoutOk L) : ∀ {n : Nat} {img img' : Image}, Inv L img →
    reserveLoop L n img = .ok img' →
    Inv L img' ∧ img'.nextBlock = img.nextBlock + n ∧
      img'.rootBlocks = img.rootBlocks ++ List.range' img.nextBlock n ∧
      img'.inodes = img.inodes ∧ img'.dentries = img.dentries
  | 0, img, img', inv, h => by
      rw [reserveLoop, pure_eq_ok] at h
      subst h
      exact ⟨inv, rfl, by simp, rfl, rfl⟩
  | n + 1, img, img', inv, h => by
      simp only [reserveLoop, bind_eq_ok] at h
      obtain ⟨⟨blk, img1⟩, halloc, hloop⟩ := h
      obtain ⟨rfl, happ, hnext, -⟩ := inv.alloc ok halloc
      have inv1 : Inv L { img1 with rootBlocks := img1.rootBlocks ++ [img.nextBlock] } :=
        ⟨happ.inv.size, happ.inv.lo, happ.inv.hi, happ.inv.bits, happ.inv.fresh,
          happ.inv.inodeArea⟩
      obtain ⟨inv', hnext', hroot, hi, hd⟩ := reserveLoop_ok ok inv1 hloop
      simp only [hnext] at hnext' hroot
      refine ⟨inv', by omega, ?_, hi.trans happ.inodes, hd.trans happ.dentries⟩
      rw [hroot, happ.rootBlocks, List.range'_succ, List.append_assoc, List.singleton_append]

/-- The image after the first `m` files. -/
structure Built (L : Layout) (files : List (Name × List UInt8)) (m : Nat) (img : Image) :
    Prop where
  inv : Inv L img
  next : img.nextBlock = base L files (m + 1)
  rootBlocks : img.rootBlocks = List.range' L.firstDataBlock (blks files 0)
  inodes : img.inodes = (List.range L.numInodes).map fun i =>
    Bytes.ofWords (if 1 ≤ i ∧ i ≤ m then wordsOf L files i else List.replicate 8 0)
  dentries : img.dentries = (List.range m).map fun i => (i + 1, (files[i]?.elim [] Prod.fst))
  file : ∀ i, i < m → blks files (i + 1) ≤ 32899 ∧
    FileAt (dataRel L (base L files (i + 1))) (blks files (i + 1)) (inodeFor L files (i + 1))
      fun j => store img (base L files (i + 1) + j)
  data : ∀ i f, files[i]? = some f → i < m → ∀ l, l < blks files (i + 1) →
    store img (base L files (i + 1) + l) =
      blockOf ((Bytes.ofList f.2).slice (l * 512) ((l + 1) * 512))

theorem set_map_range {α : Type} (f : Nat → α) (n i : Nat) (v : α) :
    ((List.range n).map f).set i v = (List.range n).map (Function.update f i v) := by
  apply List.ext_getElem
  · simp
  · intro j h1 h2
    rw [List.getElem_set]
    by_cases hij : i = j
    · subst hij
      simp
    · simp [hij, update_of_ne (Ne.symm hij)]

/-- The blocks of a file lie below those of the files after it. -/
theorem base_add_lt {j m : Nat} (hi : i < m) (hj : j < span (blks files i)) :
    base L files i + j < base L files m := by
  have := base_mono L files (show i + 1 ≤ m from hi)
  rw [base] at this
  omega

theorem le_span (n : Nat) : n ≤ span n := by
  rw [span]
  omega

/-- One more file. -/
theorem Built.addFile (ok : LayoutOk L) {m : Nat} (h : Built L files m img)
    (hf : files[m]? = some f)
    (hadd : addFile L img f.1 f.2 (m + 1) = .ok img') : Built L files (m + 1) img' := by
  have ha := addFile_ok ok h.inv hadd
  have hblks := blks_of_some hf
  have hsize := fileSize_of_some hf
  have hlo := fun i => Nat.lt_of_lt_of_le ok.lt_data (firstData_le_base L files i)
  -- the blocks of the files before it stay
  have hold : ∀ i j, i < m → j < span (blks files (i + 1)) →
      store img' (base L files (i + 1) + j) = store img (base L files (i + 1) + j) := by
    intro i j hi hj
    refine ha.old _ (Nat.lt_of_lt_of_le (hlo (i + 1)) (Nat.le_add_right _ _)) ?_
    rw [h.next]
    exact base_add_lt (by omega) hj
  refine ⟨ha.inv, ?_, ha.rootBlocks.trans h.rootBlocks, ?_, ?_, ?_, ?_⟩
  · rw [ha.next, h.next, ← hblks]
    rfl
  · rw [ha.inodes, h.inodes, set_map_range]
    congr 1
    funext i
    by_cases him : i = m + 1
    · subst him
      rw [update_self, if_pos (by omega), wordsOf, hsize, hblks, h.next]
    · rw [update_of_ne him]
      congr 2
      apply propext
      omega
  · rw [ha.dentries, h.dentries, List.range_succ, List.map_append, List.map_singleton, hf]
    rfl
  · intro i hi
    by_cases him : i = m
    · subst him
      refine ⟨by rw [hblks]; exact ha.max, ?_⟩
      have := ha.file
      rw [h.next, ← hblks, ← hsize] at this
      exact this
    · obtain ⟨hmax, hfile⟩ := h.file i (by omega)
      exact ⟨hmax, hfile.congr fun j hj => hold i j (by omega) hj⟩
  · intro i f' hf' hi l hl
    by_cases him : i = m
    · subst him
      rw [hf, Option.some.injEq] at hf'
      subst hf'
      rw [hblks] at hl
      rw [← h.next, ha.data l hl]
    · rw [hold i l (by omega) (Nat.lt_of_lt_of_le hl (le_span _)), h.data i f' hf' (by omega) l hl]

/-- The loop of `main` over the files. -/
theorem Built.addFiles (ok : LayoutOk L) : ∀ {rest pre : List (Name × List UInt8)}
    {img img' : Image}, files = pre ++ rest → Built L files pre.length img →
    addFiles L rest (pre.length + 1) img = .ok img' → Built L files files.length img'
  | [], pre, img, img', hfiles, h, hadd => by
      rw [Mkfs.addFiles, pure_eq_ok] at hadd
      subst hadd
      rw [List.append_nil] at hfiles
      rw [hfiles] at h ⊢
      exact h
  | (name, data) :: rest, pre, img, img', hfiles, h, hadd => by
      rw [Mkfs.addFiles, bind_eq_ok] at hadd
      obtain ⟨img1, hfile, hloop⟩ := hadd
      have hf : files[pre.length]? = some (name, data) := by
        rw [hfiles]
        simp
      have h1 := h.addFile ok hf hfile
      have hlen : (pre ++ [(name, data)]).length = pre.length + 1 := by simp
      rw [← hlen] at h1 hloop
      exact Built.addFiles ok (by rw [hfiles]; simp) h1 hloop

/-! ## Directory entries -/

theorem encodeAscii_ok {ascii : List UInt8} (h : encodeAscii name = .ok ascii) :
    ascii = asciiBytes name ∧ ∀ c ∈ name, c.toNat < 128 := by
  rw [encodeAscii] at h
  induction name generalizing ascii with
  | nil =>
    rw [List.mapM_nil, pure_eq_ok] at h
    exact ⟨h.symm, by simp⟩
  | cons c name ih =>
    simp only [List.mapM_cons, bind_eq_ok, pure_eq_ok] at h
    obtain ⟨v, hv, ascii', hrest, rfl⟩ := h
    obtain ⟨rfl, hlt⟩ := ih hrest
    by_cases hc : c.toNat < 128
    · rw [if_pos hc, pure_eq_ok] at hv
      subst hv
      refine ⟨rfl, fun c' hc' => ?_⟩
      rcases List.mem_cons.mp hc' with rfl | hc'
      · exact hc
      · exact hlt c' hc'
    · rw [if_neg hc] at hv
      cases hv

theorem getD_append_zero (l : List UInt8) (k : Nat) : (l ++ [0]).getD k 0 = l.getD k 0 := by
  induction l generalizing k with
  | nil => cases k <;> rfl
  | cons a l ih =>
    cases k with
    | zero => rfl
    | succ k => exact ih k

/-- One directory entry is packed. -/
theorem packDentry_get {buf' : Bytes} {d inode : Nat}
    (hroom : 16 * (d + 1) ≤ buf.size) (hname : name.length ≤ 13)
    (hzero : ∀ k, 16 * d ≤ k → buf.get k = 0) (h : packIntoH buf (d * 16) inode = .ok buf') :
    let nameBytes := Bytes.ofList (asciiBytes name ++ [0])
    let buf'' := buf'.setSlice (d * 16 + 2) (d * 16 + 2 + nameBytes.size) nameBytes
    inode < 2 ^ 16 ∧ buf''.size = buf.size ∧ (∀ k, k < 16 * d → buf''.get k = buf.get k) ∧
      (∀ k, k < 16 → buf''.get (16 * d + k) = Ktfs.dentByte inode (asciiBytes name) k) ∧
      ∀ k, 16 * (d + 1) ≤ k → buf''.get k = 0 := by
  intro nameBytes buf''
  simp only [packIntoH, packH, bind_eq_ok, guard_eq_ok, pure_eq_ok] at h
  obtain ⟨half, hhalf, -, rfl⟩ := h
  by_cases hino : inode < 2 ^ 16
  swap
  · rw [if_neg hino] at hhalf
    cases hhalf
  rw [if_pos hino, pure_eq_ok] at hhalf
  subst hhalf
  have hlen : nameBytes.size = name.length + 1 := by simp [nameBytes, asciiBytes]
  have hsize1 : (Bytes.ofHalf inode).size = 2 := rfl
  have hsize' : (buf.setSlice (d * 16) (d * 16 + 2) (Bytes.ofHalf inode)).size = buf.size :=
    Bytes.size_setSlice rfl (by omega)
  -- the byte at `k` is in the name, in the number, or as it was
  have hget : ∀ k, buf''.get k = if d * 16 + 2 ≤ k ∧ k < d * 16 + 2 + (name.length + 1)
      then nameBytes.get (k - (d * 16 + 2))
      else if d * 16 ≤ k ∧ k < d * 16 + 2 then (Bytes.ofHalf inode).get (k - d * 16)
      else buf.get k := by
    intro k
    rw [Bytes.get_setSlice rfl (by omega), hlen,
      Bytes.get_setSlice (show d * 16 + 2 = d * 16 + (Bytes.ofHalf inode).size from rfl) (by omega),
      hsize1]
  refine ⟨hino, ?_, ?_, ?_, ?_⟩
  · rw [Bytes.size_setSlice rfl (by omega), hsize']
  · intro k hk
    rw [hget, if_neg (by omega), if_neg (by omega)]
  · intro k hk
    rw [hget]
    match k with
    | 0 => rw [if_neg (by omega), if_pos (by omega), show 16 * d + 0 - d * 16 = 0 by omega]; rfl
    | 1 => rw [if_neg (by omega), if_pos (by omega), show 16 * d + 1 - d * 16 = 1 by omega]; rfl
    | k + 2 =>
      by_cases hin : k < name.length + 1
      · rw [if_pos (by omega), show 16 * d + (k + 2) - (d * 16 + 2) = k by omega]
        exact getD_append_zero (asciiBytes name) k
      · rw [if_neg (by omega), if_neg (by omega), hzero _ (by omega)]
        show 0 = (asciiBytes name).getD k 0
        rw [List.getD_eq_getElem?_getD, List.getElem?_eq_none (by simp [asciiBytes]; omega)]
        rfl
  · intro k hk
    rw [hget, if_neg (by omega), if_neg (by omega), hzero _ (by omega)]

/-- The directory entries, packed from entry `i` on. -/
theorem packDentries_ok : ∀ {dentries : List (Nat × Name)} {i : Nat} {buf buf' : Bytes},
    16 * (i + dentries.length) ≤ buf.size → (∀ e ∈ dentries, e.2.length ≤ 13) →
    (∀ k, 16 * i ≤ k → buf.get k = 0) → packDentries dentries i buf = .ok buf' →
    buf'.size = buf.size ∧ (∀ k, k < 16 * i → buf'.get k = buf.get k) ∧
      (∀ d e, dentries[d]? = some e → e.1 < 2 ^ 16 ∧ (∀ c ∈ e.2, c.toNat < 128) ∧
        ∀ k, k < 16 → buf'.get (16 * (i + d) + k) = Ktfs.dentByte e.1 (asciiBytes e.2) k)
  | [], i, buf, buf', _, _, _, h => by
      rw [packDentries, pure_eq_ok] at h
      subst h
      exact ⟨rfl, fun _ _ => rfl, fun d e he => by simp at he⟩
  | (inode, name) :: dentries, i, buf, buf', hroom, hnames, hzero, h => by
      simp only [packDentries, bind_eq_ok] at h
      obtain ⟨ascii, hascii, buf1, hpack, hloop⟩ := h
      obtain ⟨rfl, hlt⟩ := encodeAscii_ok hascii
      rw [List.length_cons] at hroom
      obtain ⟨hino, hsize1, hold1, hentry1, hzero1⟩ := packDentry_get (by omega)
        (hnames _ (List.mem_cons_self ..)) hzero hpack
      obtain ⟨hsize, hold, hentry⟩ := packDentries_ok (by rw [hsize1]; omega)
        (fun e he => hnames e (List.mem_cons_of_mem _ he)) hzero1 hloop
      refine ⟨hsize.trans hsize1, fun k hk => ?_, fun d e he => ?_⟩
      · rw [hold k (by omega), hold1 k hk]
      · cases d with
        | zero =>
          rw [List.getElem?_cons_zero, Option.some.injEq] at he
          subst he
          refine ⟨hino, hlt, fun k hk => ?_⟩
          rw [Nat.add_zero, hold _ (by omega), hentry1 k hk]
        | succ d =>
          rw [List.getElem?_cons_succ] at he
          obtain ⟨h1, h2, h3⟩ := hentry d e he
          refine ⟨h1, h2, fun k hk => ?_⟩
          rw [show i + (d + 1) = i + 1 + d by omega, h3 k hk]

/-! ## Finalization -/

/-- The blocks of the root are written, from block `i` of the root on. -/
theorem rootLoop_ok (ok : LayoutOk L) : ∀ {n i : Nat} {img img' : Image}
    {direct direct' : Nat → Nat}, Inv L img → L.firstDataBlock + i + n ≤ img.nextBlock →
    rootLoop L buf (List.range' (L.firstDataBlock + i) n) i img direct = .ok (img', direct') →
    Inv L img' ∧ img'.nextBlock = img.nextBlock ∧ img'.inodes = img.inodes ∧
      (∀ b, (b < L.firstDataBlock + i ∨ L.firstDataBlock + i + n ≤ b) →
        store img' b = store img b) ∧
      (∀ j, j < n → store img' (L.firstDataBlock + i + j) =
        (store img (L.firstDataBlock + i + j)).splice 0
          (buf.slice ((i + j) * 512) ((i + j + 1) * 512)).size
          (buf.slice ((i + j) * 512) ((i + j + 1) * 512)).get) ∧
      direct' = fun l => if i ≤ l ∧ l < i + n then l else direct l
  | 0, i, img, img', direct, direct', inv, _, h => by
      rw [List.range'_zero, rootLoop, pure_eq_ok, Prod.mk.injEq] at h
      obtain ⟨rfl, rfl⟩ := h
      refine ⟨inv, rfl, rfl, fun _ _ => rfl, fun j hj => absurd hj (by omega), ?_⟩
      funext l
      rw [if_neg (by omega)]
  | n + 1, i, img, img', direct, direct', inv, hn, h => by
      simp only [List.range'_succ, rootLoop, bind_eq_ok, guard_eq_ok] at h
      obtain ⟨img1, hwrite, -, hloop⟩ := h
      obtain ⟨inv1, hstore, hnext, hino, -, -⟩ := inv.write ok hwrite (by omega) (by omega)
      obtain ⟨inv', hnext', hino', hold, hblk, rfl⟩ := rootLoop_ok ok (n := n) (i := i + 1) inv1 (by omega)
        hloop
      refine ⟨inv', by omega, hino'.trans hino, fun b hb => ?_, fun j hj => ?_, ?_⟩
      · rw [hold b (by omega), hstore, update_of_ne (by omega)]
      · cases j with
        | zero =>
          simp only [Nat.add_zero]
          rw [hold _ (by omega), hstore, update_self]
        | succ j =>
          have := hblk j (by omega)
          rw [show L.firstDataBlock + (i + 1) + j = L.firstDataBlock + i + (j + 1) by omega,
            show i + 1 + j = i + (j + 1) by omega] at this
          rw [this, hstore, update_of_ne (by omega)]
      · funext l
        by_cases hl : l = i
        · subst hl
          rw [if_neg (by omega), update_self, if_pos (by omega), dataRel]
          omega
        · rw [update_of_ne hl]
          congr 1
          apply propext
          omega

/-- The geometry the driver finds. -/
def Layout.geom (L : Layout) : Geom where
  blockCount := L.blockCount
  bitmapBlockCount := L.bitmapBlockCount
  inodeBlockCount := L.inodeBlockCount
  rootInodeIdx := 0
  firstInodeBlock := L.firstInodeBlock
  firstDataBlock := L.firstDataBlock

theorem LayoutOk.geomOk (ok : LayoutOk L) (hsmall : L.blockCount < 2 ^ 32) :
    GeomOk L.geom L.blockCount := by
  have hb := ok.bitmap
  have hi := ok.inodes
  have hd := ok.firstData
  have hf := ok.firstInode
  have hroot := ok.root
  refine ⟨hf, ?_, ok.data, Nat.le_refl _, hsmall, ?_, ?_, ?_, rfl⟩
  · show L.firstDataBlock = 1 + L.bitmapBlockCount + L.inodeBlockCount
    omega
  · show L.blockCount ≤ 4096 * L.bitmapBlockCount
    omega
  · show L.bitmapBlockCount ≤ 2 ^ 20
    omega
  · show 0 < L.inodeBlockCount
    omega

/-- An inode block with the words of an inode assigned. -/
theorem splice_inode (c : Blk) (m : Nat) {ws : List UInt32} (hws : ws.length = 8) :
    c.splice (m * 32) (Bytes.ofWords ws).size (Bytes.ofWords ws).get =
      Ktfs.putInode c m (inodeOfWords ws) := by
  rw [show m * 32 = 4 * (8 * m) by omega, Bytes.splice_ofWords, hws, Ktfs.putInode]
  apply Block.ext_u8
  intro j hj
  rw [Block.u8_setWords hj, Block.u8_setWords hj]
  by_cases hin : 8 * m ≤ j / 4 ∧ j / 4 < 8 * m + 8
  · rw [if_pos hin, if_pos hin]
    congr 1
    have hlt : j / 4 - 8 * m < 8 := by omega
    generalize j / 4 - 8 * m = k at hlt
    interval_cases k <;> rfl
  · rw [if_neg hin, if_neg hin]

/-- The inodes are written, from inode `i` on. -/
theorem inodeLoop_ok (ok : LayoutOk L) (hsmall : L.blockCount < 2 ^ 32) :
    ∀ {ws : List (List UInt32)} {i : Nat} {image : Bytes}, (∀ w ∈ ws, w.length = 8) →
      i + ws.length ≤ L.numInodes → image.size = 512 * L.blockCount →
      (inodeLoop L (ws.map Bytes.ofWords) i image).size = image.size ∧
      (∀ b, (b ≤ L.bitmapBlockCount ∨ L.firstDataBlock ≤ b) →
        (inodeLoop L (ws.map Bytes.ofWords) i image).block 512 b = image.block 512 b) ∧
      ∀ j, j < Ktfs.inodeCount L.geom →
        inodeAt L.geom ((inodeLoop L (ws.map Bytes.ofWords) i image).block 512) j =
          if i ≤ j ∧ j < i + ws.length then inodeOfWords (ws.getD (j - i) [])
          else inodeAt L.geom (image.block 512) j
  | [], i, image, _, _, _ => by
      refine ⟨rfl, fun _ _ => rfl, fun j _ => ?_⟩
      rw [List.length_nil, if_neg (by omega)]
      rfl
  | w :: ws, i, image, hws, hlen, hsize => by
      have gok := ok.geomOk hsmall
      have hcount : L.numInodes ≤ Ktfs.inodeCount L.geom := by
        have := ok.inodes
        show L.numInodes ≤ 16 * L.inodeBlockCount
        omega
      rw [List.length_cons] at hlen
      have hw := hws w (List.mem_cons_self ..)
      have hi : i < Ktfs.inodeCount L.geom := by omega
      have hblk := gok.inodeBlk_eq hi
      have hlt := gok.inodeBlk_lt hi
      have hdata := gok.data
      have hsz : (Bytes.ofWords w).size = 32 := by rw [Bytes.ofWords, hw]
      have hfirst : L.firstInodeBlock + i / 16 = Ktfs.inodeBlk L.geom i := by
        rw [hblk, ok.firstInode]
        rfl
      have hdata' : Ktfs.inodeBlk L.geom i < L.blockCount := Nat.lt_trans hlt.2 hdata
      -- one inode is written
      generalize hpos : (L.firstInodeBlock + i / 16) * 512 + i % 16 * 32 = pos
      have hpos' : pos = 512 * Ktfs.inodeBlk L.geom i + i % 16 * 32 := by omega
      have hend : pos + 32 = pos + (Bytes.ofWords w).size := by rw [hsz]
      have hroom : 512 * (Ktfs.inodeBlk L.geom i + 1) ≤ image.size := by omega
      have hstep : (image.setSlice pos (pos + 32) (.ofWords w)).block 512 =
          Ktfs.setInode L.geom (image.block 512) i (inodeOfWords w) := by
        rw [Bytes.block_setSlice hpos' hend (by omega) hroom, splice_inode _ _ hw]
        rfl
      have hsize' : (image.setSlice pos (pos + 32) (.ofWords w)).size = image.size :=
        Bytes.size_setSlice hend (by omega)
      obtain ⟨h1, h2, h3⟩ := inodeLoop_ok ok hsmall (i := i + 1)
        (fun w' hw' => hws w' (List.mem_cons_of_mem _ hw')) (by omega) (hsize'.trans hsize)
      simp only [List.map_cons, inodeLoop, hpos]
      refine ⟨h1.trans hsize', fun b hb => ?_, fun j hj => ?_⟩
      · rw [h2 b hb, hstep]
        rcases hb with hb | hb
        · exact Ktfs.setInode_bitmap gok hi hb _
        · exact Ktfs.setInode_data gok hi hb _
      · rw [h3 j hj, hstep, Ktfs.inodeAt_setInode gok hi hj, List.length_cons]
        by_cases hji : j = i
        · subst hji
          rw [if_neg (by omega), update_self, if_pos (by omega), Nat.sub_self]
          rfl
        · rw [update_of_ne hji]
          by_cases hin : i + 1 ≤ j ∧ j < i + 1 + ws.length
          · rw [if_pos hin, if_pos (by omega), show j - i = j - (i + 1) + 1 by omega,
              List.getD_cons_succ]
          · rw [if_neg hin, if_neg (by omega)]

/-- The superblock tells the geometry. -/
theorem superblock_ok (ok : LayoutOk L) {sb : Bytes} (h : superblock L = .ok sb) :
    L.blockCount < 2 ^ 32 ∧ ∀ c : Blk, Ktfs.geomOf (c.splice 0 sb.size sb.get) = L.geom := by
  simp only [superblock, bind_eq_ok, pure_eq_ok] at h
  obtain ⟨counts, hcounts, root, hroot, rfl⟩ := h
  obtain ⟨hlt, rfl⟩ := packWords_ok hcounts
  rw [packH, if_pos (by omega), pure_eq_ok] at hroot
  subst hroot
  have hbc : L.blockCount < 2 ^ 32 := hlt _ (by simp)
  have hbbc : L.bitmapBlockCount < 2 ^ 32 := hlt _ (by simp)
  have hibc : L.inodeBlockCount < 2 ^ 32 := hlt _ (by simp)
  refine ⟨hbc, fun c => ?_⟩
  generalize hws : [L.blockCount, L.bitmapBlockCount, L.inodeBlockCount].map UInt32.ofNat = ws
  have hlen : ws.length = 3 := by rw [← hws]; rfl
  have hwsz : (Bytes.ofWords ws).size = 12 := by rw [Bytes.ofWords, hlen]
  have hbyte : ∀ j, j < 14 → (c.splice 0 ((Bytes.ofWords ws).append (.ofHalf 0)).size
      ((Bytes.ofWords ws).append (.ofHalf 0)).get).u8 j =
        if j < 12 then (Bytes.ofWords ws).get j else 0 := by
    intro j hj
    have hsz : ((Bytes.ofWords ws).append (.ofHalf 0)).size = 14 := by
      rw [Bytes.append, hwsz]
      rfl
    rw [Block.u8_splice (by omega), if_pos (by omega), Nat.sub_zero, Bytes.append]
    simp only [hwsz]
    by_cases hj' : j < 12
    · rw [if_pos hj', if_pos hj']
    · rw [if_neg hj', if_neg hj']
      simp [Bytes.ofHalf]
  generalize c.splice 0 (Bytes.append _ _).size _ = blk at hbyte ⊢
  have hword : ∀ k, k < 3 → blk.word k = ws.getD k 0 := by
    intro k hk
    have hsame : blk.word k = (c.splice (4 * 0) (Bytes.ofWords ws).size (Bytes.ofWords ws).get).word k := by
      apply Block.word_congr
      intro j hj
      rw [hbyte j (by omega), if_pos (by omega), Block.u8_splice (by omega), if_pos (by omega)]
      rfl
    rw [hsame, Bytes.splice_ofWords, Block.word_setWords (by omega) (by omega) (by omega),
      Nat.sub_zero]
  have hhalf : blk.half 12 = 0 := by
    rw [Block.half, hbyte 12 (by omega), hbyte 13 (by omega), if_neg (by omega), if_neg (by omega)]
    rfl
  have hfi := ok.firstInode
  have hfd := ok.firstData
  have hd := ok.data
  have hval : ∀ n, n < 2 ^ 32 → (UInt32.ofNat n).toNat = n := fun n hn => by
    rw [UInt32.toNat_ofNat', Nat.mod_eq_of_lt hn]
  have hd0 : ws.getD 0 0 = UInt32.ofNat L.blockCount := by rw [← hws]; rfl
  have hd1 : ws.getD 1 0 = UInt32.ofNat L.bitmapBlockCount := by rw [← hws]; rfl
  have hd2 : ws.getD 2 0 = UInt32.ofNat L.inodeBlockCount := by rw [← hws]; rfl
  simp only [Ktfs.geomOf, Layout.geom, hword 0 (by omega), hword 1 (by omega), hword 2 (by omega),
    hhalf, hd0, hd1, hd2, hval _ hbc, hval _ hbbc, hval _ hibc, Geom.mk.injEq, true_and]
  omega

theorem zeros_eq_ofWords : Bytes.zeros 32 = Bytes.ofWords (List.replicate 8 0) := by
  have hget : ∀ k, (List.replicate 8 (0 : UInt32)).getD k 0 = 0 := by
    intro k
    rw [List.getD_eq_getElem?_getD, List.getElem?_replicate]
    split <;> rfl
  simp only [Bytes.zeros, Bytes.ofWords, hget, Bytes.mk.injEq, List.length_replicate]
  refine ⟨trivial, ?_⟩
  funext k
  simp [Block.leByte]

theorem inodeOfWords_zero : inodeOfWords (List.replicate 8 0) = Inode.zero := by
  apply Inode.ext
  · rfl
  · rfl
  · funext k
    fin_cases k <;> rfl
  · rfl
  · funext k
    fin_cases k <;> rfl

/-- An inode without a file is zero. -/
theorem inodeFor_of_le (hi : files.length ≤ i) : inodeFor L files (i + 1) = .zero := by
  have hsize : fileSize files (i + 1) = 0 := by simp [fileSize, hi]
  rw [inodeFor, blks_of_le hi, hsize]
  exact inodeOfWords_zero

/-- How the inodes of an image lie in its blocks. -/
structure Laid (L : Layout) (files : List (Name × List UInt8)) (s : Nat → Blk) : Prop where
  ok : LayoutOk L
  small : L.blockCount < 2 ^ 32
  geom : Ktfs.geomOf (s 0) = L.geom
  nonempty : files ≠ []
  count : files.length < L.numInodes
  rootBlks : blks files 0 ≤ 3
  max : ∀ i, blks files i ≤ 32899
  fits : base L files (files.length + 1) ≤ L.blockCount
  /-- The blocks up to the last one of the last file are marked used, and no others. -/
  bits : ∀ b, b < 4096 * L.bitmapBlockCount →
    used s b = decide (b < base L files (files.length + 1))
  inode : ∀ i, i < Ktfs.inodeCount L.geom → inodeAt L.geom s i = inodeFor L files i
  file : ∀ i, FileAt (dataRel L (base L files i)) (blks files i) (inodeFor L files i)
    fun j => s (base L files i + j)
  data : ∀ i f, files[i]? = some f → ∀ l, l < blks files (i + 1) →
    s (base L files (i + 1) + l) =
      blockOf ((Bytes.ofList f.2).slice (l * 512) ((l + 1) * 512))
  dentry : ∀ d f, files[d]? = some f → (∀ c ∈ f.1, c.toNat < 128) ∧ f.1.length ≤ 13 ∧
    Ktfs.dentryOf (s (L.firstDataBlock + d * 16 / 512)) (d * 16 % 512) =
      Ktfs.mkDentry (d + 1) (asciiBytes f.1)

/-- A file without pages lies in place. -/
theorem fileAt_direct {size r n : Nat} {page : Nat → Blk} (hn : n ≤ 3) :
    FileAt r n (fileInode size r n) page := by
  refine fileAt_of_words (by omega) (fun h => absurd h (by omega)) ?_ ?_
  · intro o _ h
    omega
  · intro o _ j hj
    have := (lt_inners.mp hj).2
    omega

/-- The entry that was packed is read from its block. -/
theorem dentryOf_slice {c : Blk} {d inode n : Nat} {name : List UInt8}
    (hsize : buf.size = n * 512) (hd : d * 16 / 512 < n) (hi : inode < 2 ^ 16)
    (hbuf : ∀ k, k < 16 → buf.get (16 * d + k) = Ktfs.dentByte inode name k) :
    Ktfs.dentryOf (c.splice 0 (buf.slice (d * 16 / 512 * 512) ((d * 16 / 512 + 1) * 512)).size
      (buf.slice (d * 16 / 512 * 512) ((d * 16 / 512 + 1) * 512)).get) (d * 16 % 512) =
      Ktfs.mkDentry inode name := by
  rw [← Ktfs.dentryOf_putDentry_same (b := c) (by omega : d * 16 % 512 + 16 ≤ 512) hi]
  apply Ktfs.dentryOf_congr
  intro j hj hj'
  have hsz : (buf.slice (d * 16 / 512 * 512) ((d * 16 / 512 + 1) * 512)).size = 512 := by
    simp only [Bytes.slice]
    omega
  rw [Block.u8_splice (by omega), if_pos (by omega), Ktfs.putDentry, Block.u8_splice (by omega),
    if_pos (by omega), ← hbuf _ (by omega)]
  simp only [Bytes.slice]
  congr 1
  omega

/-- The words `Image.finalize` packs for the root. -/
theorem rootWords_eq (hroot : blks files 0 ≤ 3) :
    [files.length * 16, 0, if 0 ≤ 0 ∧ 0 < blks files 0 then 0 else 0,
      if 0 ≤ 1 ∧ 1 < blks files 0 then 1 else 0, if 0 ≤ 2 ∧ 2 < blks files 0 then 2 else 0,
      0, 0, 0] = fileWords (fileSize files 0) (dataRel L (base L files 0)) (blks files 0) := by
  have hrel : dataRel L (base L files 0) = 0 := Nat.sub_self _
  rw [hrel, fileWords, if_neg (show ¬ 3 < blks files 0 by omega),
    if_neg (show ¬ 131 < blks files 0 by omega), if_neg (show ¬ 16515 < blks files 0 by omega),
    fileSize]
  simp only [Nat.zero_le, true_and, Nat.zero_add]

/-- The words of all inodes, when the root is there. -/
def allWords (L : Layout) (files : List (Name × List UInt8)) : List (List UInt32) :=
  (List.range L.numInodes).map fun i =>
    if i ≤ files.length then wordsOf L files i else List.replicate 8 0

theorem Built.set_root (hb : Built L files files.length img) :
    img.inodes.set 0 (.ofWords (wordsOf L files 0)) = (allWords L files).map Bytes.ofWords := by
  rw [hb.inodes, set_map_range, allWords, List.map_map]
  congr 1
  funext i
  cases i with
  | zero => rw [update_self, Function.comp_apply, if_pos (Nat.zero_le _)]
  | succ i =>
    rw [update_of_ne (by omega), Function.comp_apply]
    congr 2
    apply propext
    omega

theorem inodeOfWords_allWords (hi : i < L.numInodes) :
    inodeOfWords ((allWords L files).getD i []) = inodeFor L files i := by
  rw [allWords, List.getD_eq_getElem?_getD, List.getElem?_map, List.getElem?_range hi,
    Option.map_some, Option.getD_some]
  by_cases hle : i ≤ files.length
  · rw [if_pos hle]
    rfl
  · obtain ⟨i, rfl⟩ : ∃ j, i = j + 1 := ⟨i - 1, by omega⟩
    rw [if_neg hle, inodeOfWords_zero, inodeFor_of_le (by omega)]

/-- The directory entries, packed into blocks. -/
theorem Built.packDentries (hb : Built L files files.length img)
    (hnames : ∀ f ∈ files, f.1.length ≤ 13)
    (h : packDentries img.dentries 0 (.zeros (img.rootBlocks.length * 512)) = .ok buf) :
    buf.size = blks files 0 * 512 ∧ ∀ d f, files[d]? = some f → d + 1 < 2 ^ 16 ∧
      (∀ c ∈ f.1, c.toNat < 128) ∧
      ∀ k, k < 16 → buf.get (16 * d + k) = Ktfs.dentByte (d + 1) (asciiBytes f.1) k := by
  have hblks : blks files 0 = (files.length * 16 + 511) / 512 := rfl
  have hlen : img.rootBlocks.length = blks files 0 := by rw [hb.rootBlocks, List.length_range']
  have hnd : img.dentries.length = files.length := by
    rw [hb.dentries, List.length_map, List.length_range]
  have hshort : ∀ e ∈ img.dentries, e.2.length ≤ 13 := by
    intro e he
    rw [hb.dentries] at he
    obtain ⟨d, hd, rfl⟩ := List.mem_map.mp he
    rw [List.mem_range] at hd
    simp only [List.getElem?_eq_getElem hd, Option.elim_some]
    exact hnames _ (List.getElem_mem hd)
  have hroom : 16 * (0 + img.dentries.length) ≤ (Bytes.zeros (img.rootBlocks.length * 512)).size := by
    rw [hnd, Bytes.size_zeros, hlen]
    omega
  obtain ⟨hbuf, -, hentry⟩ := packDentries_ok hroom hshort (fun k _ => rfl) h
  refine ⟨by rw [hbuf, Bytes.size_zeros, hlen], fun d f hf => ?_⟩
  have hd := (List.getElem?_eq_some_iff.mp hf).1
  have he : img.dentries[d]? = some (d + 1, f.1) := by
    rw [hb.dentries, List.getElem?_map, List.getElem?_range hd, Option.map_some, hf]
    rfl
  have := hentry d _ he
  simpa only [Nat.zero_add] using this

/-- `Image.finalize` completes the image. -/
theorem finalize_ok (ok : LayoutOk L) (hne : files ≠ []) (hcount : files.length < L.numInodes)
    (hroot : blks files 0 ≤ 3) (hnames : ∀ f ∈ files, f.1.length ≤ 13)
    (hb : Built L files files.length img) (h : finalize L img = .ok img') :
    img'.image.size = 512 * L.blockCount ∧ Laid L files (store img') := by
  simp only [finalize, bind_eq_ok, guard_eq_ok] at h
  obtain ⟨-, -, buf, hdents, ⟨img1, direct⟩, hrootLoop, rootIno, hpack, sb, hsb, hwrite⟩ := h
  obtain ⟨hbuf, hentry⟩ := hb.packDentries hnames hdents
  have hbase : L.firstDataBlock + blks files 0 ≤ base L files 1 :=
    Nat.add_le_add_left (le_span _) _
  have hnext : L.firstDataBlock + 0 + blks files 0 ≤ img.nextBlock := by
    rw [hb.next, Nat.add_zero]
    exact hbase.trans (base_mono L files (by omega))
  rw [hb.rootBlocks, ← Nat.add_zero L.firstDataBlock] at hrootLoop
  obtain ⟨inv1, hnext1, hino1, hold1, hroot1, rfl⟩ := rootLoop_ok ok hb.inv hnext hrootLoop
  simp only [Nat.add_zero, Nat.zero_add] at hold1 hroot1 hpack
  obtain ⟨-, rfl⟩ := packWords_ok hpack
  obtain ⟨hsmall, hgeom⟩ := superblock_ok ok hsb
  have hnd : img.dentries.length = files.length := by
    rw [hb.dentries, List.length_map, List.length_range]
  simp only [hnd, rootWords_eq (L := L) hroot] at hwrite
  rw [hino1, ← wordsOf, hb.set_root] at hwrite
  -- the inodes, and the superblock in front of them
  have hlen : (allWords L files).length = L.numInodes := by
    rw [allWords, List.length_map, List.length_range]
  have h8 : ∀ w ∈ allWords L files, w.length = 8 := by
    intro w hw
    obtain ⟨i, -, rfl⟩ := List.mem_map.mp hw
    split <;> rfl
  obtain ⟨hsz2, hkeep2, hat2⟩ := inodeLoop_ok ok hsmall (i := 0) h8 (by omega) inv1.size
  generalize inodeLoop L _ 0 img1.image = image2 at hwrite hsz2 hkeep2 hat2
  have hdata := ok.data
  have hlt := ok.lt_data
  obtain ⟨image, rfl, hsz, hblk⟩ := writeBlock_ok hwrite (by
    rw [hsz2, inv1.size]
    omega)
  have hstore : ∀ b, b ≠ 0 → image.block 512 b = image2.block 512 b := by
    intro b hb0
    rw [hblk, update_of_ne hb0]
    rfl
  have hdatablk : ∀ b, L.firstDataBlock + blks files 0 ≤ b → image.block 512 b = store img b := by
    intro b hb'
    rw [hstore b (by omega), hkeep2 b (.inr (by omega))]
    exact hold1 b (.inr hb')
  have hmax : ∀ i, blks files i ≤ 32899 := by
    intro i
    match i with
    | 0 => omega
    | i + 1 =>
      by_cases hi : i < files.length
      · exact (hb.file i hi).1
      · rw [blks_of_le (by omega)]
        omega
  have hbase' : ∀ i, L.firstDataBlock + blks files 0 ≤ base L files (i + 1) :=
    fun i => hbase.trans (base_mono L files (by omega))
  refine ⟨by rw [hsz, ← inv1.size, ← hsz2], ok, hsmall, ?_, hne, hcount, hroot, hmax, ?_, ?_, ?_, ?_, ?_, ?_⟩
  · show Ktfs.geomOf (image.block 512 0) = _
    rw [hblk, update_self]
    exact hgeom _
  · rw [← hb.next]
    exact hb.inv.hi
  · intro b hb'
    show used (image.block 512) b = _
    rw [used, hstore _ (by omega), hkeep2 _ (.inl (by omega)), ← hb.next, ← hnext1]
    exact inv1.bits b hb'
  · intro i hi
    show inodeAt L.geom (image.block 512) i = _
    have hne : Ktfs.inodeBlk L.geom i ≠ 0 := by
      have := ((ok.geomOk hsmall).inodeBlk_lt hi).1
      omega
    rw [inodeAt, hstore _ hne, ← inodeAt, hat2 i hi, hlen, Nat.zero_add, Nat.sub_zero]
    by_cases hi' : i < L.numInodes
    · rw [if_pos ⟨Nat.zero_le _, hi'⟩, inodeOfWords_allWords hi']
    · obtain ⟨i, rfl⟩ : ∃ j, i = j + 1 := ⟨i - 1, by have := ok.root; omega⟩
      have hblk1 := (ok.geomOk hsmall).inodeBlk_lt hi
      rw [if_neg fun hc => hi' hc.2, inodeFor_of_le (by omega), inodeAt,
        show img1.image.block 512 _ = _ from inv1.inodeArea _ hblk1.1 hblk1.2, Ktfs.inodeOf_zero]
  · intro i
    match i with
    | 0 => exact fileAt_direct hroot
    | i + 1 =>
      by_cases hi : i < files.length
      · refine (hb.file i hi).2.congr fun j _ => hdatablk _ ?_
        have := hbase' i
        omega
      · rw [inodeFor, blks_of_le (by omega)]
        exact fileAt_direct (by omega)
  · intro i f hf l hl
    have hi := (List.getElem?_eq_some_iff.mp hf).1
    show image.block 512 _ = _
    rw [hdatablk _ (by have := hbase' i; omega), hb.data i f hf hi l hl]
  · intro d f hf
    have hd := (List.getElem?_eq_some_iff.mp hf).1
    have hblks : blks files 0 = (files.length * 16 + 511) / 512 := rfl
    have hlt' : d * 16 / 512 < blks files 0 := by omega
    obtain ⟨hino, hascii, hbytes⟩ := hentry d f hf
    refine ⟨hascii, hnames f (List.mem_of_getElem? hf), ?_⟩
    show Ktfs.dentryOf (image.block 512 _) _ = _
    rw [hstore _ (by omega), hkeep2 _ (.inr (by omega)),
      show img1.image.block 512 _ = _ from hroot1 _ hlt']
    exact dentryOf_slice hbuf hlt' hino hbytes

/-- The image `main` builds. -/
theorem main_ok {size numInodes : Int} {image : Bytes} (h : main size numInodes files = .ok image) :
    ∃ L, size = 512 * L.blockCount ∧ numInodes = L.numInodes ∧
      image.size = 512 * L.blockCount ∧ Laid L files (image.block 512) := by
  simp only [main, bind_eq_ok, guard_eq_ok, pure_eq_ok] at h
  obtain ⟨hne, hcount, L, hL, img0, hinit, img1, hreserve, img2, hfiles, img3, hfinal, rfl⟩ := h
  obtain ⟨ok, hsize, hnum⟩ := layoutOf_ok hL
  obtain ⟨inv0, hnext0, hino0, hdents0, hroot0⟩ := initImage_ok ok hinit
  simp only [reserveRoot, guard_eq_ok] at hreserve
  obtain ⟨hshort, hroot, hloop⟩ := hreserve
  rw [List.length_map] at hroot hloop
  obtain ⟨inv1, hnext1, hroot1, hino1, hdents1⟩ := reserveLoop_ok ok inv0 hloop
  have hblks : blks files 0 = (files.length * 16 + 511) / 512 := rfl
  have hspan : span (blks files 0) = blks files 0 := by
    rw [span, dinds, dinds]
    simp only [show ¬ 3 < blks files 0 by omega, show ¬ 131 + 16384 * 0 < blks files 0 by omega,
      show ¬ 131 + 16384 * 1 < blks files 0 by omega, if_false, Nat.add_zero]
  have hb : Built L files ([] : List (Name × List UInt8)).length img1 := by
    refine ⟨inv1, ?_, ?_, ?_, ?_, fun i hi => absurd hi (by simp), fun i f _ hi => absurd hi (by simp)⟩
    · rw [hnext1, hnext0, List.length_nil, base, base, hspan, hblks]
    · rw [hroot1, hroot0, hnext0, List.nil_append, hblks]
    · rw [hino1, hino0, zeros_eq_ofWords]
      apply List.ext_getElem
      · simp
      · intro i h1 h2
        rw [List.getElem_replicate, List.getElem_map, List.getElem_range, List.length_nil,
          if_neg (by omega)]
    · rw [hdents1, hdents0]
      rfl
  have hb' := Built.addFiles ok (List.nil_append files).symm hb hfiles
  refine ⟨L, hsize, hnum, finalize_ok ok ?_ ?_ ?_ ?_ hb' hfinal⟩
  · simpa using hne
  · omega
  · omega
  · intro f hf
    by_contra hlong
    refine hshort (List.any_eq_true.mpr ⟨f.1, List.mem_map_of_mem hf, ?_⟩)
    simpa using hlong

end MiniOs.Mkfs
