import MiniOs.Ktfs.ReadWrite

/-!
# The directory

The directory is a list of entries, which the root file stores one after another.
`find_dentry` is a search of this list for a name.  Names are compared as C strings, so
an entry whose bytes are a name of at most 13 characters and zeros matches that name
and no other.
-/

namespace MiniOs.Ktfs

open Fallible (exec exec_bind_ok)

variable {g : Geom} {N off' : Nat} {D : Scope} {T T' : Nat → Inode} {s s' : Nat → Blk}
  {name : List UInt8} {b : Blk} {off : Nat} {change : K [] Unit} {e : Nat × List UInt8}

/-! ## Names -/

/-- The characters of a C string. -/
def NulFree (name : List UInt8) : Prop := 0 ∉ name

theorem nameLoop_succ (a b : Nat → UInt8) :
    ∀ n i, nameLoop a b n (i + 1) = nameLoop (fun j => a (j + 1)) (fun j => b (j + 1)) n i
  | 0, _ => rfl
  | n + 1, i => by rw [nameLoop, nameLoop, nameLoop_succ a b n (i + 1)]

/-- The comparison of two strings, the first of which ends inside the field. -/
theorem nameLoop_cstr {x y : List UInt8} (hx : NulFree x) (hy : NulFree y) :
    ∀ {n : Nat}, x.length < n → (nameLoop (cstr x) (cstr y) n 0 = true ↔ y = x) := by
  induction x generalizing y with
  | nil =>
    intro n hn
    obtain ⟨n, rfl⟩ : ∃ m, n = m + 1 := ⟨n - 1, by omega⟩
    cases y with
    | nil => simp [nameLoop, cstr]
    | cons c y =>
      have hc : c ≠ 0 := fun h => hy (by simp [h])
      simp [nameLoop, cstr, hc.symm]
  | cons a x ih =>
    intro n hn
    obtain ⟨n, rfl⟩ : ∃ m, n = m + 1 := ⟨n - 1, by omega⟩
    have ha : a ≠ 0 := fun h => hx (by simp [h])
    cases y with
    | nil => simp [nameLoop, cstr, ha]
    | cons c y =>
      by_cases hac : a = c
      · subst hac
        have hstep : nameLoop (cstr (a :: x)) (cstr (a :: y)) (n + 1) 0 =
            nameLoop (cstr x) (cstr y) n 0 := by
          rw [nameLoop, nameLoop_succ]
          simp only [cstr, List.getD_cons_zero, ne_eq, not_true, if_false, if_neg ha,
            List.getD_cons_succ]
          rfl
        rw [hstep, ih (fun h => hx (List.mem_cons_of_mem _ h))
          (fun h => hy (List.mem_cons_of_mem _ h)) (by simpa using hn)]
        simp
      · have hca : ¬ c = a := fun h => hac h.symm
        simp [nameLoop, cstr, hac, hca]

/-- The entry of a file: its number, and its name padded with zeros. -/
def mkDentry (inode : Nat) (name : List UInt8) : Dentry := ⟨inode, fun j => cstr name j⟩

theorem nameLoop_congr {a a' : Nat → UInt8} (b : Nat → UInt8) :
    ∀ n i, (∀ j, j < i + n → a j = a' j) → nameLoop a b n i = nameLoop a' b n i
  | 0, _, _ => rfl
  | n + 1, i, h => by
      rw [nameLoop, nameLoop, h i (by omega), nameLoop_congr b n (i + 1) fun j hj => h j (by omega)]

/-- An entry matches its name and no other. -/
theorem nameMatches_mkDentry (inode : Nat) {name' : List UInt8} (h : NulFree name)
    (h' : NulFree name') (hlen : name.length ≤ 13) :
    nameMatches name' (mkDentry inode name) = true ↔ name' = name := by
  have hchar : ∀ j, j < 0 + 14 → (mkDentry inode name).char j = cstr name j := by
    intro j hj
    rw [Dentry.char, dif_pos (by omega)]
    rfl
  rw [nameMatches, nameLoop_congr _ 14 0 hchar]
  exact nameLoop_cstr h h' (by omega)

/-- The entry that was stored at a place is read there. -/
theorem dentryOf_putDentry_same {inode : Nat} (hoff : off + 16 ≤ 512) (hi : inode < 2 ^ 16) :
    dentryOf (putDentry b off inode name) off = mkDentry inode name := by
  have hbyte : ∀ j, j < 16 → (putDentry b off inode name).u8 (off + j) = dentByte inode name j := by
    intro j hj
    rw [putDentry, Block.u8_splice (by omega), if_pos (by omega)]
    congr 1
    omega
  rw [dentryOf, mkDentry, Dentry.mk.injEq]
  constructor
  · have h0 := hbyte 0 (by omega)
    rw [Nat.add_zero] at h0
    rw [Block.half, h0, hbyte 1 (by omega)]
    simp only [dentByte, UInt8.toNat_ofNat']
    omega
  · funext j
    rw [Nat.add_assoc, hbyte (2 + j) (by omega), Nat.add_comm 2]
    rfl

/-- Bytes outside an entry do not matter to it. -/
theorem dentryOf_congr {b' : Blk}
    (h : ∀ j, off ≤ j → j < off + 16 → b'.u8 j = b.u8 j) : dentryOf b' off = dentryOf b off := by
  rw [dentryOf, dentryOf, Dentry.mk.injEq]
  constructor
  · rw [Block.half, Block.half, h off (by omega) (by omega), h (off + 1) (by omega) (by omega)]
  · funext j
    rw [h (off + 2 + j) (by omega) (by omega)]

theorem dentryOf_splice_ne {f : Nat → UInt8}
    (h : off' + 16 ≤ off ∨ off + 16 ≤ off') (hoff : off' + 16 ≤ 512) :
    dentryOf (b.splice off 16 f) off' = dentryOf b off' := by
  apply dentryOf_congr
  intro j hj hj'
  rw [Block.u8_splice (by omega), if_neg (by omega)]

/-- An entry copied from another place. -/
theorem dentryOf_splice_copy {c : Blk} (hoff : off + 16 ≤ 512) :
    dentryOf (b.splice off 16 fun j => c.u8 (off' + j)) off = dentryOf c off' := by
  have hbyte : ∀ j, j < 16 →
      (b.splice off 16 fun j => c.u8 (off' + j)).u8 (off + j) = c.u8 (off' + j) := by
    intro j hj
    rw [Block.u8_splice (by omega), if_pos (by omega)]
    congr 2
    omega
  rw [dentryOf, dentryOf, Dentry.mk.injEq]
  constructor
  · have h0 := hbyte 0 (by omega)
    rw [Nat.add_zero, Nat.add_zero] at h0
    rw [Block.half, Block.half, h0, hbyte 1 (by omega)]
  · funext j
    rw [Nat.add_assoc, hbyte (2 + j) (by omega), Nat.add_assoc]

/-! ## The entries -/

/-- The inode of the root directory. -/
def rootOf (g : Geom) (s : Nat → Blk) : Inode := inodeAt g s g.rootInodeIdx

/-- Entry `d` of the directory. -/
def dentryAt (g : Geom) (s : Nat → Blk) (d : Nat) : Dentry :=
  dentryOf (s (dataBlkToPos g (rawPtr g s (rootOf g s) (.data (d * 16 / 512))))) (d * 16 % 512)

/-- The directory. -/
def directory (g : Geom) (s : Nat → Blk) : List Dentry :=
  (List.range ((rootOf g s).size.toNat / 16)).map (dentryAt g s)

@[simp] theorem length_directory : (directory g s).length = (rootOf g s).size.toNat / 16 := by
  simp [directory]

/-- The outcome of `find_dentry`. -/
def lookup (name : List UInt8) (dir : List Dentry) : Except Int Nat :=
  match dir.find? (nameMatches name) with
  | some e => .ok e.inode
  | none => .error (-ENOENT)

/-- The loop of `find_dentry` searches the entries from `d` on. -/
theorem exec_findDentryLoop (h : Readable N g s (rootOf g s)) (name : List UInt8) :
    ∀ n d, d + n ≤ (rootOf g s).size.toNat / 16 →
      exec (inRange N) (findDentryLoop g (rootOf g s) name n d) s =
        (lookup name ((List.range' d n).map (dentryAt g s)), s)
  | 0, _, _ => rfl
  | n + 1, d, hn => by
      have hsize := (rootOf g s).size.toNat_lt
      have hmax := h.max
      have hl : d * 16 / 512 < (rootOf g s).nblks := by
        rw [Inode.nblks]
        omega
      have hw : (Place.data (d * 16 / 512)).Within (rootOf g s).nblks := ⟨hl, by omega⟩
      unfold findDentryLoop
      simp only [show d * 16 / 512 % 2 ^ 32 = d * 16 / 512 by omega]
      rw [exec_bind_ok _ _ (Fallible.exec_orFail_ok _ _ (exec_resolveBlock h hl)),
        exec_bind_ok _ _ (Fallible.exec_readBlock _ _ (h.inRange _ hw) _ _),
        List.range'_succ, List.map_cons, lookup, List.find?_cons]
      rw [← dentryAt]
      by_cases hm : nameMatches name (dentryAt g s d) = true
      · rw [if_pos hm, hm]
        rfl
      · rw [if_neg hm, exec_findDentryLoop h name n (d + 1) (by omega), lookup]
        rw [Bool.not_eq_true] at hm
        rw [hm]

/-- `find_dentry` searches the directory. -/
theorem exec_findDentry (ok : GeomOk g N) (h : Readable N g s (rootOf g s)) (name : List UInt8) :
    exec (inRange N) (findDentry g name) s = (lookup name (directory g s), s) := by
  rw [findDentry, exec_bind_ok _ _ (exec_readInode ok ok.root_lt s)]
  rw [← rootOf, exec_findDentryLoop h name _ 0 (by omega), directory, List.range_eq_range']

/-- What a change of the directory that is made returns. -/
theorem run_commit_ok (h : exec (inRange N) change s = (.ok (), s')) :
    Prog.run (inRange N) (commit change) s = ({ rc := 0 }, s') := by
  rw [Fallible.exec] at h
  simp only [commit, Prog.run_bind, h]
  rfl

theorem run_commit_error {e : Int} (h : exec (inRange N) change s = (.error e, s')) :
    Prog.run (inRange N) (commit change) s = ({ rc := e }, s') := by
  rw [Fallible.exec] at h
  simp only [commit, Prog.run_bind, h]
  rfl

/-! ## When the directory stays -/

theorem dentryAt_eq (h : Linked g s (rootOf g s)) {d : Nat}
    (hd : d * 16 / 512 < (rootOf g s).nblks) :
    dentryAt g s d = dentryOf (s (dataBlkToPos g (ptr g s (rootOf g s) (.data (d * 16 / 512)))))
      (d * 16 % 512) := by
  rw [dentryAt, h.rawPtr_eq (h.within_data hd)]

/-- The block of an entry lies below the end of the root. -/
theorem dentry_lt_nblks {d : Nat} (hd : d < (rootOf g s).size.toNat / 16) :
    d * 16 / 512 < (rootOf g s).nblks := by
  rw [Inode.nblks]
  omega

theorem directory_congr (hroot : rootOf g s' = rootOf g s)
    (hd : ∀ d, d < (rootOf g s).size.toNat / 16 → dentryAt g s' d = dentryAt g s d) :
    directory g s' = directory g s := by
  rw [directory, directory, hroot]
  exact List.map_congr_left fun d hm => hd d (List.mem_range.mp hm)

/-- The directory stays when the root is an untouched file. -/
theorem directory_of_frame (h : Owned g D (inodeAt g s) s) (hroot : g.rootInodeIdx ∈ D.inodes)
    {C : Set Nat} (hf : Frame g D C s s') (hC : g.rootInodeIdx ∉ C) :
    directory g s' = directory g s := by
  have hino : rootOf g s' = rootOf g s := hf.inode _ hroot hC
  have hmax := h.max _ hroot
  rw [← rootOf] at hmax
  refine directory_congr hino fun d hd => ?_
  have hlt := dentry_lt_nblks hd
  have hw : (Place.data (d * 16 / 512)).Within (rootOf g s).nblks := ⟨hlt, by omega⟩
  have hx := h.within _ hroot _ hw
  -- the pages of the root are still there
  have hraw : rawPtr g s' (rootOf g s) (.data (d * 16 / 512)) =
      ptr g s' (rootOf g s) (.data (d * 16 / 512)) := by
    refine rawPtr_eq_ptr (fun q hq hqw => ?_) hw
    rw [rootOf, hf.ptr _ q hC (h.within _ hroot q hqw)]
    exact h.page_within hroot hq hqw
  rw [dentryAt_eq (h.linked hroot) hlt, dentryAt, hino, hraw, rootOf, hf.ptr _ _ hC hx, hf.data _ _ hC hx]

/-- The pointers the driver follows to read the directory. -/
def dirPtrs (g : Geom) (s : Nat → Blk) : Set UInt32 :=
  {v | ∃ p : Place, p.Within (rootOf g s).nblks ∧ v = rawPtr g s (rootOf g s) p}

/-- The directory stays when its blocks are kept and the inode of the root stays. -/
theorem directory_of_kept (hmax : (rootOf g s).nblks ≤ 32899) (hroot : rootOf g s' = rootOf g s)
    (hk : ∀ v ∈ dirPtrs g s, s' (dataBlkToPos g v) = s (dataBlkToPos g v)) :
    directory g s' = directory g s ∧
      ∀ p : Place, p.Within (rootOf g s).nblks →
        rawPtr g s' (rootOf g s) p = rawPtr g s (rootOf g s) p := by
  have hraw : ∀ p : Place, p.Within (rootOf g s).nblks →
      rawPtr g s' (rootOf g s) p = rawPtr g s (rootOf g s) p := by
    intro p
    induction p using Place.parentInduction with
    | top p hp =>
      intro _
      rw [rawPtr_top hp, rawPtr_top hp]
    | child p q k hp ih =>
      intro hw
      have hq := hw.parent hp
      rw [rawPtr_child hp, rawPtr_child hp, ih hq, rawEntry, rawEntry, hk _ ⟨q, hq, rfl⟩]
  refine ⟨directory_congr hroot fun d hd => ?_, hraw⟩
  have hlt := dentry_lt_nblks hd
  have hw : (Place.data (d * 16 / 512)).Within (rootOf g s).nblks := ⟨hlt, by omega⟩
  rw [dentryAt, dentryAt, hroot, hraw _ hw, hk _ ⟨_, hw, rfl⟩]

/-! ## The blocks of the files in the directory -/

/-- The root, and the files named in the directory. -/
def Named (g : Geom) (s : Nat → Blk) (i : Nat) : Prop :=
  i = g.rootInodeIdx ∨ ∃ e ∈ directory g s, e.inode = i

/-- A place below the end of a file that is named. -/
def Refers (g : Geom) (s : Nat → Blk) (i : Nat) (p : Place) : Prop :=
  Named g s i ∧ p.Within (inodeAt g s i).nblks

/-- Every block that belongs to a named file is in the data area, is marked used, and is
referenced from one place. -/
structure BlocksOwned (g : Geom) (s : Nat → Blk) : Prop where
  inArea : ∀ i p, Refers g s i p → DataPtr g (rawPtr g s (inodeAt g s i) p)
  marked : ∀ i p, Refers g s i p → used s (dataBlkToPos g (rawPtr g s (inodeAt g s i) p)) = true
  once : ∀ i p j q, Refers g s i p → Refers g s j q →
    rawPtr g s (inodeAt g s i) p = rawPtr g s (inodeAt g s j) q → i = j ∧ p = q

theorem Owned.blocksOwned (h : Owned g D (inodeAt g s) s)
    (hnamed : ∀ i, Named g s i → i ∈ D.inodes) : BlocksOwned g s := by
  have hptr : ∀ i p, Refers g s i p → (i, p) ∈ Live g D (inodeAt g s) s ∧
      rawPtr g s (inodeAt g s i) p = ptr g s (inodeAt g s i) p :=
    fun i p hr => ⟨h.within i (hnamed i hr.1) p hr.2, h.rawPtr_eq (hnamed i hr.1) hr.2⟩
  refine ⟨fun i p hr => ?_, fun i p hr => ?_, fun i p j q hr hr' heq => ?_⟩
  · obtain ⟨hx, hp⟩ := hptr i p hr
    rw [hp]
    exact (h.usedPtr hx).1
  · obtain ⟨hx, hp⟩ := hptr i p hr
    rw [hp]
    exact (h.usedPtr hx).2
  · obtain ⟨hx, hp⟩ := hptr i p hr
    obtain ⟨hy, hq⟩ := hptr j q hr'
    rw [hp, hq] at heq
    exact Prod.mk.inj (h.excl.injOn hx hy heq)

/-! ## Well-formed directories -/

/-- Ownership of the blocks of the root directory alone. -/
def rootScope (g : Geom) : Scope := ⟨{g.rootInodeIdx}, fun _ _ => True, ∅⟩

/-- The names an entry has room for. -/
def ValidName (name : List UInt8) : Prop := NulFree name ∧ name.length ≤ 13

/-- The search for a name among the entries of files. -/
theorem lookup_cons (he : ValidName e.2) {ents : List (Nat × List UInt8)} (hname : NulFree name) :
    lookup name ((e :: ents).map fun e => mkDentry e.1 e.2) =
      if name = e.2 then .ok e.1 else lookup name (ents.map fun e => mkDentry e.1 e.2) := by
  have hmatch := nameMatches_mkDentry e.1 he.1 hname he.2
  rw [List.map_cons, lookup, List.find?_cons]
  by_cases heq : name = e.2
  · rw [if_pos heq, hmatch.mpr heq]
    rfl
  · have hne : nameMatches name (mkDentry e.1 e.2) = false := by
      rw [← Bool.not_eq_true]
      exact fun h => heq (hmatch.mp h)
    rw [if_neg heq, hne, lookup]

theorem lookup_of_mem {ents : List (Nat × List UInt8)} (hvalid : ∀ e ∈ ents, ValidName e.2)
    (hnodup : (ents.map Prod.snd).Nodup) (he : e ∈ ents) :
    lookup e.2 (ents.map fun e => mkDentry e.1 e.2) = .ok e.1 := by
  induction ents with
  | nil => cases he
  | cons a ents ih =>
    have hname := (hvalid e he).1
    rw [lookup_cons (hvalid a (List.mem_cons_self ..)) hname]
    rw [List.map_cons, List.nodup_cons] at hnodup
    rcases List.mem_cons.mp he with rfl | hmem
    · rw [if_pos rfl]
    · have hne : e.2 ≠ a.2 := by
        intro heq
        rw [← heq] at hnodup
        exact hnodup.1 (List.mem_map_of_mem hmem)
      rw [if_neg hne]
      exact ih (fun b hb => hvalid b (List.mem_cons_of_mem _ hb)) hnodup.2 hmem

theorem lookup_of_not_mem {ents : List (Nat × List UInt8)} (hvalid : ∀ e ∈ ents, ValidName e.2)
    (hname : NulFree name) (hn : name ∉ ents.map Prod.snd) :
    lookup name (ents.map fun e => mkDentry e.1 e.2) = .error (-ENOENT) := by
  induction ents with
  | nil => rfl
  | cons a ents ih =>
    rw [List.map_cons, List.mem_cons, not_or] at hn
    rw [lookup_cons (hvalid a (List.mem_cons_self ..)) hname, if_neg hn.1]
    exact ih (fun b hb => hvalid b (List.mem_cons_of_mem _ hb)) hn.2

/-- A well-formed directory with the entries `ents`, each an inode number and a name. -/
structure DirWF (g : Geom) (s : Nat → Blk) (ents : List (Nat × List UInt8)) : Prop where
  owned : Owned g (rootScope g) (inodeAt g s) s
  size : (rootOf g s).size.toNat = 16 * ents.length
  entries : directory g s = ents.map fun e => mkDentry e.1 e.2
  valid : ∀ e ∈ ents, ValidName e.2
  nodup : (ents.map Prod.snd).Nodup

namespace DirWF

variable {ents : List (Nat × List UInt8)}

theorem find (ok : GeomOk g N) (h : DirWF g s ents) (name : List UInt8) :
    exec (inRange N) (findDentry g name) s =
      (lookup name (ents.map fun e => mkDentry e.1 e.2), s) := by
  rw [exec_findDentry ok (h.owned.readable ok rfl), h.entries]

end DirWF

end MiniOs.Ktfs
