import MiniOs.Ktfs.Resolve

/-!
# Reading and writing a file

The bytes of a file are those of the blocks its pointers name.  `ktfs_readat` returns a
slice of them.  The loop of `ktfs_writeat` replaces a range of them and keeps ownership,
whatever it returns, when the write starts at or before the end of the last block and
every entry past the end that it takes over counts.
-/

namespace MiniOs.Ktfs

open Fallible (exec exec_bind_ok)
open Function (update_of_ne update_self update_eq_self update_idem)

variable {g : Geom} {N : Nat} {D : Scope} {T T' : Nat → Inode} {s s' : Nat → Blk}
  {ino ino' : Inode} {i l pos q : Nat} {files : Files} {f : Fd} {b : Nat → UInt8} {name : List UInt8}
  {v : UInt32}

/-- Byte `q` of a file. -/
def byteAt (g : Geom) (s : Nat → Blk) (ino : Inode) (q : Nat) : UInt8 :=
  (s (dataBlkToPos g (ptr g s ino (.data (q / 512))))).u8 (q % 512)

/-- The bytes of a file. -/
def content (g : Geom) (s : Nat → Blk) (ino : Inode) : List UInt8 :=
  (List.range ino.size.toNat).map (byteAt g s ino)

@[simp] theorem length_content (ino : Inode) : (content g s ino).length = ino.size.toNat := by
  simp [content]

/-! ## Reading -/

theorem lt_nblks (h : q < ino.size.toNat) : q / 512 < ino.nblks := by
  rw [Inode.nblks]
  omega

/-- `resolve_block` leads from position `q` to a block of the disk, and to the byte `b` in
it. -/
def Finds (N : Nat) (g : Geom) (s : Nat → Blk) (ino : Inode) (q : Nat) (b : UInt8) : Prop :=
  ∃ v, exec (inRange N) (resolveBlock g ino (q / 512)) s = (.ok v, s) ∧
    inRange N (dataBlkToPos g v) = true ∧ (s (dataBlkToPos g v)).u8 (q % 512) = b

/-- Below the end of a file that is linked the bytes of the file are found. -/
theorem Linked.finds (ok : GeomOk g N) (h : Linked g s ino)
    (hq : q / 512 < ino.nblks) : Finds N g s ino q (byteAt g s ino q) := by
  have hw := h.within_data hq
  have hres := exec_resolveBlock (h.readable ok) hq
  rw [h.rawPtr_eq hw] at hres
  exact ⟨_, hres, ok.inRange_data (h.area _ hw), rfl⟩

/-- The loop of `ktfs_readat` collects the bytes that are found in the range. -/
theorem exec_readLoop {len : Nat} (hend : pos + len ≤ 2 ^ 32)
    (h : ∀ q, pos ≤ q → q < pos + len → Finds N g s ino q (b q)) :
    ∀ fuel copied, len - copied ≤ fuel →
      exec (inRange N) (readLoop g ino pos len fuel copied) s =
        (.ok ((List.range (len - copied)).map fun j => b (pos + copied + j)), s)
  | 0, copied, hfuel => by
      have hz : len - copied = 0 := by omega
      rw [hz]
      rfl
  | fuel + 1, copied, hfuel => by
      unfold readLoop
      by_cases hle : len ≤ copied
      · have hz : len - copied = 0 := by omega
        simp only [if_pos hle, hz]
        rfl
      · have hsmall : (pos + copied) % 2 ^ 64 = pos + copied := by omega
        have hblk : (pos + copied) / 512 % 2 ^ 32 = (pos + copied) / 512 := by omega
        obtain ⟨v, hres, hrange, -⟩ := h (pos + copied) (by omega) (by omega)
        simp only [if_neg hle, hsmall, hblk]
        rw [exec_bind_ok _ _ hres,
          exec_bind_ok _ _ (Fallible.exec_readBlock _ _ hrange _ _)]
        generalize hchunk : min (512 - (pos + copied) % 512) (len - copied) = chunk
        rw [exec_bind_ok _ _ (exec_readLoop hend h fuel (copied + chunk) (by omega))]
        have hsplit : len - copied = chunk + (len - (copied + chunk)) := by omega
        rw [hsplit, List.range_add, List.map_append, List.map_map]
        show (Except.ok (_ ++ _), s) = _
        congr 3
        · apply List.map_congr_left
          intro j hj
          have hj' := List.mem_range.mp hj
          have hdiv : (pos + copied + j) / 512 = (pos + copied) / 512 := by omega
          have hmod : (pos + copied + j) % 512 = (pos + copied) % 512 + j := by omega
          -- the byte lies in the block of the first one
          obtain ⟨w, hres', -, hbyte⟩ := h (pos + copied + j) (by omega) (by omega)
          rw [hdiv, hres] at hres'
          cases hres'
          rw [← hbyte, hmod]
        · apply List.map_congr_left
          intro j _
          rw [Function.comp_apply]
          congr 1
          omega

/-- The bytes `pos` to `pos + len` of `n` bytes. -/
theorem slice_range (b : Nat → UInt8) (n pos len : Nat) :
    (((List.range n).map b).drop pos).take len =
      (List.range (min len (n - pos))).map fun j => b (pos + j) := by
  apply List.ext_getElem
  · simp
  · intro k _ _
    simp

/-- `ktfs_readat` returns a slice of the bytes that are found below the size of the handle,
and its length. -/
theorem run_ktfsReadat_finds (ok : GeomOk g N) (hi : (files f).inodeIdx < inodeCount g)
    (h : ∀ q, q < (files f).size.toNat → Finds N g s (inodeAt g s (files f).inodeIdx) q (b q))
    (pos : Nat) (len : Int) :
    Prog.run (inRange N) (ktfsReadat g files f pos len) s =
      (let data := (((List.range (files f).size.toNat).map b).drop pos).take len.toNat
       { rc := data.length, data := data }, s) := by
  rw [slice_range]
  unfold ktfsReadat
  by_cases hlen : len ≤ 0
  · have hz : len.toNat = 0 := by omega
    simp only [if_pos hlen, hz, Nat.zero_min]
    rfl
  · rw [if_neg hlen]
    by_cases hpos : (files f).size.toNat ≤ pos
    · have hz : (files f).size.toNat - pos = 0 := by omega
      simp only [if_pos hpos, hz, Nat.min_zero]
      rfl
    · rw [if_neg hpos]
      have hlt := (files f).size.toNat_lt
      generalize hn : min len.toNat ((files f).size.toNat - pos) = n
      have hloop := exec_readLoop (by omega) (fun q _ (hq : q < pos + n) => h q (by omega)) n 0 (by omega)
      rw [← exec_bind_ok _ _ (exec_readInode ok hi s)
        (k := fun ino => readLoop g ino pos n n 0)] at hloop
      rw [Fallible.exec] at hloop
      simp only [Prog.run_bind, hn, hloop, Nat.sub_zero, Nat.add_zero]
      simp [List.length_map, List.length_range]

/-- `ktfs_readat` on a handle whose size is that of the inode returns a slice of the
file, and its length. -/
theorem run_ktfsReadat (ok : GeomOk g N)
    (hi : (files f).inodeIdx < inodeCount g) (h : Linked g s (inodeAt g s (files f).inodeIdx))
    (hsize : (files f).size = (inodeAt g s (files f).inodeIdx).size) (pos : Nat) (len : Int) :
    Prog.run (inRange N) (ktfsReadat g files f pos len) s =
      (let data := ((content g s (inodeAt g s (files f).inodeIdx)).drop pos).take len.toNat
       { rc := data.length, data := data }, s) := by
  rw [content, ← hsize]
  exact run_ktfsReadat_finds ok hi
    (fun q hq => h.finds ok (lt_nblks (by rw [← hsize]; exact hq))) pos len

/-! ## Opening -/

/-- `ktfs_open` of a name that is not found. -/
theorem run_ktfsOpen_error {e : Int} (files : Files)
    (hfind : exec (inRange N) (findDentry g name) s = (.error e, s)) :
    Prog.run (inRange N) (ktfsOpen g files name) s = (({ rc := e }, files), s) := by
  rw [Fallible.exec] at hfind
  simp only [ktfsOpen, Prog.run_bind, hfind]
  rfl

/-- `ktfs_open` of a name that is found, with a free slot for the handle. -/
theorem run_ktfsOpen_ok (ok : GeomOk g N)
    (hfind : exec (inRange N) (findDentry g name) s = (.ok i, s)) (hi : i < inodeCount g)
    (hfree : ∃ f, (files f).inUse = false) :
    ∃ f, (files f).inUse = false ∧ Prog.run (inRange N) (ktfsOpen g files name) s =
      (({ rc := 0, fd := some f }, Function.update files f ⟨i, (inodeAt g s i).size, true⟩), s) := by
  have hino := exec_readInode ok hi s
  rw [Fallible.exec] at hfind hino
  cases hslot : (List.finRange ktfsMaxOpen).find? fun f => !(files f).inUse with
  | none =>
    obtain ⟨f, hf⟩ := hfree
    have := List.find?_eq_none.mp hslot f (List.mem_finRange f)
    rw [hf] at this
    exact absurd rfl this
  | some f =>
    refine ⟨f, by simpa using List.find?_some hslot, ?_⟩
    simp only [ktfsOpen, Prog.run_bind, hfind, hslot, hino]
    rfl

/-! ## Writing -/

/-- What the loop of `ktfs_writeat` leaves, from byte `pos + copied` on: ownership for
the inode in memory, and where it returns, every block of the range linked, the bytes
of the range written and the others as they were, and the end past the last direct block
it linked. -/
structure Written (g : Geom) (D : Scope) (T : Nat → Inode) (s : Nat → Blk) (i pos : Nat)
    (buf : Nat → UInt8) (len copied : Nat) (r : Except Int Inode) (s' : Nat → Blk)
    (ino : Inode) : Prop where
  owned : Owned g D (Function.update T i ino) s'
  grows : Grows g D {x | x.1 = i} T s (Function.update T i ino) s'
  ext : (T i).Ext ino
  ret : ∀ ino', r = .ok ino' → ino' = ino
  live : ∀ ino', r = .ok ino' → ∀ l, l * 512 < pos + len →
    (i, .data l) ∈ Live g D (Function.update T i ino) s'
  size : ∀ ino', r = .ok ino' → ino.size.toNat =
    if min 3 ((pos + len + 511) / 512) ≤ (T i).nblks then (T i).size.toNat
    else 512 * min 3 ((pos + len + 511) / 512)
  bytes : ∀ ino', r = .ok ino' → ∀ q,
    (i, .data (q / 512)) ∈ Live g D T s ∨ (pos + copied ≤ q ∧ q < pos + len) →
    byteAt g s' ino q =
      if pos + copied ≤ q ∧ q < pos + len then buf (q - pos) else byteAt g s (T i) q

/-- A block of data a file has lies below the last place there is. -/
theorem live_data_lt (hx : (i, .data l) ∈ Live g D T s) : l < 32899 := by
  by_contra hl
  rcases hx.2.1 with hne | heq
  · exact hne (ptr_data_of_le (by omega))
  · cases heq
    omega

/-- A direct block that is live lies below the end. -/
theorem live_direct_lt (hl : l < 3) (hx : (i, .data l) ∈ Live g D T s) :
    l < (T i).nblks := by
  rcases hx.2.2 with hc | hc | ⟨l', hp, hl', -⟩
  · exact hc.elim
  · exact hc.1
  · cases hp
    omega

/-- A range whose blocks are live does not reach past the direct blocks the inode has. -/
theorem direct_le_nblks {e : Nat} (hlive : ∀ l, l * 512 < e → (i, .data l) ∈ Live g D T s) :
    min 3 ((e + 511) / 512) ≤ (T i).nblks := by
  by_contra hlt
  have hx := live_direct_lt (by omega) (hlive (T i).nblks (by omega))
  omega

/-- A chunk is written to block `v`, which is block `l` of the file and no other. -/
theorem byteAt_update (hv : ptr g s ino (.data l) = v) (off chunk : Nat)
    (f : Nat → UInt8)
    (hptr : ptr g (Function.update s (dataBlkToPos g v)
        ((s (dataBlkToPos g v)).splice off chunk f)) ino (.data (q / 512)) =
      ptr g s ino (.data (q / 512)))
    (hne : q / 512 ≠ l → ptr g s ino (.data (q / 512)) ≠ v) :
    byteAt g (Function.update s (dataBlkToPos g v) ((s (dataBlkToPos g v)).splice off chunk f))
        ino q =
      if q / 512 = l ∧ off ≤ q % 512 ∧ q % 512 < off + chunk then f (q % 512 - off)
      else byteAt g s ino q := by
  rw [byteAt, hptr]
  by_cases hql : q / 512 = l
  · subst hql
    rw [hv, update_self, Block.u8_splice (Nat.mod_lt _ (by decide)), byteAt, hv]
    simp
  · rw [update_of_ne fun heq => hne hql (dataBlkToPos_inj heq),
      if_neg fun hc => hql hc.1, byteAt]

/-- One turn of the loop: a chunk is written to a block that `resolve_or_alloc` returned. -/
theorem byteAt_writeChunk (ok : GeomOk g N) (h : Owned g D T s) (hx : (i, .data l) ∈ Live g D T s)
    (hv : ptr g s (T i) (.data l) = v) (off chunk : Nat) (f : Nat → UInt8)
    (hq : (i, .data (q / 512)) ∈ Live g D T s) :
    byteAt g (Function.update s (dataBlkToPos g v) ((s (dataBlkToPos g v)).splice off chunk f))
        (T i) q =
      if q / 512 = l ∧ off ≤ q % 512 ∧ q % 512 < off + chunk then f (q % 512 - off)
      else byteAt g s (T i) q := by
  obtain ⟨-, hgrow⟩ := h.writeData ok hx hv ((s (dataBlkToPos g v)).splice off chunk f)
  refine byteAt_update hv off chunk f (hgrow.live i _ hq).2 fun hql => ?_
  rw [← hv]
  refine h.excl.ne_of_ne hq hx ?_
  rintro ⟨⟩
  exact hql rfl

/-- The loop of `ktfs_writeat`, by induction on the fuel.  Every block the range has
passed is live, so the block at hand is one the file has or the next one. -/
theorem writeLoop_owned (ok : GeomOk g N) (hi : i ∈ D.inodes) {len : Nat}
    (buf : Nat → UInt8) (hsp : ∀ l, 3 ≤ l → l * 512 < pos + len → D.spare i l) :
    ∀ (fuel copied : Nat) (T : Nat → Inode) (s : Nat → Blk), Owned g D T s → len - copied ≤ fuel →
      (∀ l, l * 512 < pos + copied → (i, .data l) ∈ Live g D T s) →
      ∃ r s' ino, exec (inRange N) (writeLoop g pos buf len fuel copied (T i)) s = (r, s') ∧
        Written g D T s i pos buf len copied r s' ino := by
  -- a range that is done
  have hdone : ∀ (copied : Nat) (T : Nat → Inode) (s : Nat → Blk), Owned g D T s → len ≤ copied →
      (∀ l, l * 512 < pos + copied → (i, .data l) ∈ Live g D T s) →
      Written g D T s i pos buf len copied (.ok (T i)) s (T i) := by
    intro copied T s h hle hfront
    have hlive : ∀ l, l * 512 < pos + len → (i, .data l) ∈ Live g D T s :=
      fun l hl => hfront l (by omega)
    refine ⟨?_, ?_, .refl _, ?_, ?_, ?_, ?_⟩
    · rw [update_eq_self]
      exact h
    · rw [update_eq_self]
      exact .refl _ _
    · rintro ino' ⟨⟩
      rfl
    · intro _ _
      rw [update_eq_self]
      exact hlive
    · intro _ _
      rw [if_pos (direct_le_nblks hlive)]
    · intro _ _ q _
      rw [if_neg (by omega)]
  intro fuel
  induction fuel with
  | zero =>
    intro copied T s h hfuel hfront
    exact ⟨.ok (T i), s, T i, rfl, hdone copied T s h (by omega) hfront⟩
  | succ fuel ih =>
    intro copied T s h hfuel hfront
    unfold writeLoop
    by_cases hle : len ≤ copied
    · rw [if_pos hle]
      exact ⟨.ok (T i), s, T i, rfl, hdone copied T s h hle hfront⟩
    · rw [if_neg hle]
      have hsmall : pos + copied ≤ 32899 * 512 := by
        by_contra hgt
        have := live_data_lt (hfront 32899 (by omega))
        omega
      have hoff : (pos + copied) % 2 ^ 64 = pos + copied := by omega
      have hblk : (pos + copied) / 512 % 2 ^ 32 = (pos + copied) / 512 := by omega
      simp only [hoff, hblk]
      generalize hl : (pos + copied) / 512 = l
      generalize hchunk : min (512 - (pos + copied) % 512) (len - copied) = chunk
      -- no direct block is passed over
      have hgap : l < 3 → l ≤ (T i).nblks := by
        intro hl3
        by_contra hlt
        have := live_direct_lt (by omega) (hfront (T i).nblks (by omega))
        omega
      obtain ⟨r, s1, ino1, hexec, hres, -⟩ := resolveOrAlloc_owned ok h hi hgap
        (fun hl3 => hsp l hl3 (by omega))
      have hgrow1 : Grows g D {x | x.1 = i} T s (Function.update T i ino1) s1 :=
        hres.grows.mono (Set.empty_subset _)
      cases r with
      | error e =>
        refine ⟨.error e, s1, ino1, Fallible.exec_bind_error _ _ hexec, hres.owned, hgrow1, hres.ext,
          ?_, ?_, ?_, ?_⟩ <;> intro _ hr <;> cases hr
      | ok vi =>
        obtain ⟨v, ino'⟩ := vi
        obtain ⟨rfl, hx, hv, hsize⟩ := hres.ok v ino' rfl
        replace hv : ptr g s1 (Function.update T i ino' i) (.data l) = v := by
          rw [update_self, hv]
        have hu := hres.owned.usedPtr hx
        rw [hv] at hu
        obtain ⟨h2, hgrow2⟩ := hres.owned.writeData ok hx hv
          ((s1 (dataBlkToPos g v)).splice ((pos + copied) % 512) chunk fun j => buf (copied + j))
        generalize hs2 : Function.update s1 (dataBlkToPos g v) _ = s2 at h2 hgrow2
        have hfront' : ∀ l', l' * 512 < pos + (copied + chunk) →
            (i, .data l') ∈ Live g D (Function.update T i ino') s2 := by
          intro l' hl'
          by_cases hll : l' = l
          · rw [hll]
            exact (hgrow2.live i _ hx).1
          · exact (hgrow2.live i _ (hres.grows.live i _ (hfront l' (by omega))).1).1
        obtain ⟨r, s3, ino3, hexec', hw⟩ := ih (copied + chunk) (Function.update T i ino') s2 h2
          (by omega) hfront'
        rw [update_self] at hexec'
        obtain ⟨hown, hgrow, hext, hret, hlive, hsz, hbytes⟩ := hw
        rw [update_idem] at hown hgrow hlive
        rw [update_self] at hext hsz hbytes
        refine ⟨r, s3, ino3, ?_, hown, (hgrow1.trans (hgrow2.mono ?_)).trans hgrow,
          hres.ext.trans hext, hret, hlive, ?_, ?_⟩
        · rw [exec_bind_ok _ _ hexec]
          rw [exec_bind_ok _ _
            (Fallible.exec_modifyBlock _ _ (ok.inRange_data hu.1) _ _ _), hs2]
          exact hexec'
        · rintro x rfl
          rfl
        · intro ino'' hr
          rw [hsz ino'' hr]
          by_cases hd : l < 3 ∧ (T i).nblks ≤ l
          · -- the block was linked, and it was the next one
            rw [if_pos hd] at hsize
            have hnb := nblks_of_size hsize
            rw [hnb, hsize, if_neg (by omega : ¬ min 3 ((pos + len + 511) / 512) ≤ (T i).nblks)]
            split
            · omega
            · rfl
          · rw [if_neg hd] at hsize
            rw [Inode.nblks, hsize, Inode.nblks]
        · intro ino'' hr q hq
          have hq2 : (i, .data (q / 512)) ∈ Live g D (Function.update T i ino') s2 ∨
              (pos + (copied + chunk) ≤ q ∧ q < pos + len) := by
            rcases hq with hq | hq
            · exact .inl (hgrow2.live i _ (hres.grows.live i _ hq).1).1
            · by_cases hqc : q < pos + (copied + chunk)
              · exact .inl (hfront' (q / 512) (by omega))
              · exact .inr ⟨by omega, hq.2⟩
          rw [hbytes ino'' hr q hq2]
          by_cases hlate : pos + (copied + chunk) ≤ q ∧ q < pos + len
          · rw [if_pos hlate, if_pos (by omega)]
          · rw [if_neg hlate]
            have hq1 : (i, .data (q / 512)) ∈ Live g D (Function.update T i ino') s1 := by
              rcases hq with hq | hq
              · exact (hres.grows.live i _ hq).1
              · by_cases hql : q / 512 = l
                · rw [hql]
                  exact hx
                · exact (hres.grows.live i _ (hfront (q / 512) (by omega))).1
            have hchunk' := byteAt_writeChunk ok hres.owned hx hv ((pos + copied) % 512) chunk
              (fun j => buf (copied + j)) hq1
            rw [update_self, hs2] at hchunk'
            rw [hchunk']
            by_cases hin : pos + copied ≤ q ∧ q < pos + len
            · rw [if_pos hin, if_pos (by omega)]
              congr 1
              omega
            · rw [if_neg hin, if_neg (by omega)]
              have hq0 := hq.resolve_right hin
              have hsame := hres.grows.live i _ hq0
              rw [update_self] at hsame
              rw [byteAt, byteAt, hsame.2, hres.grows.data i _ hq0 (Set.notMem_empty _)]

/-! ## `ktfs_writeat` -/

/-- The size the inode in memory has when the loop of a write to `pos .. pos + len`
returns: a direct block that was linked counts whole. -/
def sizeInMemory (ino : Inode) (pos len : Nat) : Nat :=
  if min 3 ((pos + len + 511) / 512) ≤ ino.nblks then ino.size.toNat
  else 512 * min 3 ((pos + len + 511) / 512)

/-- What `ktfs_writeat` leaves. -/
structure WroteAt (g : Geom) (D : Scope) (s : Nat → Blk) (files : Files) (f : Fd) (pos : Nat)
    (buf : Nat → UInt8) (len : Int) (reply : Reply) (files' : Files) (s' : Nat → Blk) : Prop where
  owned : Owned g D (inodeAt g s') s'
  frame : Frame g D {(files f).inodeIdx} s s'
  others : ∀ f', f' ≠ f → files' f' = files f'
  idx : (files' f).inodeIdx = (files f).inodeIdx
  inUse : (files' f).inUse = (files f).inUse
  rc : reply.rc ≤ 0 ∨ reply.rc = len
  failed : reply.rc ≤ 0 →
    files' = files ∧ inodeAt g s' (files f).inodeIdx = inodeAt g s (files f).inodeIdx
  size : 0 < reply.rc → (inodeAt g s' (files f).inodeIdx).size.toNat =
    max (sizeInMemory (inodeAt g s (files f).inodeIdx) pos len.toNat) (pos + len.toNat)
  handle : 0 < reply.rc → (files' f).size.toNat =
    if sizeInMemory (inodeAt g s (files f).inodeIdx) pos len.toNat < pos + len.toNat
    then pos + len.toNat else (files f).size.toNat
  bytes : 0 < reply.rc → ∀ q,
    ((files f).inodeIdx, .data (q / 512)) ∈ Live g D (inodeAt g s) s ∨
      (pos ≤ q ∧ q < pos + len.toNat) →
    byteAt g s' (inodeAt g s' (files f).inodeIdx) q =
      if pos ≤ q ∧ q < pos + len.toNat then buf (q - pos)
      else byteAt g s (inodeAt g s (files f).inodeIdx) q

/-- A call that changes nothing. -/
theorem WroteAt.same (h : Owned g D (inodeAt g s) s) (files : Files) (f : Fd) (pos : Nat)
    (buf : Nat → UInt8) (len : Int) {reply : Reply} (hrc : reply.rc ≤ 0) :
    WroteAt g D s files f pos buf len reply files s :=
  ⟨h, .refl s, fun _ _ => rfl, rfl, rfl, .inl hrc, fun _ => ⟨rfl, rfl⟩, fun h => absurd h (by omega),
    fun h => absurd h (by omega), fun h => absurd h (by omega)⟩

theorem run_saveInode (ok : GeomOk g N) (hi : i < inodeCount g) (ino : Inode)
    (onErr onOk : Reply × Files) (s : Nat → Blk) :
    Prog.run (inRange N) (saveInode g i ino onErr onOk) s = (onOk, setInode g s i ino) := by
  have hw := exec_writeInode ok hi ino s
  rw [Fallible.exec] at hw
  simp only [saveInode, Prog.run_bind, hw]
  rfl

section

variable (ok : GeomOk g N) (hi : (files f).inodeIdx < inodeCount g) {buf : Nat → UInt8} {len : Int}
  (hlen : 0 < len)

include ok hi hlen

/-- The loop fails: so does the call, and nothing more is written. -/
theorem run_ktfsWriteat_error {e : Int}
    (h : exec (inRange N) (writeLoop g pos buf len.toNat len.toNat 0
      (inodeAt g s (files f).inodeIdx)) s = (.error e, s')) :
    Prog.run (inRange N) (ktfsWriteat g files f pos buf len) s = (({ rc := e }, files), s') := by
  rw [← exec_bind_ok _ _ (exec_readInode ok hi s)
    (k := fun ino => writeLoop g pos buf len.toNat len.toNat 0 ino), Fallible.exec] at h
  unfold ktfsWriteat
  rw [if_neg (by omega)]
  simp only [Prog.run_bind, h]
  rfl

/-- The loop ends: the inode is written, and the call returns the length. -/
theorem run_ktfsWriteat_ok
    (h : exec (inRange N) (writeLoop g pos buf len.toNat len.toNat 0
      (inodeAt g s (files f).inodeIdx)) s = (.ok ino, s')) :
    Prog.run (inRange N) (ktfsWriteat g files f pos buf len) s =
      let size := UInt32.ofNat ((pos + len.toNat) % 2 ^ 64)
      if ino.size.toNat < (pos + len.toNat) % 2 ^ 64 then
        (({ rc := len }, Function.update files f { files f with size := size }),
          setInode g s' (files f).inodeIdx { ino with size := size })
      else (({ rc := len }, files), setInode g s' (files f).inodeIdx ino) := by
  rw [← exec_bind_ok _ _ (exec_readInode ok hi s)
    (k := fun ino => writeLoop g pos buf len.toNat len.toNat 0 ino), Fallible.exec] at h
  unfold ktfsWriteat
  rw [if_neg (by omega)]
  simp only [Prog.run_bind, h]
  split
  · simp only [update_self]
    rw [run_saveInode ok hi]
  · rw [run_saveInode ok hi]

end

/-- Writing an inode changes no byte of a file. -/
theorem byteAt_setInode (ok : GeomOk g N) (h : Owned g D T s) {j : Nat}
    (hi : i < inodeCount g) (ino : Inode) (hx : (j, .data (q / 512)) ∈ Live g D T s) :
    byteAt g (setInode g s i ino) (T j) q = byteAt g s (T j) q := by
  rw [byteAt, h.ptr_setInode ok hi ino j hx.1,
    setInode_data ok hi (ok.dataBlkToPos_lt (h.usedPtr hx).1).1, byteAt]

theorem byteAt_congr_top (h : ∀ p, ino'.top p = ino.top p) (q : Nat) :
    byteAt g s ino' q = byteAt g s ino q := by
  rw [byteAt, byteAt, ptr_congr_top h]

/-- The end of `ktfs_writeat`: the inode, with its last size, is written. -/
theorem Written.save (ok : GeomOk g N) (h : Owned g D (inodeAt g s) s) {files' : Files}
    (hi : (files f).inodeIdx ∈ D.inodes) {buf : Nat → UInt8} {len : Int}
    (hlen : 0 < len)
    (hw : Written g D (inodeAt g s) s (files f).inodeIdx pos buf len.toNat 0 (.ok ino) s' ino)
    (htop : ∀ p, ino'.top p = ino.top p)
    (hown : Owned g D (Function.update (inodeAt g s) (files f).inodeIdx ino') s')
    (hsize : ino'.size.toNat = max ino.size.toNat (pos + len.toNat))
    (hothers : ∀ f', f' ≠ f → files' f' = files f')
    (hidx : (files' f).inodeIdx = (files f).inodeIdx) (huse : (files' f).inUse = (files f).inUse)
    (hhandle : (files' f).size.toNat =
      if ino.size.toNat < pos + len.toNat then pos + len.toNat else (files f).size.toNat) :
    WroteAt g D s files f pos buf len { rc := len } files'
      (setInode g s' (files f).inodeIdx ino') := by
  have hrange := h.range _ hi
  have hself : inodeAt g (setInode g s' (files f).inodeIdx ino') (files f).inodeIdx = ino' :=
    inodeAt_setInode_same _ _
  have hsz := hw.size ino rfl
  rw [← sizeInMemory] at hsz
  have hdrop := h.dropInode ok hw.owned hw.ext hw.grows.inodes
  refine ⟨hown.saveInode ok hrange hw.grows.inodes,
    ((hw.grows.drop hw.ext).frame ok h fun _ hx => hx).trans (.setInode ok hdrop hrange ino'),
    hothers, hidx, huse, .inr rfl, ?_, ?_, ?_, ?_⟩
  · intro hrc
    simp only at hrc
    omega
  · intro _
    rw [hself, hsize, hsz]
  · intro _
    rw [hhandle, hsz]
  · intro _ q hq
    have hx : ((files f).inodeIdx, .data (q / 512)) ∈
        Live g D (Function.update (inodeAt g s) (files f).inodeIdx ino) s' := by
      rcases hq with hq | hq
      · exact (hw.grows.live _ _ hq).1
      · exact hw.live ino rfl _ (by omega)
    have hbyte := byteAt_setInode ok hw.owned hrange ino' hx
    rw [update_self] at hbyte
    rw [hself, byteAt_congr_top htop, hbyte]
    simpa using hw.bytes ino rfl q (by simpa using hq)

/-- `ktfs_writeat` keeps ownership and the other files, whatever it returns, and on
success changes the bytes of the range.  The write may not start past the end of the
last block, and the entries past the end that it takes over must count. -/
theorem run_ktfsWriteat (ok : GeomOk g N) (h : Owned g D (inodeAt g s) s)
    (hi : (files f).inodeIdx ∈ D.inodes) (buf : Nat → UInt8) {len : Int}
    (hgap : pos ≤ 512 * (inodeAt g s (files f).inodeIdx).nblks)
    (hsp : ∀ l, 3 ≤ l → l * 512 < pos + len.toNat → D.spare (files f).inodeIdx l) :
    ∃ reply files' s',
      Prog.run (inRange N) (ktfsWriteat g files f pos buf len) s = ((reply, files'), s') ∧
        WroteAt g D s files f pos buf len reply files' s' := by
  by_cases hlen : len ≤ 0
  · unfold ktfsWriteat
    rw [if_pos hlen]
    exact ⟨{ rc := 0 }, files, s, rfl, .same h files f pos buf len (Int.le_refl 0)⟩
  · replace hlen : 0 < len := by omega
    have hrange := h.range _ hi
    obtain ⟨r, s1, ino, hexec, hw⟩ := writeLoop_owned ok hi buf hsp len.toNat 0 (inodeAt g s) s h
      (by omega) (fun l hl => h.within _ hi _ ⟨by omega, by have := h.max _ hi; omega⟩)
    cases r with
    | error e =>
      -- the inode in memory is dropped
      have he : e < 0 := writeLoop_throws g pos buf len.toNat len.toNat 0 _ (inRange N) s e s1 hexec
      refine ⟨{ rc := e }, files, s1, run_ktfsWriteat_error ok hrange hlen hexec, h.dropInode ok hw.owned hw.ext hw.grows.inodes,
        (hw.grows.drop hw.ext).frame ok h fun _ hx => hx, fun _ _ => rfl, rfl, rfl, .inl (Int.le_of_lt he),
        fun _ => ⟨rfl, inodeAt_congr ok hrange hw.grows.inodes⟩, ?_, ?_, ?_⟩ <;> intro hpos <;>
        exact absurd hpos (by simp; omega)
    | ok ino' =>
      obtain rfl := hw.ret ino' rfl
      have hlive := hw.live ino' rfl
      have hend : pos + len.toNat ≤ 32899 * 512 := by
        by_contra hgt
        have := live_data_lt (hlive 32899 (by omega))
        omega
      have hoff : (pos + len.toNat) % 2 ^ 64 = pos + len.toNat := by omega
      have hval : (UInt32.ofNat (pos + len.toNat)).toNat = pos + len.toNat := by
        rw [UInt32.toNat_ofNat']
        omega
      rw [run_ktfsWriteat_ok ok hrange hlen hexec, hoff]
      by_cases hgrow : ino'.size.toNat < pos + len.toNat
      · have hnb : ({ ino' with size := UInt32.ofNat (pos + len.toNat) } : Inode).nblks =
            (pos + len.toNat + 511) / 512 := by
          rw [Inode.nblks, hval]
        have hown := hw.owned.resize hi (UInt32.ofNat (pos + len.toNat))
          (by rw [update_self, hnb]; omega)
          (by
            rw [update_self, hnb]
            exact fun p hp => live_of_data hi (fun l hl => hlive l (by omega)) hp)
        rw [update_self, update_idem] at hown
        rw [if_pos hgrow]
        refine ⟨_, _, _, rfl, hw.save ok h hi hlen (fun p => by cases p <;> rfl) hown ?_ ?_ ?_ ?_
          ?_⟩
        · rw [hval]
          omega
        · intro f' hf
          rw [update_of_ne hf]
        · rw [update_self]
        · rw [update_self]
        · rw [update_self, hval, if_pos hgrow]
      · rw [if_neg hgrow]
        refine ⟨_, _, _, rfl, hw.save ok h hi hlen (fun p => rfl) hw.owned ?_ (fun _ _ => rfl)
          rfl rfl ?_⟩
        · omega
        · rw [if_neg hgrow]

end MiniOs.Ktfs
