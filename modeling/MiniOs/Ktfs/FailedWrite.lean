import MiniOs.Ktfs.Whole

/-!
# Writes that may fail half way

`ktfs_writeat` changes the inode in memory and writes it at the end, so a call that fails
leaves the inode on the disk as it was, and on the disk what the call allocated: index
pages that the inode on the disk already had hold new entries, and the other blocks are
marked used and named by nothing.  The loop is followed here for every position, also past
the end, where the inode in memory counts direct blocks that it does not have.  What the
disk has of the file is an inode `gh` with the pages of the one in memory and the end and
the direct blocks of the one on the disk.
-/

namespace MiniOs.Ktfs

open Fallible (exec)
open Function (update_of_ne update_self update_eq_self)

variable {g : Geom} {N : Nat} {D : Scope} {T T' : Nat → Inode} {s s' s'' : Nat → Blk}
  {gh ino : Inode} {i l : Nat} {W : Set (Nat × Nat)} {v : UInt32}

/-! ## Index pages do not depend on the end -/

/-- The inodes have the same index pages. -/
structure Inode.SamePages (gh ino : Inode) : Prop where
  indirect : gh.indirect = ino.indirect
  dindirect : gh.dindirect = ino.dindirect

/-- The inode with the index pages of another one. -/
def Inode.withPages (ino p : Inode) : Inode :=
  { ino with indirect := p.indirect, dindirect := p.dindirect }

/-- Past the direct blocks `resolve_or_alloc` looks at the index pages only. -/
theorem exec_resolveOrAlloc_pages (hp : gh.SamePages ino) (hl : 3 ≤ l)
    (alloc : Bool) (s : Nat → Blk) :
    exec (inRange N) (resolveOrAlloc g ino l alloc) s =
      ((exec (inRange N) (resolveOrAlloc g gh l alloc) s).1.map fun x => (x.1, ino.withPages x.2),
        (exec (inRange N) (resolveOrAlloc g gh l alloc) s).2) := by
  have htop : ∀ p : Place, p.IsPage → ino.top p = gh.top p := by
    intro p hpage
    cases p with
    | data l => exact hpage.elim
    | ind => exact hp.indirect.symm
    | dind o =>
      show ino.dind o = gh.dind o
      rw [Inode.dind, Inode.dind, hp.dindirect]
    | inner o k => rfl
  have hset : ∀ (p : Place) (v : UInt32), p.IsPage →
      ino.setTop p v = ino.withPages (gh.setTop p v) := by
    intro p v hpage
    obtain ⟨h1, h2⟩ := hp
    cases p with
    | data l => exact hpage.elim
    | ind => rw [Inode.setTop, Inode.withPages, Inode.setTop, h2]
    | dind o => rw [Inode.setTop, Inode.setDind, Inode.withPages, Inode.setTop, Inode.setDind, h1, h2]
    | inner o k => rw [Inode.setTop, Inode.withPages, Inode.setTop, h1, h2]
  by_cases hl1 : l < 131
  · rw [resolveOrAlloc_eq_indirect _ (by omega) hl1, resolveOrAlloc_eq_indirect _ (by omega) hl1,
      htop .ind trivial]
    refine exec_bind_mapped (fun page => exec_bind_mapped fun out s => ?_) s
    rw [hset .ind page trivial]
    rfl
  · by_cases hl2 : l < 32899
    · have hwith : ∀ (gh' : Inode) o, (ino.withPages gh').top (.dind o) = gh'.top (.dind o) :=
        fun _ _ => rfl
      rw [resolveOrAlloc_eq_dindirect _ hl1 hl2 rfl rfl, resolveOrAlloc_eq_dindirect _ hl1 hl2 rfl rfl,
        htop (.dind _) trivial]
      refine exec_bind_mapped (fun page s => ?_) s
      simp only [hset (.dind _) page trivial, hwith]
      exact exec_bind_mapped (fun _ => exec_bind_mapped fun _ => exec_bind_mapped fun _ _ => rfl) s
    · rw [exec_resolveOrAlloc_past (by omega), exec_resolveOrAlloc_past (by omega)]
      rfl

/-! ## A turn of the loop -/

/-- What a call that may fail leaves of what is on the disk. -/
structure Left (g : Geom) (D : Scope) (W : Set (Nat × Nat)) (T : Nat → Inode) (s : Nat → Blk)
    (i : Nat) (gh : Inode) (s' : Nat → Blk) : Prop where
  owned : Owned g D (Function.update T i gh) s'
  grows : Grows g D W T s (Function.update T i gh) s'
  ext : (T i).Ext gh

theorem Left.trans {gh' : Inode} (h : Left g D W T s i gh s')
    (h' : Left g D W (Function.update T i gh) s' i gh' s'') : Left g D W T s i gh' s'' := by
  obtain ⟨hown, hgrow, hext⟩ := h'
  rw [Function.update_idem] at hown hgrow
  rw [update_self] at hext
  exact ⟨hown, h.grows.trans hgrow, h.ext.trans hext⟩

theorem Left.mono {W' : Set (Nat × Nat)} (h : Left g D W T s i gh s')
    (hw : W ⊆ W') : Left g D W' T s i gh s' :=
  ⟨h.owned, h.grows.mono hw, h.ext⟩

/-- The inode stays. -/
theorem Left.same (h : Owned g D T s') (hgrow : Grows g D W T s T s') :
    Left g D W T s i (T i) s' := by
  refine ⟨?_, ?_, .refl _⟩
  · rwa [update_eq_self]
  · rwa [update_eq_self]

/-- A block that no place names is written. -/
theorem Owned.writeFresh (ok : GeomOk g N) (h : Owned g D T s) (hv : Fresh g D T s v)
    (W : Set (Nat × Nat)) (x : Blk) : Owned g D T (Function.update s (dataBlkToPos g v) x) ∧
      Grows g D W T s T (Function.update s (dataBlkToPos g v) x) := by
  have hne : ∀ w, w ≠ v → Function.update s (dataBlkToPos g v) x (dataBlkToPos g w) =
      s (dataBlkToPos g w) :=
    fun w hw => update_of_ne (fun heq => hw (dataBlkToPos_inj heq)) _ _
  refine h.change (fun j p hx _ => hne _ (hv.live (j, p) hx)) (fun b _ hb => ?_)
    fun w hw => (usedPtr_update_data ok hv.used.1 x).mpr hw
  have := (ok.dataBlkToPos_lt hv.used.1).1
  exact update_of_ne (by omega) _ _

/-- The inode in memory `ino` before logical block `l` is resolved, and what the disk has of
it. -/
structure Mirror (gh ino : Inode) (l : Nat) : Prop where
  pages : gh.SamePages ino
  direct : ∀ k, k < 3 → k < gh.nblks → ino.direct k = gh.direct k
  nblks : gh.nblks ≤ ino.nblks
  front : ino.nblks ≤ gh.nblks ∨ ino.nblks ≤ min l 3

theorem Mirror.refl (ino : Inode) (l : Nat) : Mirror ino ino l :=
  ⟨⟨rfl, rfl⟩, fun _ _ _ => rfl, Nat.le_refl _, .inl (Nat.le_refl _)⟩

/-- What a turn of the loop does when it resolves block `l`: the block may be written, and
the loop goes on with an inode that mirrors what the disk has. -/
structure Turn (g : Geom) (D : Scope) (T : Nat → Inode) (s : Nat → Blk) (i l : Nat)
    (r : Except Int (UInt32 × Inode)) (s' : Nat → Blk) (gh : Inode) : Prop where
  left : Left g D ∅ T s i gh s'
  spent : Spent g ((i, .data l) ∈ Live g D T s) r s s'
  write : ∀ v ino, r = .ok (v, ino) → DataPtr g v ∧ Mirror gh ino (l + 1) ∧ ∀ x,
    Left g D {y | y.1 = i} (Function.update T i gh) s' i gh
      (Function.update s' (dataBlkToPos g v) x)

section

variable (ok : GeomOk g N) (h : Owned g D T s)

include ok h

/-- A block of data that the disk has of the file is written. -/
theorem Left.writeData (hx : (i, .data l) ∈ Live g D T s)
    (hv : ptr g s (T i) (.data l) = v) (x : Blk) :
    Left g D {y | y.1 = i} T s i (T i) (Function.update s (dataBlkToPos g v) x) := by
  obtain ⟨hown, hgrow⟩ := h.writeData ok hx hv x
  refine .same hown (hgrow.mono ?_)
  rintro y rfl
  rfl

/-- A direct block below the end on the disk. -/
theorem turn_direct (hi : i ∈ D.inodes)
    (hm : Mirror (T i) ino l) (hl : l < 3) (hnb : l < (T i).nblks) :
    exec (inRange N) (resolveOrAlloc g ino l true) s = (.ok (ino.direct l, ino), s) ∧
      Turn g D T s i l (.ok (ino.direct l, ino)) s (T i) := by
  have hmax := h.max i hi
  have hle := hm.nblks
  have hfront := hm.front
  have hx := h.within i hi (.data l) ⟨hnb, by omega⟩
  refine ⟨exec_resolveOrAlloc_direct (by omega) hl (Nat.lt_of_lt_of_le hnb hle) true,
    .same h (.refl _ _), .hit hx _, ?_⟩
  rintro v ino' ⟨⟩
  have hptr : ptr g s (T i) (.data l) = ino.direct l := by
    rw [ptr_top (Place.parent_direct hl), hm.direct l hl hnb]
    rfl
  refine ⟨?_, ⟨hm.pages, hm.direct, hle, hfront.imp id (by omega)⟩, fun x => ?_⟩
  · rw [← hptr]
    exact (h.usedPtr hx).1
  · rw [update_eq_self]
    exact .writeData ok h hx hptr x

/-- A direct block past the end on the disk is taken, and only the inode in memory names
it. -/
theorem turn_fresh (hm : Mirror (T i) ino l) (hl : l < 3) (hnb : (T i).nblks ≤ l) :
    ∃ r s', exec (inRange N) (resolveOrAlloc g ino l true) s = (r, s') ∧
      Turn g D T s i l r s' (T i) := by
  have hfront := hm.front
  have hlt : ¬ l < ino.nblks := by omega
  obtain ⟨ha, hfull⟩ | ⟨v, hv, hfree, ha⟩ := exec_allocDataBlock ok
      (show ([] : List Nat).length < cacheNent by decide) s
  · exact ⟨_, s, exec_resolveOrAlloc_fresh hl hlt ha, .same h (.refl _ _), .error hfull,
      fun v ino' hv => by cases hv⟩
  · obtain ⟨h1, hfresh⟩ := h.alloc ok hv hfree
    refine ⟨_, _, exec_resolveOrAlloc_fresh hl hlt ha, .same h1 (h.grows_allocated ok hv hfree ∅),
      .took (.allocated ok hv hfree) ⟨v, rfl⟩ _, ?_⟩
    rintro w ino' ⟨⟩
    have hval : ({ ino.setDirect l v with size := UInt32.ofNat ((l + 1) * 512) } : Inode).nblks =
        l + 1 := by
      refine nblks_of_size ?_
      show (UInt32.ofNat _).toNat = _
      rw [UInt32.toNat_ofNat']
      omega
    refine ⟨hv, ⟨⟨hm.pages.indirect, hm.pages.dindirect⟩, fun k hk hk' => ?_, ?_, ?_⟩, fun x => ?_⟩
    · rw [← hm.direct k hk hk', Inode.direct, Inode.direct, dif_pos hk, dif_pos hk]
      exact if_neg (show k ≠ l by omega)
    · rw [hval]
      omega
    · rw [hval]
      exact .inr (by omega)
    · rw [update_eq_self]
      obtain ⟨hown, hgrow⟩ := h1.writeFresh ok hfresh {y | y.1 = i} x
      exact .same hown hgrow

/-- A block named by an entry of an index page. -/
theorem turn_entry (hi : i ∈ D.inodes)
    (hm : Mirror (T i) ino l) (hl : 3 ≤ l) (hl' : l < 32899) (hsp : D.spare i l) :
    ∃ r s' gh, exec (inRange N) (resolveOrAlloc g ino l true) s = (r, s') ∧
      Turn g D T s i l r s' gh := by
  obtain ⟨r, s', gh, hexec, hres, hspent⟩ := resolveOrAlloc_owned ok h hi (fun hlt => by omega)
    fun _ => hsp
  have hself : (T i).SamePages (T i) := ⟨rfl, rfl⟩
  have hown := exec_resolveOrAlloc_pages (N := N) (g := g) hself hl true s
  have hino := exec_resolveOrAlloc_pages (N := N) (g := g) hm.pages hl true s
  rw [hexec] at hown hino
  refine ⟨_, s', gh, hino, ⟨hres.owned, hres.grows, hres.ext⟩, (hspent hl').map _, ?_⟩
  intro v ino' hr
  cases r with
  | error e => cases hr
  | ok x =>
    obtain ⟨w, gh'⟩ := x
    cases hr
    obtain ⟨rfl, hx, hptr, -⟩ := hres.ok w gh' rfl
    -- the disk has the end and the direct blocks it had
    have hgh : gh' = (T i).withPages gh' := by
      have := congrArg Prod.fst hown
      simpa [Except.map] using this
    have hnb : gh'.nblks = (T i).nblks := by
      rw [hgh]
      rfl
    have hdirect : ∀ k, gh'.direct k = (T i).direct k := fun k => by
      rw [hgh]
      rfl
    have hupd : Function.update T i gh' i = gh' := update_self ..
    have hdata := hres.owned.usedPtr hx
    rw [hupd, hptr] at hdata
    refine ⟨hdata.1, ⟨⟨rfl, rfl⟩, fun k hk hk' => ?_, ?_, ?_⟩, fun x => ?_⟩
    · rw [hnb] at hk'
      rw [hdirect]
      exact hm.direct k hk hk'
    · rw [hnb]
      exact hm.nblks
    · rw [hnb]
      exact hm.front.imp id fun hf => Nat.le_trans hf (by omega)
    · have hwrite := Left.writeData ok hres.owned hx (v := w) (by rw [hupd, hptr]) x
      rwa [hupd] at hwrite

/-- `resolve_or_alloc` in the loop of `ktfs_writeat`. -/
theorem exec_turn (hi : i ∈ D.inodes)
    (hm : Mirror (T i) ino l) (hl : l < 32899) (hsp : 3 ≤ l → D.spare i l) :
    ∃ r s' gh, exec (inRange N) (resolveOrAlloc g ino l true) s = (r, s') ∧
      Turn g D T s i l r s' gh := by
  by_cases hl3 : l < 3
  · by_cases hnb : l < (T i).nblks
    · obtain ⟨hexec, hturn⟩ := turn_direct ok h hi hm hl3 hnb
      exact ⟨_, _, _, hexec, hturn⟩
    · obtain ⟨r, s', hexec, hturn⟩ := turn_fresh ok h hm hl3 (by omega)
      exact ⟨r, s', _, hexec, hturn⟩
  · exact turn_entry ok h hi hm (by omega) hl (hsp (by omega))

end

/-! ## The loop -/

/-- The logical block of byte `q`. -/
def logicalOf (q : Nat) : Nat := q % 2 ^ 64 / 512 % 2 ^ 32

/-- What the loop of `ktfs_writeat` leaves from byte `copied` of the buffer on, whatever it
returns. -/
structure Tried (g : Geom) (D : Scope) (T : Nat → Inode) (s : Nat → Blk) (i pos len copied : Nat)
    (r : Except Int Inode) (s' : Nat → Blk) (gh : Inode) (A : Set UInt32) : Prop where
  left : Left g D {y | y.1 = i} T s i gh s'
  taken : Taken g A s s'
  error : ∀ e, r = .error e → e = -ENOMEM ∧ Full g s' ∨ e = -EINVAL
  /-- A first block that the file does not have is taken, or the disk was full. -/
  first : copied < len → logicalOf (pos + copied) < 32899 →
    (i, .data (logicalOf (pos + copied))) ∉ Live g D T s →
      A.Nonempty ∨ r = .error (-ENOMEM) ∧ s' = s ∧ Full g s

theorem writeLoop_tried (ok : GeomOk g N) (hi : i ∈ D.inodes) (pos len : Nat)
    (buf : Nat → UInt8) (hsp : ∀ l, 3 ≤ l → D.spare i l) :
    ∀ (fuel copied : Nat) (T : Nat → Inode) (s : Nat → Blk) (ino : Inode), Owned g D T s →
      Mirror (T i) ino (logicalOf (pos + copied)) → len - copied ≤ fuel →
      ∃ r s' gh A, exec (inRange N) (writeLoop g pos buf len fuel copied ino) s = (r, s') ∧
        Tried g D T s i pos len copied r s' gh A := by
  intro fuel
  induction fuel with
  | zero =>
    intro copied T s ino h _ hfuel
    exact ⟨.ok ino, s, T i, ∅, rfl, .same h (.refl _ _), .refl s, (fun _ he => by cases he),
      fun hlt => by omega⟩
  | succ fuel ih =>
    intro copied T s ino h hm hfuel
    rw [writeLoop]
    by_cases hle : len ≤ copied
    · rw [if_pos hle]
      exact ⟨.ok ino, s, T i, ∅, rfl, .same h (.refl _ _), .refl s, (fun _ he => by cases he),
        fun hlt => by omega⟩
    · rw [if_neg hle]
      have hnext : logicalOf (pos + copied) < 32899 →
          copied + (512 - (pos + copied) % 512) < len →
          logicalOf (pos + (copied + (512 - (pos + copied) % 512))) = logicalOf (pos + copied) + 1 := by
        rw [logicalOf, logicalOf]
        omega
      have hoff : (pos + copied) % 2 ^ 64 % 512 = (pos + copied) % 512 := by omega
      simp only [hoff]
      rw [← logicalOf]
      generalize hl : logicalOf (pos + copied) = l at hm hnext ⊢
      by_cases hlt : l < 32899
      · obtain ⟨r, s1, gh, hexec, hturn⟩ := exec_turn ok h hi hm hlt (hsp l)
        obtain ⟨A, hA, hA'⟩ := hturn.spent.taken
        have hleft : Left g D {y | y.1 = i} T s i gh s1 := hturn.left.mono (Set.empty_subset _)
        cases r with
        | error e =>
          obtain ⟨rfl, hfull⟩ := hturn.spent.full e rfl
          refine ⟨.error (-ENOMEM), s1, gh, A, Fallible.exec_bind_error _ _ hexec, hleft, hA, ?_, ?_⟩
          · rintro _ ⟨⟩
            exact .inl ⟨rfl, hfull⟩
          · intro _ _ _
            refine hA'.imp id fun hs => ⟨rfl, hs.1, ?_⟩
            rw [← hs.1]
            exact hfull
        | ok x =>
          obtain ⟨v, ino'⟩ := x
          obtain ⟨hv, hm', hwrite⟩ := hturn.write v ino' rfl
          rw [Fallible.exec_bind_ok _ _ hexec]
          simp only
          rw [Fallible.exec_bind_ok _ _
            (Fallible.exec_modifyBlock _ _ (ok.inRange_data hv) _ _ _)]
          generalize hchunk : min (512 - (pos + copied) % 512) (len - copied) = chunk
          have hleft2 := hwrite ((s1 (dataBlkToPos g v)).splice ((pos + copied) % 512) chunk
            fun j => buf (copied + j))
          have htaken2 := Taken.data (s := s1) ok hv ((s1 (dataBlkToPos g v)).splice
            ((pos + copied) % 512) chunk fun j => buf (copied + j))
          generalize Function.update s1 (dataBlkToPos g v) _ = s2 at hleft2 htaken2 ⊢
          have hboth := hleft.trans hleft2
          have hfirst : l < 32899 → (i, .data l) ∉ Live g D T s → A.Nonempty := fun _ hdead =>
            hA'.resolve_right fun hs => hdead (hs.2 _ rfl)
          by_cases hend : len ≤ copied + chunk
          · refine ⟨.ok ino', s2, gh, A ∪ ∅, exec_writeLoop_done buf hend ino' s2, hboth,
              hA.trans htaken2 ok, (fun _ he => by cases he), fun _ hl' hdead => ?_⟩
            rw [hl] at hl' hdead
            exact .inl ((hfirst hl' hdead).mono Set.subset_union_left)
          · have hfull : chunk = 512 - (pos + copied) % 512 := by omega
            rw [← hnext hlt (by omega), ← hfull] at hm'
            obtain ⟨r, s3, gh', A', hexec', htried⟩ := ih (copied + chunk) (Function.update T i gh) s2
              ino' hboth.owned (by rw [update_self]; exact hm') (by omega)
            refine ⟨r, s3, gh', A ∪ ∅ ∪ A', hexec', hboth.trans htried.left,
              (hA.trans htaken2 ok).trans htried.taken ok, htried.error, fun _ hl' hdead => ?_⟩
            rw [hl] at hl' hdead
            exact .inl ((hfirst hl' hdead).mono fun _ hv => .inl (.inl hv))
      · refine ⟨.error (-EINVAL), s, T i, ∅, Fallible.exec_bind_error _ _
          (exec_resolveOrAlloc_past (by omega) ino true s), .same h (.refl _ _), .refl s, ?_, ?_⟩
        · rintro _ ⟨⟩
          exact .inr rfl
        · intro _ hl'
          rw [hl] at hl'
          exact absurd hl' hlt

/-- Logical blocks repeat every `2 ^ 41` bytes. -/
theorem writeLoop_mod (g : Geom) (pos : Nat) (buf : Nat → UInt8) (len : Nat) :
    ∀ (fuel copied : Nat) (ino : Inode), writeLoop g pos buf len fuel copied ino =
      writeLoop g (pos % 2 ^ 41) buf len fuel copied ino := by
  intro fuel
  induction fuel with
  | zero => exact fun _ _ => rfl
  | succ fuel ih =>
    intro copied ino
    have hblk : (pos + copied) % 2 ^ 64 / 512 % 2 ^ 32 =
        (pos % 2 ^ 41 + copied) % 2 ^ 64 / 512 % 2 ^ 32 := by omega
    have hoff : (pos + copied) % 2 ^ 64 % 512 = (pos % 2 ^ 41 + copied) % 2 ^ 64 % 512 := by omega
    simp only [writeLoop, hblk, hoff, ih]

end MiniOs.Ktfs
