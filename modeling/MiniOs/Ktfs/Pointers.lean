import MiniOs.Ktfs.Disk

/-!
# Block pointers

A file names its blocks at places: three direct slots, the pointer to the indirect
page, two pointers to doubly-indirect pages, the entries of those, which point to
inner pages, and the entries of the indirect and inner pages, which are the leaves.
`rawPtr` is what the driver finds at a place when it follows the pointers without
asking whether they are 0.  `ptr` takes a place under a missing page to hold 0, so
that every pointer of a file is a function of its inode and of the pages it really has.

The two lemmas the proofs above rest on are `ptr_congr`, the pointers of a file change
only when one of its pages does, and `ptr_setEntry`, writing an entry of a page changes
the pointer at that one place.
-/

namespace MiniOs.Ktfs

open Function (update_of_ne update_self)

variable {k l nb : Nat} {p q : Place}

/-- A place of a file that holds a block pointer. -/
inductive Place where
  /-- The pointer to logical block `l`. -/
  | data (l : Nat)
  /-- The pointer to the indirect page. -/
  | ind
  /-- The pointer to doubly-indirect page `o`. -/
  | dind (o : Nat)
  /-- Entry `k` of doubly-indirect page `o`, a pointer to an inner page. -/
  | inner (o k : Nat)
deriving DecidableEq

namespace Place

/-- The page and the entry of it that hold a place, for a place that is not in the
inode. -/
def parent : Place → Option (Place × Nat)
  | .data l =>
      if l < 3 then none
      else if l < 131 then some (.ind, l - 3)
      else some (.inner ((l - 131) / 16384) ((l - 131) % 16384 / 128), (l - 131) % 128)
  | .ind => none
  | .dind _ => none
  | .inner o k => some (.dind o, k)

/-- The places of pages. -/
def IsPage : Place → Prop
  | .data _ => False
  | _ => True

/-- The places a file of `nb` blocks uses. -/
def Within (nb : Nat) : Place → Prop
  | .data l => l < nb ∧ l < 32899
  | .ind => 3 < nb
  | .dind o => o < 2 ∧ 131 + 16384 * o < nb
  | .inner o k => o < 2 ∧ k < 128 ∧ 131 + 16384 * o + 128 * k < nb

instance (nb : Nat) : (p : Place) → Decidable (p.Within nb)
  | .data _ | .ind | .dind _ | .inner _ _ => by unfold Within; infer_instance

theorem Within.mono {nb' : Nat} (h : nb ≤ nb') : ∀ {p : Place}, p.Within nb → p.Within nb'
  | .data _, hp => ⟨by have := hp.1; omega, hp.2⟩
  | .ind, hp => Nat.lt_of_lt_of_le hp h
  | .dind _, hp => ⟨hp.1, Nat.lt_of_lt_of_le hp.2 h⟩
  | .inner _ _, hp => ⟨hp.1, hp.2.1, Nat.lt_of_lt_of_le hp.2.2 h⟩

/-- The page of a place in use is in use. -/
theorem Within.parent (h : p.Within nb) (hp : p.parent = some (q, k)) : q.Within nb := by
  cases p with
  | data l =>
    simp only [Within] at h
    simp only [Place.parent] at hp
    split at hp
    · cases hp
    · split at hp
      · cases hp
        simp only [Within]
        omega
      · cases hp
        simp only [Within]
        omega
  | inner o k' =>
    cases hp
    simp only [Within] at h ⊢
    omega
  | ind => cases hp
  | dind o => cases hp

/-- The place an entry of a page is. -/
def child : Place → Nat → Place
  | .data l, _ => .data l
  | .ind, k => .data (3 + k)
  | .dind o, k => .inner o k
  | .inner o k, j => .data (131 + 16384 * o + 128 * k + j)

theorem eq_child_of_parent (h : p.parent = some (q, k)) :
    p = q.child k := by
  cases p with
  | data l =>
    simp only [parent] at h
    split at h
    · cases h
    · split at h
      · cases h
        simp only [child, data.injEq]
        omega
      · cases h
        simp only [child, data.injEq]
        omega
  | inner o k' =>
    cases h
    rfl
  | ind => cases h
  | dind o => cases h

theorem parent_direct (hl : l < 3) : (Place.data l).parent = none := if_pos hl

theorem parent_indirect (hl : ¬ l < 3) (hl' : l < 131) :
    (Place.data l).parent = some (.ind, l - 3) := by
  simp only [parent, if_neg hl, if_pos hl']

theorem parent_dindirect (hl : ¬ l < 131) :
    (Place.data l).parent =
      some (.inner ((l - 131) / 16384) ((l - 131) % 16384 / 128), (l - 131) % 128) := by
  simp only [parent, if_neg hl, if_neg (show ¬ l < 3 by omega)]

/-- The blocks named in the inode are the first three. -/
theorem lt_of_parent_none (h : (Place.data l).parent = none) : l < 3 := by
  by_contra hl
  simp only [parent, if_neg hl] at h
  split at h <;> cases h

theorem isPage_of_parent (h : p.parent = some (q, k)) : q.IsPage := by
  cases p with
  | data l =>
    simp only [parent] at h
    split at h
    · cases h
    · split at h <;> cases h <;> trivial
  | inner o k' =>
    cases h
    trivial
  | ind => cases h
  | dind o => cases h

/-- Induction from the inode down: a place holds when its page does. -/
theorem parentInduction {P : Place → Prop} (top : ∀ p, p.parent = none → P p)
    (child : ∀ p q k, p.parent = some (q, k) → P q → P p) : ∀ p, P p := by
  have hind : P .ind := top _ rfl
  have hinner : ∀ o k, P (.inner o k) := fun o k => child _ _ _ rfl (top (.dind o) rfl)
  intro p
  cases hp : p.parent with
  | none => exact top p hp
  | some qk =>
    obtain ⟨q, k⟩ := qk
    apply child p q k hp
    have := isPage_of_parent hp
    cases q with
    | data l => exact this.elim
    | ind => exact hind
    | dind o => exact top _ rfl
    | inner o k => exact hinner o k

/-- No place is its own page. -/
theorem parent_ne_self (h : p.parent = some (q, k)) : q ≠ p := by
  rintro rfl
  cases q with
  | data l => exact isPage_of_parent h
  | ind => cases h
  | dind o => cases h
  | inner o k' => cases h

/-- The places on the way to logical block `l`. -/
def Leads (l : Nat) : Place → Prop
  | .data l' => l' = l
  | .ind => 3 ≤ l ∧ l < 131
  | .dind o => 131 ≤ l ∧ o = (l - 131) / 16384
  | .inner o k => 131 ≤ l ∧ o = (l - 131) / 16384 ∧ k = (l - 131) % 16384 / 128

theorem Leads.within (hl : l < nb) (hnb : nb ≤ 32899) :
    ∀ {p : Place}, p.Leads l → p.Within nb
  | .data _, hp | .ind, hp | .dind _, hp | .inner _ _, hp => by
    simp only [Leads, Within] at hp ⊢
    omega

end Place

/-! ## Pointers -/

variable {g : Geom} {N : Nat} {s s' : Nat → Blk} {ino ino' : Inode} {e : UInt32 → Nat → UInt32}
  {page v : UInt32}

/-- The pointer at a place, when `entry page k` is entry `k` of the page at `page`. -/
def ptrBy (entry : UInt32 → Nat → UInt32) (ino : Inode) : Place → UInt32
  | .data l =>
      if l < 3 then ino.direct l
      else if l < 131 then entry ino.indirect (l - 3)
      else entry (entry (ino.dind ((l - 131) / 16384)) ((l - 131) % 16384 / 128)) ((l - 131) % 128)
  | .ind => ino.indirect
  | .dind o => ino.dind o
  | .inner o k => entry (ino.dind o) k

/-- Entry `k` of the page at `page`, as the driver reads it. -/
def rawEntry (g : Geom) (s : Nat → Blk) (page : UInt32) (k : Nat) : UInt32 :=
  (s (dataBlkToPos g page)).word k

/-- Entry `k` of the page at `page`, 0 when there is no page. -/
def entry (g : Geom) (s : Nat → Blk) (page : UInt32) (k : Nat) : UInt32 :=
  if page = 0 then 0 else rawEntry g s page k

/-- The pointer the driver finds at a place. -/
def rawPtr (g : Geom) (s : Nat → Blk) (ino : Inode) : Place → UInt32 := ptrBy (rawEntry g s) ino

/-- The pointer at a place, 0 under a missing page. -/
def ptr (g : Geom) (s : Nat → Blk) (ino : Inode) : Place → UInt32 := ptrBy (entry g s) ino

/-- The pointer at a place in the inode. -/
def Inode.top (ino : Inode) : Place → UInt32
  | .data l => ino.direct l
  | .ind => ino.indirect
  | .dind o => ino.dind o
  | .inner _ _ => 0

theorem ptrBy_top (h : p.parent = none) :
    ptrBy e ino p = ino.top p := by
  cases p with
  | data l => simp only [ptrBy, if_pos (Place.lt_of_parent_none h), Inode.top]
  | ind => rfl
  | dind o => rfl
  | inner o k => cases h

theorem ptrBy_child (h : p.parent = some (q, k)) : ptrBy e ino p = e (ptrBy e ino q) k := by
  cases p with
  | data l =>
    simp only [Place.parent] at h
    split at h
    · cases h
    · rename_i hl
      split at h
      · rename_i hl'
        cases h
        simp only [ptrBy, if_neg hl, if_pos hl']
      · rename_i hl'
        cases h
        simp only [ptrBy, if_neg hl, if_neg hl']
  | ind => cases h
  | dind o => cases h
  | inner o k =>
    cases h
    rfl

theorem rawPtr_top (h : p.parent = none) : rawPtr g s ino p = ino.top p := ptrBy_top h

theorem rawPtr_child (h : p.parent = some (q, k)) :
    rawPtr g s ino p = rawEntry g s (rawPtr g s ino q) k := ptrBy_child h

theorem ptr_top (h : p.parent = none) : ptr g s ino p = ino.top p := ptrBy_top h

theorem ptr_child (h : p.parent = some (q, k)) :
    ptr g s ino p = entry g s (ptr g s ino q) k := ptrBy_child h

@[simp] theorem entry_zero (k : Nat) : entry g s 0 k = 0 := if_pos rfl

theorem entry_of_ne (h : page ≠ 0) (k : Nat) :
    entry g s page k = rawEntry g s page k := if_neg h

theorem entry_congr (h : page ≠ 0 → s' (dataBlkToPos g page) = s (dataBlkToPos g page)) (k : Nat) :
    entry g s' page k = entry g s page k := by
  by_cases hp : page = 0
  · rw [hp, entry_zero, entry_zero]
  · rw [entry_of_ne hp, entry_of_ne hp, rawEntry, rawEntry, h hp]

/-- The pointers of a file change only when one of its pages does. -/
theorem ptr_congr (h : ∀ q : Place, q.IsPage → ptr g s ino q ≠ 0 →
      s' (dataBlkToPos g (ptr g s ino q)) = s (dataBlkToPos g (ptr g s ino q))) (p : Place) :
    ptr g s' ino p = ptr g s ino p := by
  induction p using Place.parentInduction with
  | top p hp => rw [ptr_top hp, ptr_top hp]
  | child p q k hp ih =>
    rw [ptr_child hp, ptr_child hp, ih]
    exact entry_congr (h q (Place.isPage_of_parent hp)) k

/-- The pointers below the end stay when the pages below it do. -/
theorem ptr_congr_within
    (h : ∀ q : Place, q.IsPage → q.Within nb →
      s' (dataBlkToPos g (ptr g s ino q)) = s (dataBlkToPos g (ptr g s ino q))) (p : Place) :
    p.Within nb → ptr g s' ino p = ptr g s ino p := by
  induction p using Place.parentInduction with
  | top p hp =>
    intro _
    rw [ptr_top hp, ptr_top hp]
  | child p q k hp ih =>
    intro hw
    have hq := hw.parent hp
    rw [ptr_child hp, ptr_child hp, ih hq]
    exact entry_congr (fun _ => h q (Place.isPage_of_parent hp) hq) k

/-- Where the page of every place in use is present, the driver finds the pointers of
the file. -/
theorem rawPtr_eq_ptr (h : ∀ q : Place, q.IsPage → q.Within nb → ptr g s ino q ≠ 0)
    (hp : p.Within nb) : rawPtr g s ino p = ptr g s ino p := by
  revert hp
  induction p using Place.parentInduction with
  | top p hp =>
    intro _
    rw [ptr_top hp, rawPtr_top hp]
  | child p q k hp ih =>
    intro hw
    have hq := hw.parent hp
    rw [ptr_child hp, rawPtr_child hp, ih hq, entry_of_ne (h q (Place.isPage_of_parent hp) hq)]

theorem rawPtr_of_ne (h : ptr g s ino p ≠ 0) : rawPtr g s ino p = ptr g s ino p := by
  induction p using Place.parentInduction with
  | top p hp => rw [ptr_top hp, rawPtr_top hp]
  | child p q k hp ih =>
    have hq : ptr g s ino q ≠ 0 := fun h0 => h (by rw [ptr_child hp, h0, entry_zero])
    rw [ptr_child hp, rawPtr_child hp, ih hq, entry_of_ne hq]

/-- Writing an entry of a page of the file that was 0 changes the pointer at its place,
when no other page lies in the block and a page it points to is empty. -/
theorem ptr_setEntry (hp : p.parent = some (q, k))
    (hk : k < 128) (hq : ptr g s ino q ≠ 0) (hzero : ptr g s ino p = 0)
    (hother : ∀ q' : Place, q'.IsPage → q' ≠ q → ptr g s ino q' ≠ 0 →
      dataBlkToPos g (ptr g s ino q') ≠ dataBlkToPos g (ptr g s ino q))
    (hne : dataBlkToPos g v ≠ dataBlkToPos g (ptr g s ino q))
    (hempty : p.IsPage → s (dataBlkToPos g v) = Block.zero)
    (hs' : s' = Function.update s (dataBlkToPos g (ptr g s ino q))
      ((s (dataBlkToPos g (ptr g s ino q))).setWord k v)) (p' : Place) :
    ptr g s' ino p' = Function.update (ptr g s ino) p v p' := by
  induction p' using Place.parentInduction with
  | top p' hp' =>
    have hpp : p' ≠ p := by
      rintro rfl
      rw [hp] at hp'
      cases hp'
    rw [update_of_ne hpp, ptr_top hp', ptr_top hp']
  | child p' q' k' hp' ih =>
    have hsame : p' = p → q' = q ∧ k' = k := by
      rintro rfl
      rw [hp] at hp'
      cases hp'
      exact ⟨rfl, rfl⟩
    rw [ptr_child hp', ih]
    by_cases hqp : q' = p
    · -- a place under the new page, which is empty, as it was under the missing one
      subst hqp
      have hpp : p' ≠ q' := (Place.parent_ne_self hp').symm
      rw [update_self, update_of_ne hpp, ptr_child hp', hzero, entry_zero]
      by_cases hv : v = 0
      · rw [hv, entry_zero]
      · rw [entry_of_ne hv, rawEntry, hs', update_of_ne hne,
          hempty (Place.isPage_of_parent hp'), Block.word_zero]
    · rw [update_of_ne hqp]
      by_cases hqq : q' = q
      · subst hqq
        rw [entry_of_ne hq, rawEntry, hs', update_self]
        by_cases hkk : k' = k
        · subst hkk
          have hpp : p' = p := by
            rw [Place.eq_child_of_parent hp', Place.eq_child_of_parent hp]
          rw [hpp, update_self, Block.word_setWord_same (by omega)]
        · rw [update_of_ne fun hpp => hkk (hsame hpp).2, Block.word_setWord_ne hkk, ptr_child hp', entry_of_ne hq,
            rawEntry]
      · rw [update_of_ne fun hpp => hqq (hsame hpp).1, ptr_child hp']
        apply entry_congr
        intro hpage
        rw [hs', update_of_ne (hother q' (Place.isPage_of_parent hp') hqq hpage)]

/-- The inode with the pointer at a place of it replaced. -/
def Inode.setTop (ino : Inode) : Place → UInt32 → Inode
  | .data l, v => ino.setDirect l v
  | .ind, v => { ino with indirect := v }
  | .dind o, v => ino.setDind o v
  | .inner _ _, _ => ino

/-- The places in the inode. -/
def Place.InInode : Place → Prop
  | .data l => l < 3
  | .ind => True
  | .dind o => o < 2
  | .inner _ _ => False

theorem Place.InInode.parent (h : p.InInode) : p.parent = none := by
  cases p with
  | data l => exact if_pos h
  | ind => rfl
  | dind o => rfl
  | inner o k => exact h.elim

theorem Inode.top_setTop (hp : p.InInode) (v : UInt32) (p' : Place) :
    (ino.setTop p v).top p' = Function.update ino.top p v p' := by
  by_cases hpp : p' = p
  · subst hpp
    rw [update_self]
    cases p' with
    | data l => simp [setTop, top, direct, setDirect, show l < 3 from hp]
    | ind => rfl
    | dind o => simp [setTop, top, dind, setDind, show o < 2 from hp]
    | inner o k => exact hp.elim
  · rw [update_of_ne hpp]
    cases p with
    | data l =>
      cases p' with
      | data l' =>
        have hne : l' ≠ l := fun h => hpp (by rw [h])
        simp [setTop, top, direct, setDirect, hne]
      | _ => rfl
    | ind =>
      cases p' with
      | ind => exact absurd rfl hpp
      | _ => rfl
    | dind o =>
      cases p' with
      | dind o' =>
        have hne : o' ≠ o := fun h => hpp (by rw [h])
        simp [setTop, top, dind, setDind, hne]
      | _ => rfl
    | inner o k => exact hp.elim

@[simp] theorem Inode.size_setTop (p : Place) (v : UInt32) : (ino.setTop p v).size = ino.size := by
  cases p <;> rfl

/-- A place written with what it holds. -/
theorem Inode.setTop_self (p : Place) : ino.setTop p (ino.top p) = ino := by
  cases p with
  | data l =>
    simp only [setTop, setDirect, top]
    congr 1
    funext k
    by_cases hk : k.1 = l
    · subst hk
      rw [if_pos rfl, direct, dif_pos k.2]
    · rw [if_neg hk]
  | ind => rfl
  | dind o =>
    simp only [setTop, setDind, top]
    congr 1
    funext k
    by_cases hk : k.1 = o
    · subst hk
      rw [if_pos rfl, dind, dif_pos k.2]
    · rw [if_neg hk]
  | inner o k => rfl

/-- Writing a pointer of the inode changes the pointer at its place.  A pointer to a page
was 0, and the page is empty. -/
theorem ptr_setTop (hp : p.InInode)
    (hpage : p.IsPage → ino.top p = 0 ∧ s (dataBlkToPos g v) = Block.zero) (p' : Place) :
    ptr g s (ino.setTop p v) p' = Function.update (ptr g s ino) p v p' := by
  induction p' using Place.parentInduction with
  | top p' hp' =>
    rw [ptr_top hp', Inode.top_setTop hp]
    by_cases hpp : p' = p
    · rw [hpp, update_self, update_self]
    · rw [update_of_ne hpp, update_of_ne hpp, ptr_top hp']
  | child p' q' k' hp' ih =>
    have hpp : p' ≠ p := by
      rintro rfl
      rw [hp.parent] at hp'
      cases hp'
    rw [ptr_child hp', ih, update_of_ne hpp, ptr_child hp']
    by_cases hqp : q' = p
    · subst hqp
      obtain ⟨hzero, hempty⟩ := hpage (Place.isPage_of_parent hp')
      rw [update_self, ptr_top hp.parent, hzero, entry_zero]
      by_cases hv : v = 0
      · rw [hv, entry_zero]
      · rw [entry_of_ne hv, rawEntry, hempty, Block.word_zero]
    · rw [update_of_ne hqp]

/-- The pointers of an inode do not depend on its size and flags. -/
theorem ptr_congr_top (h : ∀ p, ino'.top p = ino.top p) (p : Place) :
    ptr g s ino' p = ptr g s ino p := by
  induction p using Place.parentInduction with
  | top p hp => rw [ptr_top hp, ptr_top hp, h]
  | child p q k hp ih => rw [ptr_child hp, ptr_child hp, ih]

/-- There are no blocks past the last place. -/
theorem ptr_data_of_le (h : 32899 ≤ l) : ptr g s ino (.data l) = 0 := by
  have h1 : ¬ l < 3 := by omega
  have h2 : ¬ l < 131 := by omega
  have h3 : ¬ (l - 131) / 16384 < 2 := by omega
  simp only [ptr, ptrBy, if_neg h1, if_neg h2, Inode.dind, dif_neg h3, entry_zero]

end MiniOs.Ktfs
